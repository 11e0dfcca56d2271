import MayTaint.Program.Body

/-!
Nodes: anything that a host can hand over as a part of a body, before it is known what part it is
to be. A node put to a use that it does not fit becomes a foreign part.
-/

namespace MayTaint

inductive Node where
  | value (d : Datum)
  | operand (o : Operand)
  | rvalue (r : Rvalue)
  | statement (s : Statement)
  | terminator (t : Terminator)
  | block (b : Block)
  | location (l : Location)
  deriving Inhabited

namespace Node

def datum : Node → Datum
  | value d => d
  | operand o => o.datum
  | rvalue r => r.datum
  | statement s => s.datum
  | terminator t => t.datum
  | block b => b.datum
  | location l => l.datum

def spelling : Node → Spelling
  | value d => d.mention
  | operand o => o.spelling
  | rvalue r => r.spelling
  | statement s => s.spelling
  | terminator t => t.spelling
  | block b => b.datum.spelling
  | location l => l.spelling

def toForeign (n : Node) : Foreign :=
  ⟨n.spelling, n.datum⟩

def toOperand : Node → Operand
  | operand o => o
  | n => .foreign n.toForeign

def toRvalue : Node → Rvalue
  | rvalue r => r
  | n => .foreign n.toForeign

def toStatement : Node → Statement
  | statement s => s
  | n => .foreign n.toForeign

def toTerminator : Node → Terminator
  | terminator t => t
  | statement s => .statement s
  | n => .foreign n.toForeign

end Node

end MayTaint
