import MayTaint.Program.Body
import MayTaint.Effect

/-!
The propagation rules. An assignment from a constant cleans its target, one from a local passes the
taint of the local on, and one from a binary operation taints its target when an operand is tainted.
A move does not clean its source. Every other rvalue leaves its target as it is and is reported;
other statements and all terminators have no effect. What a call does to its destination is decided
on its return edge, not here.
-/

namespace MayTaint

/-- What to do about an instruction without a rule. -/
abbrev Reporter (σ : Type) := Construct → Effect σ Unit

namespace Rules

variable [Machine] {σ : Type}

def ignore : Reporter σ := fun _ => .skip

def propagate (source target : Datum) : Effect σ Unit := do
  let tainted ← Effect.contains source
  Effect.setTaint tainted target

/-- Asks whether an operand is tainted; one that reads no local is not. -/
def tainted : Option Datum → Effect σ Bool
  | some source => Effect.contains source
  | none => pure false

def unsupported (rvalue : Rvalue) (l : Location) : Construct :=
  ⟨l, .rvalue,
    rvalue.datum.typeName ++ " rvalue `" ++ rvalue.text ++ "` leaves its target unchanged"⟩

/-- The second operand is asked about only if the first one is clean. -/
def binary (lhs rhs : Operand) (target : Datum) : Effect σ Unit := do
  let left ← Effect.ofExcept lhs.source?
  let right ← Effect.ofExcept rhs.source?
  if left.isNone && right.isNone then Effect.clean target
  else if ← tainted left then Effect.taint target
  else Effect.setTaint (← tainted right) target

def unruled (report : Reporter σ) (rvalue : Rvalue) (l : Location) : Effect σ Unit := do
  let _ ← Effect.ofExcept rvalue.spelling.written
  report (unsupported rvalue l)

def assign (report : Reporter σ) (target : Datum) (rvalue : Rvalue) (l : Location) :
    Effect σ Unit := do
  match rvalue with
  | .use operand =>
    match ← Effect.ofExcept operand.source? with
    | some source => propagate source target
    | none => Effect.clean target
  | .binary _ lhs rhs => binary lhs rhs target
  | .unary _ operand =>
    match ← Effect.ofExcept operand.source? with
    | some source => propagate source target
    | none => unruled report rvalue l
  | .foreign thing => Effect.raise (.misplaced .rvalue thing.datum)
  | _ => unruled report rvalue l

def statement (report : Reporter σ) (s : Statement) (l : Location) : Effect σ Unit :=
  match s with
  | .assign target rvalue => assign report target rvalue l
  | .foreign thing => .raise (.misplaced .statement thing.datum)
  | _ => .skip

def terminator (t : Terminator) : Effect σ Unit :=
  match t with
  | .statement s => .raise (.misplaced .terminator s.datum)
  | .foreign thing => .raise (.misplaced .terminator thing.datum)
  | _ => .skip

end Rules

end MayTaint
