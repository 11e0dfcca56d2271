import MayTaint.Program.Terminator

/-!
Bodies: one function's control flow graph. Blocks are numbered from zero, block zero is the entry,
and the terminators define the edges. A body is accepted by `validate` when every edge leads to one
of its blocks; the other queries also answer for bodies that are not.
-/

namespace MayTaint

structure Block where
  statements : List Statement
  terminator : Terminator
  deriving Inhabited

namespace Block

/-- The targets of the edges, in order and with repetitions. -/
def successors (b : Block) : Except Fault (List BlockId) := do
  return (← b.terminator.edges).map (·.1)

def datum (b : Block) : Datum :=
  .record "BasicBlockData"
    [("statements", .tuple (b.statements.map Statement.datum)), ("terminator", b.terminator.datum)]

def terminatorIndex (b : Block) : Int :=
  b.statements.length

end Block

inductive Instruction where
  | statement (s : Statement)
  | terminator (t : Terminator)
  deriving Inhabited

namespace Instruction

def spelling : Instruction → Spelling
  | statement s => s.spelling
  | terminator t => t.spelling

def text (i : Instruction) : String :=
  i.spelling.text

def datum : Instruction → Datum
  | statement s => s.datum
  | terminator t => t.datum

end Instruction

structure Body where
  localCount : Int
  blocks : List Block
  name : String := "<body>"
  deriving Inhabited

/-- Whether a number can be a position at all: positions are signed words of 64 bits. -/
def isPosition (i : Int) : Bool :=
  -0x8000000000000000 ≤ i && i < 0x8000000000000000

/-- The element at a position; a negative position counts from the end. -/
def elementAt {α : Type} (xs : List α) (i : Int) : Except Fault α :=
  let j := if i < 0 then i + xs.length else i
  match if j < 0 then none else xs[j.toNat]? with
  | some x => .ok x
  | none => .error (if isPosition i then .indexOutOfRange else .positionTooWide)

def distinct (xs : List BlockId) : List BlockId :=
  xs.foldl (fun seen x => if seen.contains x then seen else seen ++ [x]) []

namespace Body

def entry : BlockId := 0

def size (body : Body) : Nat :=
  body.blocks.length

def blockIds (body : Body) : List BlockId :=
  (List.range body.size).map Int.ofNat

def hasBlock (body : Body) (bb : BlockId) : Bool :=
  0 ≤ bb && bb < body.size

def block (body : Body) (bb : BlockId) : Except Fault Block :=
  elementAt body.blocks bb

/-- The successors of a block, each once, in the order of the terminator. -/
def successors (body : Body) (bb : BlockId) : Except Fault (List BlockId) := do
  return distinct (← (← body.block bb).successors)

def edges (body : Body) : Except Fault (List (BlockId × BlockId × EdgeKind)) := do
  let found ← body.blockIds.mapM fun src => do
    return (← (← body.block src).terminator.edges).map fun (dst, kind) => (src, dst, kind)
  return found.flatten

/-- The number of pairs of a block and one of its successors. -/
def edgeCount (body : Body) : Except Fault Nat := do
  let counts ← body.blockIds.mapM fun bb => do return (← body.successors bb).length
  return counts.foldl (· + ·) 0

def terminatorLocation (body : Body) (bb : BlockId) : Except Fault Location := do
  return ⟨bb, (← body.block bb).terminatorIndex⟩

def instructionAt (body : Body) (l : Location) : Except Fault Instruction := do
  let b ← body.block l.block
  if l.index = b.terminatorIndex then return .terminator b.terminator
  else return .statement (← elementAt b.statements l.index)

/-- Gives up unless the body has locals to count, at least one block, and edges to its own blocks
only. -/
def validate (body : Body) : Except Fault Unit := do
  if body.localCount < 0 then throw (.negativeLocalCount body.name body.localCount)
  if body.blocks.isEmpty then throw (.noBlocks body.name)
  body.blockIds.forM fun bb => do
    let b ← body.block bb
    (← b.terminator.edges).forM fun (target, kind) => do
      unless body.hasBlock target do
        throw (.danglingEdge body.name kind target ⟨bb, b.terminatorIndex⟩)

def validateLocation (body : Body) (l : Location) : Except Fault Unit := do
  unless body.hasBlock l.block do throw (.noSuchBlock body.name l.block)
  let b ← body.block l.block
  unless 0 ≤ l.index && l.index ≤ b.terminatorIndex do throw (.noSuchInstruction body.name l)

def datum (body : Body) : Datum :=
  .record "Body"
    [("local_count", .int body.localCount), ("blocks", .tuple (body.blocks.map Block.datum)),
     ("name", .text body.name)]

def predecessorsIn (table : List (List BlockId)) (bb : BlockId) : Except Fault (List BlockId) :=
  if bb < 0 then .error (.noPredecessors bb)
  else match table[bb.toNat]? with
    | some preds => .ok preds
    | none => .error (.noPredecessors bb)

def addPredecessor (src : BlockId) (table : List (List BlockId)) (dst : BlockId) :
    Except Fault (List (List BlockId)) := do
  let preds ← predecessorsIn table dst
  return table.set dst.toNat (preds ++ [src])

def enterBlock (body : Body) (table : List (List BlockId)) (src : BlockId) :
    Except Fault (List (List BlockId)) := do
  (← body.successors src).foldlM (addPredecessor src) table

/-- The predecessors of every block, in the order of the blocks. The blocks are entered in turn; an
edge that leads to no block spoils the whole table. -/
def predecessorTable (body : Body) : Except Fault (List (List BlockId)) :=
  body.blockIds.foldlM body.enterBlock (List.replicate body.size [])

/-- A search of the graph: the blocks met so far and, of those, the finished ones, the last one
first. -/
structure Search where
  met : List BlockId
  finished : List BlockId

/-- Visits everything that can be reached from a block without passing a block met before, and
finishes the block after its successors. At most `fuel` blocks can lie on top of each other. -/
def search (body : Body) : Nat → BlockId → Search → Except Fault Search
  | 0, _, s => .ok s
  | fuel + 1, bb, s => do
    if s.met.contains bb then return s
    let targets ← body.successors bb
    let s ← targets.foldlM (fun s target => body.search fuel target s) ⟨bb :: s.met, s.finished⟩
    return ⟨s.met, bb :: s.finished⟩

/-- The blocks that can be reached from the entry, each before the successors that it leads to
first. Counting from either end, a block has two numbers, which bounds the search. -/
def reversePostorder (body : Body) : Except Fault (List BlockId) := do
  return (← body.search (2 * body.size + 1) entry ⟨[], []⟩).finished

/-- The body with the predecessor table that was computed for it first. Later changes of the body
leave a table that is there as it is. -/
structure Indexed where
  body : Body
  table : Option (List (List BlockId)) := none

def Indexed.predecessors (x : Indexed) (bb : BlockId) : Except Fault (List BlockId) × Indexed :=
  match x.table with
  | some table => (predecessorsIn table bb, x)
  | none =>
    match x.body.predecessorTable with
    | .ok table => (predecessorsIn table bb, { x with table := some table })
    | .error f => (.error f, x)

end Body

end MayTaint
