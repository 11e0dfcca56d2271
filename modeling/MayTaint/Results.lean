import MayTaint.Analysis
import MayTaint.Table

/-!
The results of a run: states at the entry and exit of the blocks that were reached. Anything finer
is found by replaying a block from its entry.
-/

namespace MayTaint

structure Results (σ : Type) where
  body : Body
  analysis : Analysis σ
  entries : Table LocalSet := {}
  exits : Table LocalSet := {}
  iterations : Nat := 0
  unsupported : List Construct := []

structure Summary where
  body : String
  analysis : String
  locals : Int
  blocks : Nat
  visitedBlocks : Nat
  iterations : Nat
  unsupported : Nat

namespace Results

variable {σ : Type}

def visitedBlocks (r : Results σ) : List BlockId :=
  r.exits.blocks

def wasReached (r : Results σ) (bb : BlockId) : Bool :=
  r.exits.contains bb

/-- The state of a block in a table, or the least one. -/
def stateIn (r : Results σ) (t : Table LocalSet) (bb : BlockId) : Except Fault LocalSet := do
  r.body.validateLocation ⟨bb, 0⟩
  match t.get? bb with
  | some s => return s
  | none => r.analysis.bottom r.body

/-- The locals that may be tainted at the entry of a block. -/
def entrySet (r : Results σ) (bb : BlockId) : Except Fault LocalSet :=
  r.stateIn r.entries bb

/-- The locals that may be tainted after the terminator of a block. -/
def exitSet (r : Results σ) (bb : BlockId) : Except Fault LocalSet :=
  r.stateIn r.exits bb

def summary (r : Results σ) : Summary where
  body := r.body.name
  analysis := r.analysis.name
  locals := r.body.localCount
  blocks := r.body.size
  visitedBlocks := r.exits.size
  iterations := r.iterations
  unsupported := r.unsupported.length

end Results

end MayTaint
