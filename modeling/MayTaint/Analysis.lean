import MayTaint.Program.Body
import MayTaint.Effect

/-!
What an analysis has to provide: the least state, the state at the entry, and the effects of
instructions and of the normal return of a call. Its memory of type `σ` lasts from effect to effect.
Replaying a block runs the effects of consecutive instructions on a set.
-/

namespace MayTaint

structure Analysis (σ : Type) where
  name : String
  bottom : Body → Except Fault LocalSet
  /-- Adjusts the state at the entry, which is the least one before. -/
  start : Body → Effect σ Unit
  statement : Statement → Location → Effect σ Unit
  terminator : Terminator → Location → Effect σ Unit
  /-- The effect on the edge from a call to its continuation. -/
  callReturn : BlockId → Call → Location → Effect σ Unit
  unsupported : σ → List Construct

namespace Analysis

variable [Machine] {σ : Type}

def instruction (a : Analysis σ) (i : Instruction) (l : Location) : Effect σ Unit :=
  match i with
  | .statement s => a.statement s l
  | .terminator t => a.terminator t l

def replayFrom (a : Analysis σ) (body : Body) (bb : BlockId) :
    (count : Nat) → (index : Int) → EStateM Fault (LocalSet × Session σ) Unit
  | 0, _ => pure ()
  | count + 1, index => do
    match body.instructionAt ⟨bb, index⟩ with
    | .ok i =>
      (a.instruction i ⟨bb, index⟩).run
      a.replayFrom body bb count (index + 1)
    | .error f => throw f

/-- Runs the effects of the instructions of a block from `start` up to `stop`, by default up to and
with the terminator. -/
def replay (a : Analysis σ) (body : Body) (bb : BlockId) (start : Int) (stop : Option Int) :
    EStateM Fault (LocalSet × Session σ) Unit := do
  match body.block bb with
  | .ok b =>
    let stop := stop.getD (b.terminatorIndex + 1)
    a.replayFrom body bb (stop - start).toNat start
  | .error f => throw f

/-- The state that flows along an edge out of a state at the exit of `pred`: the effect of a
returning call is applied if the edge leads to the continuation of one. -/
def edgeState (a : Analysis σ) (body : Body) (pred succ : BlockId) (exit : LocalSet) :
    Run σ LocalSet := do
  let b ← Run.ofExcept (body.block pred)
  match b.terminator with
  | .call c =>
    if c.target = some succ then
      let ((), state) ← Run.onto exit (a.callReturn pred c ⟨pred, b.terminatorIndex⟩).run
      return state
    else return exit
  | _ => return exit

end Analysis

end MayTaint
