import MayTaint.Results
import MayTaint.Settings

/-!
The fixed point of an analysis over a body. Blocks wait in a queue, the entry first. A visit joins
the states along the edges from the predecessors that have an exit state, replays the block, and, if
its exit state is new, queues the successors that do not wait already. Blocks that are never reached
keep no state.
-/

namespace MayTaint

structure Progress where
  waiting : List BlockId
  entries : Table LocalSet := {}
  exits : Table LocalSet := {}
  iterations : Nat := 0

def enqueue (waiting succs : List BlockId) : List BlockId :=
  succs.foldl (fun queue bb => if queue.contains bb then queue else queue ++ [bb]) waiting

/-- What stays the same through a run. -/
structure Solver (σ : Type) where
  analysis : Analysis σ
  limits : Limits
  body : Body
  start : LocalSet
  predecessors : List (List BlockId)

namespace Solver

variable [Machine] {σ : Type}

def base (v : Solver σ) (bb : BlockId) : Except Fault LocalSet :=
  if bb = Body.entry then .ok v.start else v.analysis.bottom v.body

/-- Joins to a state what flows along the edges from those predecessors that have an exit state. -/
def joinFlows (v : Solver σ) (exits : Table LocalSet) (bb : BlockId) (preds : List BlockId)
    (state : LocalSet) : Run σ LocalSet :=
  preds.foldlM (fun state pred => do
    match exits.get? pred with
    | none => return state
    | some exit => Run.ofExcept (state.join (← v.analysis.edgeState v.body pred bb exit))) state

/-- The state at the entry of a block: the start state or the least one, joined with what flows
along the edges from its predecessors. -/
def joinIncoming (v : Solver σ) (exits : Table LocalSet) (bb : BlockId) : Run σ LocalSet := do
  let state ← Run.ofExcept (v.base bb)
  let preds ← Run.ofExcept (Body.predecessorsIn v.predecessors bb)
  v.joinFlows exits bb preds state

def checkGrowth (v : Solver σ) (bb : BlockId) (old new : LocalSet) : Except Fault Unit := do
  unless ← old.isSubset new do
    throw (.shrank v.body.name bb (← old.difference new).toList)

/-- Checks a new exit state against the one before, if there is one and the limits ask for it. -/
def accept (v : Solver σ) (bb : BlockId) (old : Option LocalSet) (new : LocalSet) :
    Except Fault Unit :=
  match old with
  | some old => if v.limits.guardsGrowth then v.checkGrowth bb old new else .ok ()
  | none => .ok ()

/-- The progress after a visit. An exit state that is not new is not stored, and queues nothing. -/
def settle (v : Solver σ) (bb : BlockId) (entry exit : LocalSet) (p : Progress) :
    Except Fault Progress :=
  let entries := p.entries.insert bb entry
  if p.exits.get? bb = some exit then
    .ok { p with entries, iterations := p.iterations + 1 }
  else do
    let succs ← v.body.successors bb
    return ⟨enqueue p.waiting succs, entries, p.exits.insert bb exit, p.iterations + 1⟩

/-- Visits one block, which has left the queue already. -/
def visit (v : Solver σ) (bb : BlockId) (p : Progress) : Run σ Progress := do
  let entry ← v.joinIncoming p.exits bb
  let ((), exit) ← Run.onto entry (v.analysis.replay v.body bb 0 none)
  let old := p.exits.get? bb
  Run.ofExcept (v.accept bb old exit)
  Run.tell (.visited v.body.name ⟨bb, entry, exit, old != some exit⟩)
  Run.ofExcept (v.settle bb entry exit p)

/-- Visits waiting blocks until none is left, at most `allowed` times; `limit` is the limit that
allows no more. -/
def iterate (v : Solver σ) (limit : Datum) : (allowed : Nat) → Progress → Run σ Progress
  | 0, p =>
    if p.waiting.isEmpty then pure p else throw (.diverged v.body.name limit)
  | allowed + 1, p =>
    match p.waiting with
    | [] => pure p
    | bb :: rest => do
      let p ← v.visit bb { p with waiting := rest }
      v.iterate limit allowed p

end Solver

def Analysis.solve [Machine] {σ : Type} (a : Analysis σ) (limits : Limits) (body : Body) :
    Run σ (Results σ) := do
  Run.ofExcept body.validate
  let bottom ← Run.ofExcept (a.bottom body)
  let ((), start) ← Run.onto bottom (a.start body).run
  let edges ← Run.ofExcept body.edgeCount
  let predecessors ← Run.ofExcept body.predecessorTable
  let v : Solver σ := ⟨a, limits, body, start, predecessors⟩
  let p ← v.iterate (limits.bound body.size edges body.localCount)
    (limits.allowance body.size edges body.localCount) { waiting := [Body.entry] }
  Run.tell (.settled body.name a.name p.iterations p.exits.size body.size)
  let session ← get
  return {
    body, analysis := a, entries := p.entries, exits := p.exits, iterations := p.iterations
    unsupported := a.unsupported session.memory }

end MayTaint
