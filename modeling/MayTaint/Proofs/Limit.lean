import MayTaint.Proofs.Bound
import MayTaint.Proofs.Failure

/-!
The limit that is derived from a body is never reached, whatever the effects of the analysis do to
the sets they are handed: they may depend on a memory, lose what they had found, and give up. It is
enough that a run refuses an exit state that has shrunk. Then the exit states that it accepts only
grow, and each of them is new at most once for every local and once more, which bounds the visits as
for monotone effects.
-/

namespace MayTaint

section

variable [Machine] {σ : Type}

namespace Solver

variable {v : Solver σ} {n : Nat}

/-- Whatever the effects do, a run that refuses to shrink pays for its visits. -/
theorem explored_charged_step (hv : v.Ready) (hguard : v.limits.guardsGrowth = true)
    (hbase : ∀ bb base, v.base bb = .ok base → base.size = n) {bb : BlockId} {rest : List BlockId}
    {entry exit : LocalSet} {p p' : Progress} {s s' : Session σ}
    (hs : v.Step bb rest entry exit p s p' s') (hp : v.Explored p ∧ v.Charged n p) :
    v.Explored p' ∧ v.Charged n p' := by
  have hreach : v.body.Reachable bb := hp.1.reachable_of_waiting (by simp [hs.waiting])
  have hbb := hv.valid.hasBlock_of_reachable hreach
  exact ⟨hp.1.step hs, hp.2.step hbb hs (hs.size_eq (hbase bb)) (hs.grows hguard)⟩

end Solver

namespace Analysis

variable {a : Analysis σ} {limits : Limits} {body : Body} {bottom start : LocalSet}
  {s s₁ : Session σ} {table : List (List BlockId)} {n : Nat}

section

variable (hvalid : body.Valid) (htable : body.predecessorTable = .ok table)
  (hbottom : a.bottom body = .ok bottom) (hsize : bottom.size = n)
  (hstart : (a.start body).run (bottom, s) = .ok () (start, s₁))
  (hguard : limits.guardsGrowth = true)

include hvalid htable hbottom hsize hstart hguard

/-- A run of visits that stops at the derived limit was stopped by the analysis. -/
theorem raises_of_iterate_diverged {limit limit' : Datum} {name : String} {s' : Session σ}
    (h : (a.solver limits body start table).iterate limit
      (body.size + (body.blockIds.map body.degree).sum * (n + 1) + 1)
      { waiting := [Body.entry] } s₁ = .error (.diverged name limit') s') :
    a.Raises body (.diverged name limit') := by
  have hready : (a.solver limits body start table).Ready := ⟨hvalid, htable⟩
  obtain ⟨bb, rest, p, s₂, ⟨hexplored, hcharged⟩, hw, hend⟩ := Solver.iterate_eq_error
    (fun p _ => (a.solver limits body start table).Explored p ∧
      (a.solver limits body start table).Charged n p)
    (fun hs hp => Solver.explored_charged_step hready hguard
      (fun _ _ => size_base hbottom hsize hstart) hs hp)
    h ⟨Solver.explored_init _, Solver.charged_init _ n⟩
  have hreach : body.Reachable bb := hexplored.reachable_of_waiting (by simp [hw])
  rcases hend with hvisit | ⟨_, _, hcount⟩
  · have hstop := Solver.stop_of_visit hready (hvalid.hasBlock_of_reachable hreach) hvisit
    rcases hstop.cause hready hexplored hreach with hraises | ⟨_, _, hdomain⟩ | ⟨⟨_, hshrank⟩, _⟩
    · exact hraises
    · cases hdomain
    · cases hshrank
  · -- a block waits after more visits than the edges pay for
    exfalso
    have hvisits : p.iterations ≤ (body.blockIds.map body.degree).sum * (n + 1) :=
      hcharged.iterations_le (by simp [hw])
    simp only [Nat.zero_add] at hcount
    omega

theorem iterations_le_of_iterate {limit : Datum} {allowed : Nat} {p : Progress} {s₂ : Session σ}
    (h : (a.solver limits body start table).iterate limit allowed
      { waiting := [Body.entry] } s₁ = .ok p s₂) :
    p.iterations ≤ body.size + (body.blockIds.map body.degree).sum * (n + 1) := by
  have hready : (a.solver limits body start table).Ready := ⟨hvalid, htable⟩
  obtain ⟨⟨_, hcharged⟩, hw⟩ := Solver.iterate_induct
    (fun p _ => (a.solver limits body start table).Explored p ∧
      (a.solver limits body start table).Charged n p)
    (fun hs hp => Solver.explored_charged_step hready hguard
      (fun _ _ => size_base hbottom hsize hstart) hs hp)
    h ⟨Solver.explored_init _, Solver.charged_init _ n⟩
  have hvisits : p.iterations + p.waiting.length ≤
      1 + (body.blockIds.map body.degree).sum * (n + 1) := hcharged.visits_le
  have hentry : (0 : Int) < body.size := (Body.hasBlock_iff.1 hvalid.hasBlock_entry).2
  omega

end

/-- With the limit left to be derived and the growth of exit states checked, no run over a valid
body reaches the limit: it is told to have diverged only by an effect that says so itself. A run
that returns has made at most as many visits as the body has blocks, and for every edge one more
than it has locals.

This is about effects that act on the set they are handed and on no other, whatever they remember.
An effect that could go back to the set of an earlier visit, which is a recorded exit state by then,
could shrink it unnoticed and so make every exit state a new one. The bottom of a body is the same
set whenever it is asked for. -/
theorem solve_within_limit (hvalid : body.validate = .ok ())
    (hdomain : ∀ bottom, a.bottom body = .ok bottom → (bottom.size : Int) = body.localCount)
    (hlimit : limits.maxIterations = .null) (hguard : limits.guardsGrowth = true)
    (s : Session σ) :
    (∀ name limit s', a.solve limits body s = .error (.diverged name limit) s' →
      a.Raises body (.diverged name limit)) ∧
    ∀ r s', a.solve limits body s = .ok r s' → ∃ edges, body.edgeCount = .ok edges ∧
      (r.iterations : Int) ≤ body.size + edges * (body.localCount + 1) := by
  have hv := Body.valid_of_validate hvalid
  constructor
  · intro name limit s' h
    rcases solve_eq_error h with ⟨hinvalid, _⟩ | ⟨hbottom, _⟩ | ⟨bottom, hstart⟩ |
      ⟨bottom, start, s₁, table, _, hbottom, hstart, htable, hiterate⟩
    · rw [hvalid] at hinvalid
      cases hinvalid
    · exact .bottom hbottom
    · obtain ⟨_, hraised⟩ := Run.onto_eq_error.1 hstart
      exact .start hraised
    · rw [← hdomain bottom hbottom, allowance_of_null hlimit] at hiterate
      exact raises_of_iterate_diverged hv htable hbottom rfl hstart hguard hiterate
  · intro r s' h
    obtain ⟨bottom, start, s₁, table, p, s₂, hrun, _, _, _, _, _, hr, _⟩ := solved_of_solve h
    obtain ⟨limit, allowed, hiterate⟩ := hrun.iterate_eq
    refine ⟨_, hv.edgeCount, ?_⟩
    have hvisits := iterations_le_of_iterate hv hrun.table_eq hrun.bottom_eq rfl hrun.start_eq
      hguard hiterate
    rw [hr, ← hdomain bottom hrun.bottom_eq]
    exact_mod_cast hvisits

/-- An analysis that remembers how often it was asked: the first statement that it meets taints the
first local, the second one the second local, and so on. -/
def restless : Analysis Nat where
  name := "Restless"
  bottom body := LocalSet.bottom body.localCount
  start _ := Effect.skip
  statement _ _ := .read fun n =>
    .write (n + 1) (if n < 2 then Effect.taint (.int n) else Effect.skip)
  terminator _ _ := Effect.skip
  callReturn _ _ _ := Effect.skip
  unsupported _ := []

end Analysis

end

namespace Analysis

attribute [local instance] Machine.ample

/-- The analysis comes round to one block with a new exit state until its locals are used up, and
settles within the limit. -/
theorem solve_within_limit_restless :
    roundabout.validate = .ok () ∧ ∃ r s', restless.solve {} roundabout ⟨0, []⟩ = .ok r s' ∧
      r.iterations = 4 ∧ ∃ edges, roundabout.edgeCount = .ok edges ∧
        (r.iterations : Int) ≤ roundabout.size + edges * (roundabout.localCount + 1) := by
  have hvalid : roundabout.validate = .ok () := by cbv
  have hdomain : ∀ bottom, restless.bottom roundabout = .ok bottom →
      (bottom.size : Int) = roundabout.localCount := by
    intro bottom h
    cases h
    rfl
  obtain ⟨r, s', h, hr⟩ : ∃ r s', restless.solve {} roundabout ⟨0, []⟩ = .ok r s' ∧
      r.iterations = 4 := ⟨_, _, by cbv, by cbv⟩
  exact ⟨hvalid, r, s', h, hr, (solve_within_limit hvalid hdomain rfl rfl _).2 r s' h⟩

end Analysis

end MayTaint
