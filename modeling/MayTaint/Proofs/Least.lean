import MayTaint.Proofs.FixedPoint
import MayTaint.Proofs.Taint.Rules

/-!
The tables of a run are the least post-fixed point. If the effects are monotone, the tables of an
unfinished run stay below every post-fixed point: a visit joins states that are below and replays a
block from a state that is below. The finished tables are a post-fixed point themselves, since they
solve the equations of the analysis, so the order of the visits leaves no trace in them.
-/

namespace MayTaint

section

variable {σ : Type}

/-- States for the reachable blocks that take in everything that the analysis makes flow: the start
state or the least one, what flows along the edges, and what replaying a block makes of its entry
state. -/
structure Analysis.PostFixedPoint [Machine] (a : Analysis σ) (body : Body)
    (bottom start : LocalSet) (E X : BlockId → LocalSet) : Prop where
  start_le : start ≤ E Body.entry
  bottom_le : ∀ {bb}, body.Reachable bb → bb ≠ Body.entry → bottom ≤ E bb
  flow_le : ∀ {pred bb}, body.Reachable pred → body.Edge pred bb →
    ∃ flow, Run.Yields (a.edgeState body pred bb (X pred)) flow ∧ flow ≤ E bb
  exit_le : ∀ {bb}, body.Reachable bb →
    ∃ exit, Turns (a.replay body bb 0 none) (E bb) exit ∧ exit ≤ X bb

namespace Solver

variable {v : Solver σ} {bb : BlockId} {rest : List BlockId} {entry exit bottom : LocalSet}
  {p p' : Progress} {s s' : Session σ} {E X : BlockId → LocalSet}

structure Below (p : Progress) (E X : BlockId → LocalSet) : Prop where
  entry_le : ∀ {bb entry}, p.entries.get? bb = some entry → entry ≤ E bb
  exit_le : ∀ {bb exit}, p.exits.get? bb = some exit → exit ≤ X bb

theorem below_init (E X : BlockId → LocalSet) : Below { waiting := [Body.entry] } E X where
  entry_le h := by cases h
  exit_le h := by cases h

variable [Machine]

/-- What flows into a block stays below a post-fixed point if the exit states do. -/
theorem Below.joined_le (hv : v.Ready) (ha : v.analysis.Stateless) (hm : v.analysis.Monotone)
    (hbottom : v.analysis.bottom v.body = .ok bottom)
    (hE : v.analysis.PostFixedPoint v.body bottom v.start E X) (he : v.Explored p)
    (hp : Below p E X) (hbb : v.body.Reachable bb)
    (hjoin : v.joinIncoming p.exits bb s = .ok entry s') : entry ≤ E bb := by
  obtain ⟨preds, hpreds, hmem⟩ :=
    Body.exists_predecessorsIn hv.table (hv.valid.hasBlock_of_reachable hbb)
  obtain ⟨base, hbase, hflows⟩ := (joinIncoming_eq_ok hpreds).1 hjoin
  refine (isLUB_joinFlows ha hflows).2 ?_
  rintro _ (rfl | ⟨pred, hpred, exit, hexit, hflow⟩)
  · cases (base_eq hbottom bb).symm.trans hbase
    split
    · next hentry => exact hentry ▸ hE.start_le
    · next hentry => exact hE.bottom_le hbb hentry
  · have hreach : v.body.Reachable pred := he.reachable_of_visited (by rw [hexit]; rfl)
    obtain ⟨flow', hflow', hle⟩ := hE.flow_le hreach (hmem.1 hpred).2
    exact (Analysis.edgeState_mono s hm (hp.exit_le hexit) hflow hflow').trans hle

theorem Below.step (hv : v.Ready) (ha : v.analysis.Stateless) (hm : v.analysis.Monotone)
    (hbottom : v.analysis.bottom v.body = .ok bottom)
    (hE : v.analysis.PostFixedPoint v.body bottom v.start E X)
    (hs : v.Step bb rest entry exit p s p' s') (he : v.Explored p) (hp : Below p E X) :
    Below p' E X := by
  obtain ⟨s₁, s₂, hjoin, hreplay, _⟩ := hs.runs
  have hbb : v.body.Reachable bb := he.reachable_of_waiting (hs.waiting ▸ List.mem_cons_self)
  have hentry : entry ≤ E bb := hp.joined_le hv ha hm hbottom hE he hbb hjoin
  have hexit : exit ≤ X bb := by
    obtain ⟨exit', hexit', hle⟩ := hE.exit_le hbb
    have hturns := (ha.replay bb 0 none).turns hreplay
    exact (Analysis.replay_mono s ha hm hentry hturns hexit').trans hle
  constructor
  · intro b e hb
    rw [hs.entries] at hb
    split at hb
    · next hbb =>
      cases hb
      exact hbb ▸ hentry
    · exact hp.entry_le hb
  · intro b x hb
    rw [hs.exits] at hb
    split at hb
    · next hbb =>
      cases hb
      exact hbb ▸ hexit
    · exact hp.exit_le hb

/-- The tables of a run are below every post-fixed point. -/
theorem Ready.below (hv : v.Ready) (ha : v.analysis.Stateless) (hm : v.analysis.Monotone)
    (hbottom : v.analysis.bottom v.body = .ok bottom)
    (hE : v.analysis.PostFixedPoint v.body bottom v.start E X) {limit : Datum} {allowed : Nat}
    (h : v.iterate limit allowed { waiting := [Body.entry] } s = .ok p s') : Below p E X := by
  obtain ⟨⟨_, hbelow⟩, _⟩ := iterate_induct (fun p _ => v.Explored p ∧ Below p E X)
    (fun hs ⟨he, hb⟩ => ⟨he.step hs, hb.step hv ha hm hbottom hE hs he⟩) h
    ⟨explored_init v, below_init E X⟩
  exact hbelow

/-- The tables of a run are a post-fixed point. -/
theorem Ready.postFixedPoint (hv : v.Ready) (ha : v.analysis.Stateless)
    (hbottom : v.analysis.bottom v.body = .ok bottom) {limit : Datum} {allowed : Nat}
    (h : v.iterate limit allowed { waiting := [Body.entry] } s = .ok p s') :
    (∀ {bb}, v.body.Reachable bb → p.entries.get? bb = some ((p.entries.get? bb).getD bottom) ∧
      p.exits.get? bb = some ((p.exits.get? bb).getD bottom)) ∧
    v.analysis.PostFixedPoint v.body bottom v.start (fun bb => (p.entries.get? bb).getD bottom)
      (fun bb => (p.exits.get? bb).getD bottom) := by
  obtain ⟨hexplored, hconsistent, hw⟩ := hv.tables ha h
  have hvisited : ∀ {bb}, v.body.Reachable bb →
      p.entries.get? bb = some ((p.entries.get? bb).getD bottom) ∧
      p.exits.get? bb = some ((p.exits.get? bb).getD bottom) := by
    intro bb hbb
    obtain ⟨exit, hexit⟩ := Option.isSome_iff_exists.1 ((hexplored.visited_iff_reachable hw).2 hbb)
    obtain ⟨entry, hentry⟩ := hconsistent.exists_entry hexit
    simp [hentry, hexit]
  -- the entry state of a reachable block is the least upper bound of what flows in
  have hjoined := fun {bb} (hbb : v.body.Reachable bb) =>
    hconsistent.isLUB_entry hv ha s hbottom (hv.valid.hasBlock_of_reachable hbb)
      (hvisited hbb).1 (by simp [hw])
  refine ⟨hvisited, ?_, ?_, ?_, ?_⟩
  · obtain ⟨_, _, _, hlub, _⟩ := hjoined Body.Reachable.entry
    exact hlub.1 (.inl rfl)
  · intro bb hbb hne
    obtain ⟨_, _, _, hlub, _⟩ := hjoined hbb
    rw [if_neg hne] at hlub
    exact hlub.1 (.inl rfl)
  · intro pred bb hpred hedge
    obtain ⟨preds, _, hmem, hlub, hall⟩ := hjoined (hpred.step hedge)
    have hexit := (hvisited hpred).2
    have hin : pred ∈ preds := hmem.2 ⟨hv.valid.hasBlock_of_reachable hpred, hedge⟩
    obtain ⟨flow, hflow⟩ := hall pred hin _ hexit
    exact ⟨flow, hflow, hlub.1 (.inr ⟨pred, hin, _, hexit, hflow⟩)⟩
  · intro bb hbb
    obtain ⟨hentry, hexit⟩ := hvisited hbb
    exact ⟨_, hconsistent.replayed hentry hexit, le_rfl⟩

end Solver

variable [Machine]

namespace Analysis

section

variable {a : Analysis σ} {limits : Limits} {body : Body} {s₀ s₁ s₂ : Session σ}
  {bottom start : LocalSet} {table : List (List BlockId)} {p : Progress} {E X : BlockId → LocalSet}

theorem Solved.postFixedPoint (h : a.Solved limits body s₀ bottom start s₁ table p s₂)
    (ha : a.Stateless) :
    (∀ {bb}, body.Reachable bb → p.entries.get? bb = some ((p.entries.get? bb).getD bottom) ∧
      p.exits.get? bb = some ((p.exits.get? bb).getD bottom)) ∧
    a.PostFixedPoint body bottom start (fun bb => (p.entries.get? bb).getD bottom)
      (fun bb => (p.exits.get? bb).getD bottom) := by
  obtain ⟨limit, allowed, hiterate⟩ := h.iterate_eq
  exact h.ready.postFixedPoint ha h.bottom_eq hiterate

theorem Solved.below (h : a.Solved limits body s₀ bottom start s₁ table p s₂) (ha : a.Stateless)
    (hm : a.Monotone) (hE : a.PostFixedPoint body bottom start E X) : Solver.Below p E X := by
  obtain ⟨limit, allowed, hiterate⟩ := h.iterate_eq
  exact h.ready.below ha hm h.bottom_eq hE hiterate

end

/-- The tables of a run of a stateless and monotone analysis are the least post-fixed point over the
reachable blocks. The may-taint analysis is such an analysis if its model of calls, where it has
one, is stateless and monotone. -/
theorem solve_least :
    (∀ {σ : Type} {a : Analysis σ} {limits : Limits} {body : Body} {s s' : Session σ}
      {r : Results σ}, a.Stateless → a.Monotone → a.solve limits body s = .ok r s' →
      ∃ bottom start s₁ E X, a.bottom body = .ok bottom ∧
        (a.start body).run (bottom, s) = .ok () (start, s₁) ∧
        (∀ bb, body.Reachable bb →
          r.entries.get? bb = some (E bb) ∧ r.exits.get? bb = some (X bb)) ∧
        a.PostFixedPoint body bottom start E X ∧
        ∀ E' X', a.PostFixedPoint body bottom start E' X' →
          ∀ bb, body.Reachable bb → E bb ≤ E' bb ∧ X bb ≤ X' bb) ∧
    ∀ {η : Type} (t : Taint η),
      (∀ model, t.settings.callModel = some model →
        ∀ c l, (model c l).Stateless ∧ (model c l).Monotone) →
      t.analysis.Stateless ∧ t.analysis.Monotone := by
  constructor
  · intro σ a limits body s s' r ha hm h
    obtain ⟨bottom, start, s₁, table, p, s₂, hrun, -, -, hentries, hexits, -, -⟩ :=
      solved_of_solve h
    obtain ⟨hvisited, hpost⟩ := hrun.postFixedPoint ha
    rw [hentries, hexits]
    refine ⟨bottom, start, s₁, _, _, hrun.bottom_eq, hrun.start_eq, fun bb => hvisited, hpost, ?_⟩
    intro E' X' hE bb hbb
    have hbelow := hrun.below ha hm hE
    exact ⟨hbelow.entry_le (hvisited hbb).1, hbelow.exit_le (hvisited hbb).2⟩
  · intro η t hmodel
    exact ⟨Taint.analysis_stateless fun model hm c l => (hmodel model hm c l).1,
      Taint.analysis_monotone fun model hm c l => (hmodel model hm c l).2⟩

def tainting : Taint Unit where
  seed := [.int 0]
  settings := { callModel := some fun c _ => Effect.setTaint true (c.destination.getD .null) }

def callAndCopy : Body :=
  ⟨3, [⟨[], .call ⟨.constant .null, [], some (.int 1), some 1, none⟩⟩,
    ⟨[.assign (.int 2) (.use (.copy (.int 1)))], .switchInt (.copy (.int 0)) [(.int 0, 1)] 2⟩,
    ⟨[], .ret⟩], "callAndCopy"⟩

end Analysis

end

namespace Analysis

attribute [local instance] Machine.ample

theorem solve_least_tainting :
    ∃ r s', tainting.analysis.solve {} callAndCopy ⟨⟨{}, ()⟩, []⟩ = .ok r s' ∧
      ∃ bottom start E X,
        (∀ bb, callAndCopy.Reachable bb →
          r.entries.get? bb = some (E bb) ∧ r.exits.get? bb = some (X bb)) ∧
        tainting.analysis.PostFixedPoint callAndCopy bottom start E X ∧
        ∀ E' X', tainting.analysis.PostFixedPoint callAndCopy bottom start E' X' →
          ∀ bb, callAndCopy.Reachable bb → E bb ≤ E' bb ∧ X bb ≤ X' bb := by
  obtain ⟨r, s', h⟩ : ∃ r s', tainting.analysis.solve {} callAndCopy ⟨⟨{}, ()⟩, []⟩ = .ok r s' :=
    ⟨_, _, by cbv⟩
  have hmodel : ∀ model, tainting.settings.callModel = some model →
      ∀ c l, (model c l).Stateless ∧ (model c l).Monotone := by
    intro model hm c l
    cases hm
    exact ⟨Effect.Plain.stateless trivial, Effect.setTaint_monotone _ _⟩
  obtain ⟨ha, hm⟩ := solve_least.2 tainting hmodel
  obtain ⟨bottom, start, _, E, X, _, _, hsome, hpost, hleast⟩ := solve_least.1 ha hm h
  exact ⟨r, s', h, bottom, start, E, X, hsome, hpost, hleast⟩

end Analysis

end MayTaint
