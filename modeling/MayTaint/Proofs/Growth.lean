import MayTaint.Proofs.FixedPoint

/-!
States only grow if the effects are stateless and monotone. This is no fact about one visit, since
single statements take locals out: the exit state of a block grows because its entry state has grown
since the visit before, and this because the exit states of its predecessors have. The invariant
looks ahead instead of back. It says that the entry state of a visited block is below whatever will
flow into the block, out of any exit states that cover the present ones; so it does not matter
whether a join that is never made would return.
-/

namespace MayTaint

variable {σ : Type}

def Table.Covered (t u : Table LocalSet) : Prop :=
  ∀ ⦃bb x⦄, t.get? bb = some x → ∃ y, u.get? bb = some y ∧ x ≤ y

theorem Table.Covered.trans {t u w : Table LocalSet} (htu : t.Covered u) (huw : u.Covered w) :
    t.Covered w := by
  intro bb x hx
  obtain ⟨y, hy, hxy⟩ := htu hx
  obtain ⟨z, hz, hyz⟩ := huw hy
  exact ⟨z, hz, hxy.trans hyz⟩

variable [Machine]

namespace Solver

variable {v : Solver σ} {bb : BlockId} {rest : List BlockId} {entry exit : LocalSet}
  {p p' : Progress} {s s' : Session σ}

theorem joinFlows_mono (ha : v.analysis.Stateless) (hm : v.analysis.Monotone)
    {exits exits' : Table LocalSet} (hle : exits.Covered exits') {preds : List BlockId}
    {base joined joined' : LocalSet} {s₁ s₂ s₁' s₂' : Session σ}
    (h : v.joinFlows exits bb preds base s₁ = .ok joined s₂)
    (h' : v.joinFlows exits' bb preds base s₁' = .ok joined' s₂') : joined ≤ joined' := by
  have hlub' := isLUB_joinFlows ha h'
  refine (isLUB_joinFlows ha h).2 ?_
  rintro flow (rfl | ⟨pred, hpred, x, hx, hflow⟩)
  · exact hlub'.1 (.inl rfl)
  · obtain ⟨y, hy, hxy⟩ := hle hx
    obtain ⟨flow', hflow'⟩ := exists_flow_of_joinFlows ha h' hpred hy
    calc flow ≤ flow' := Analysis.edgeState_mono s₁ hm hxy hflow hflow'
      _ ≤ joined' := hlub'.1 (.inr ⟨pred, hpred, y, hy, hflow'⟩)

/-- What flows into a block is monotone in the exit states. -/
theorem joinIncoming_mono (ha : v.analysis.Stateless) (hm : v.analysis.Monotone)
    {exits exits' : Table LocalSet} (hle : exits.Covered exits') {joined joined' : LocalSet}
    {s₁ s₂ s₁' s₂' : Session σ} (h : v.joinIncoming exits bb s₁ = .ok joined s₂)
    (h' : v.joinIncoming exits' bb s₁' = .ok joined' s₂') : joined ≤ joined' := by
  obtain ⟨preds, base, hpreds, hbase, hflows⟩ := exists_of_joinIncoming h
  obtain ⟨preds', base', hpreds', hbase', hflows'⟩ := exists_of_joinIncoming h'
  cases hpreds.symm.trans hpreds'
  cases hbase.symm.trans hbase'
  exact joinFlows_mono ha hm hle hflows hflows'

/-- The entry state of a visited block is below whatever flows into the block from now on. -/
def Rising (v : Solver σ) (p : Progress) : Prop :=
  ∀ ⦃bb entry⦄, p.entries.get? bb = some entry → ∀ ⦃exits⦄, p.exits.Covered exits →
    ∀ ⦃joined s s'⦄, v.joinIncoming exits bb s = .ok joined s' → entry ≤ joined

theorem rising_init (v : Solver σ) : v.Rising { waiting := [Body.entry] } := by
  intro bb entry h
  cases h

/-- The entry state of a block grows from visit to visit. -/
theorem Rising.le_entry (hr : v.Rising p) {old : LocalSet} (hold : p.entries.get? bb = some old)
    (hjoin : v.joinIncoming p.exits bb s = .ok entry s') : old ≤ entry :=
  hr hold (fun _ x hx => ⟨x, hx, le_rfl⟩) hjoin

/-- The exit state of a block grows from visit to visit. -/
theorem Rising.le_exit (hr : v.Rising p) (hc : v.Consistent p) (ha : v.analysis.Stateless)
    (hm : v.analysis.Monotone) {old : LocalSet} (hold : p.exits.get? bb = some old)
    {s₁ s₂ : Session σ} (hjoin : v.joinIncoming p.exits bb s = .ok entry s₁)
    (hreplay : v.analysis.replay v.body bb 0 none (entry, s₁) = .ok () (exit, s₂)) :
    old ≤ exit := by
  obtain ⟨oldEntry, hentry⟩ := hc.exists_entry hold
  exact Analysis.replay_mono s ha hm (hr.le_entry hentry hjoin) (hc.replayed hentry hold)
    ((ha.replay bb 0 none).turns hreplay)

theorem Step.covered (hs : v.Step bb rest entry exit p s p' s')
    (hgrows : ∀ {old}, p.exits.get? bb = some old → old ≤ exit) : p.exits.Covered p'.exits := by
  intro b x hx
  rw [hs.exits]
  split
  · next hb => exact ⟨exit, rfl, hgrows (hb ▸ hx)⟩
  · exact ⟨x, hx, le_rfl⟩

theorem Rising.step (ha : v.analysis.Stateless) (hm : v.analysis.Monotone)
    (hs : v.Step bb rest entry exit p s p' s') (hc : v.Consistent p) (hr : v.Rising p) :
    v.Rising p' := by
  obtain ⟨s₁, s₂, hentry, hexit, _⟩ := hs.runs
  have hcovered : p.exits.Covered p'.exits :=
    hs.covered fun hold => hr.le_exit hc ha hm hold hentry hexit
  intro b e hb exits hexits joined t t' hjoin
  rw [hs.entries] at hb
  split at hb
  · next hbb =>
    -- the visited block was entered with what flows out of the exit states before the visit
    cases hb
    subst hbb
    exact joinIncoming_mono ha hm (hcovered.trans hexits) hentry hjoin
  · exact hr hb (hcovered.trans hexits) hjoin

end Solver

end MayTaint
