import MayTaint.Fixpoint
import MayTaint.Proofs.Graph
import MayTaint.Proofs.Replay

/-!
The search for a fixed point, one visit at a time. `Solver.Step` says everything that a visit does
to the progress and to the session; whatever every step preserves holds of the tables when no block
waits any more (`Solver.iterate_induct`). The state that a visit starts from is the least upper
bound of the states that flow into the block.
-/

namespace MayTaint

theorem mem_enqueue {waiting succs : List BlockId} {bb : BlockId} :
    bb ∈ enqueue waiting succs ↔ bb ∈ waiting ∨ bb ∈ succs :=
  mem_foldl_fresh

theorem length_enqueue_le (waiting succs : List BlockId) :
    (enqueue waiting succs).length ≤ waiting.length + succs.length :=
  length_foldl_fresh_le waiting succs

variable [Machine] {σ : Type}

/-! ### Joining what flows in -/

/-- The states that flow into a block along the edges from those of the given predecessors that have
an exit state. -/
def Analysis.flows (a : Analysis σ) (body : Body) (exits : Table LocalSet) (preds : List BlockId)
    (bb : BlockId) : Set LocalSet :=
  {flow | ∃ pred ∈ preds, ∃ exit, exits.get? pred = some exit ∧
    Run.Yields (a.edgeState body pred bb exit) flow}

theorem Analysis.flows_cons_none {a : Analysis σ} {body : Body} {exits : Table LocalSet}
    {pred : BlockId} (h : exits.get? pred = none) (preds : List BlockId) (bb : BlockId) :
    a.flows body exits (pred :: preds) bb = a.flows body exits preds bb := by
  ext flow
  simp [flows, h]

theorem Analysis.flows_cons_some {a : Analysis σ} {body : Body} {exits : Table LocalSet}
    {pred bb : BlockId} {exit flow : LocalSet} (s : Session σ) (h : exits.get? pred = some exit)
    (hflow : Run.Yields (a.edgeState body pred bb exit) flow) (preds : List BlockId) :
    a.flows body exits (pred :: preds) bb = insert flow (a.flows body exits preds bb) := by
  ext w
  simp only [flows, List.mem_cons, exists_eq_or_imp, Set.mem_ofPred_eq, h, Option.some.injEq,
    exists_eq_left', Set.mem_insert_iff]
  refine or_congr_left ⟨fun hw => ?_, fun hw => hw ▸ hflow⟩
  exact hw.eq_of_ok (hflow s).choose_spec

namespace Solver

variable {v : Solver σ} {exits exits' : Table LocalSet} {bb : BlockId} {preds : List BlockId}

theorem joinIncoming_eq (hp : Body.predecessorsIn v.predecessors bb = .ok preds) :
    v.joinIncoming exits bb = Run.ofExcept (v.base bb) >>= v.joinFlows exits bb preds := by
  unfold joinIncoming
  rw [hp]
  rfl

theorem joinIncoming_eq_ok {entry : LocalSet} {s s' : Session σ}
    (hp : Body.predecessorsIn v.predecessors bb = .ok preds) :
    v.joinIncoming exits bb s = .ok entry s' ↔
      ∃ base, v.base bb = .ok base ∧ v.joinFlows exits bb preds base s = .ok entry s' := by
  rw [joinIncoming_eq hp, estate_bind_eq_ok]
  constructor
  · rintro ⟨base, s₁, hbase, h⟩
    obtain ⟨hok, rfl⟩ := Run.ofExcept_eq_ok.1 hbase
    exact ⟨base, hok, h⟩
  · rintro ⟨base, hbase, h⟩
    exact ⟨base, s, Run.ofExcept_eq_ok.2 ⟨hbase, rfl⟩, h⟩

theorem exists_of_joinIncoming {entry : LocalSet} {s s' : Session σ}
    (h : v.joinIncoming exits bb s = .ok entry s') :
    ∃ preds base, Body.predecessorsIn v.predecessors bb = .ok preds ∧ v.base bb = .ok base ∧
      v.joinFlows exits bb preds base s = .ok entry s' := by
  obtain ⟨base, s₁, hbase, h₁⟩ := estate_bind_eq_ok.1 h
  obtain ⟨hok, rfl⟩ := Run.ofExcept_eq_ok.1 hbase
  obtain ⟨preds, s₂, hpreds, h₂⟩ := estate_bind_eq_ok.1 h₁
  obtain ⟨hlisted, rfl⟩ := Run.ofExcept_eq_ok.1 hpreds
  exact ⟨preds, base, hlisted, hok, h₂⟩

theorem joinFlows_cons_none {pred : BlockId} (h : exits.get? pred = none) (state : LocalSet) :
    v.joinFlows exits bb (pred :: preds) state = v.joinFlows exits bb preds state := by
  rw [joinFlows, List.foldlM_cons, h]
  rfl

theorem joinFlows_cons_some {pred : BlockId} {exit : LocalSet} (h : exits.get? pred = some exit)
    (state : LocalSet) :
    v.joinFlows exits bb (pred :: preds) state =
      v.analysis.edgeState v.body pred bb exit >>= fun flow =>
        Run.ofExcept (state.join flow) >>= v.joinFlows exits bb preds := by
  rw [joinFlows, List.foldlM_cons, h, bind_assoc]
  rfl

/-- Only the exit states of the predecessors matter. -/
theorem joinFlows_congr (h : ∀ pred ∈ preds, exits.get? pred = exits'.get? pred)
    (state : LocalSet) : v.joinFlows exits bb preds state = v.joinFlows exits' bb preds state := by
  induction preds generalizing state with
  | nil => rfl
  | cons pred preds ih =>
    have hpred := h pred List.mem_cons_self
    have hrest := ih fun p hp => h p (List.mem_cons_of_mem pred hp)
    cases hexit : exits.get? pred with
    | none =>
      rw [joinFlows_cons_none hexit, joinFlows_cons_none (hpred ▸ hexit)]
      exact hrest state
    | some exit =>
      rw [joinFlows_cons_some hexit, joinFlows_cons_some (hpred ▸ hexit)]
      simp only [funext hrest]

theorem joinFlows_stateless (ha : v.analysis.Stateless) (state : LocalSet) :
    Run.Stateless (v.joinFlows exits bb preds state) := by
  induction preds generalizing state with
  | nil => exact Run.Stateless.pure state
  | cons pred preds ih =>
    cases hexit : exits.get? pred with
    | none =>
      rw [joinFlows_cons_none hexit]
      exact ih state
    | some exit =>
      rw [joinFlows_cons_some hexit]
      exact (ha.edgeState pred bb exit).bind fun flow => (Run.Stateless.const _).bind ih

theorem joinIncoming_stateless (ha : v.analysis.Stateless)
    (hp : Body.predecessorsIn v.predecessors bb = .ok preds) :
    Run.Stateless (v.joinIncoming exits bb) := by
  rw [joinIncoming_eq hp]
  exact (Run.Stateless.const _).bind fun state => joinFlows_stateless ha state

theorem size_joinFlows {state entry : LocalSet} {s s' : Session σ}
    (h : v.joinFlows exits bb preds state s = .ok entry s') : entry.size = state.size := by
  induction preds generalizing state s with
  | nil =>
    cases h
    rfl
  | cons pred preds ih =>
    cases hexit : exits.get? pred with
    | none =>
      rw [joinFlows_cons_none hexit] at h
      exact ih h
    | some exit =>
      rw [joinFlows_cons_some hexit] at h
      obtain ⟨flow, s₁, _, h⟩ := estate_bind_eq_ok.1 h
      obtain ⟨joined, s₂, hjoin, h⟩ := estate_bind_eq_ok.1 h
      have hsize := LocalSet.size_join (Run.ofExcept_eq_ok.1 hjoin).1
      exact (ih h).trans hsize.1

/-- If what flows into a block has been joined, everything that should flow in has done so. -/
theorem exists_flow_of_joinFlows (ha : v.analysis.Stateless) {state entry : LocalSet}
    {s s' : Session σ} (h : v.joinFlows exits bb preds state s = .ok entry s') {pred : BlockId}
    (hpred : pred ∈ preds) {exit : LocalSet} (hexit : exits.get? pred = some exit) :
    ∃ flow, Run.Yields (v.analysis.edgeState v.body pred bb exit) flow := by
  induction preds generalizing state s with
  | nil => cases hpred
  | cons first preds ih =>
    rcases List.mem_cons.1 hpred with rfl | hpred
    · rw [joinFlows_cons_some hexit] at h
      obtain ⟨flow, s₁, hflow, _⟩ := estate_bind_eq_ok.1 h
      exact ⟨flow, (ha.edgeState pred bb exit).yields hflow⟩
    · cases hfirst : exits.get? first with
      | none =>
        rw [joinFlows_cons_none hfirst] at h
        exact ih h hpred
      | some x =>
        rw [joinFlows_cons_some hfirst] at h
        obtain ⟨_, _, _, h⟩ := estate_bind_eq_ok.1 h
        obtain ⟨_, _, _, h⟩ := estate_bind_eq_ok.1 h
        exact ih h hpred

/-- What a visit of a block starts from is the join of everything that flows into it. -/
theorem isLUB_joinFlows (ha : v.analysis.Stateless) {state entry : LocalSet} {s s' : Session σ}
    (h : v.joinFlows exits bb preds state s = .ok entry s') :
    IsLUB (insert state (v.analysis.flows v.body exits preds bb)) entry := by
  induction preds generalizing state s with
  | nil =>
    cases h
    have hflows : v.analysis.flows v.body exits [] bb = ∅ := by
      ext flow
      simp [Analysis.flows]
    rw [hflows, LawfulSingleton.insert_empty_eq]
    exact isLUB_singleton
  | cons pred preds ih =>
    cases hexit : exits.get? pred with
    | none =>
      rw [joinFlows_cons_none hexit] at h
      rw [Analysis.flows_cons_none hexit]
      exact ih h
    | some exit =>
      rw [joinFlows_cons_some hexit] at h
      obtain ⟨flow, s₁, hflow, h⟩ := estate_bind_eq_ok.1 h
      obtain ⟨joined, s₂, hjoin, h⟩ := estate_bind_eq_ok.1 h
      have hjoined := LocalSet.isLUB_join (Run.ofExcept_eq_ok.1 hjoin).1
      rw [Analysis.flows_cons_some s hexit ((ha.edgeState pred bb exit).yields hflow)]
      -- the upper bounds of a join are those of its two parts
      refine isLUB_iff_le_iff.2 fun w => ?_
      rw [isLUB_le_iff (ih h), upperBounds_insert, upperBounds_insert, upperBounds_insert,
        ← Set.inter_assoc]
      simp only [Set.mem_inter_iff, Set.mem_Ici, isLUB_le_iff hjoined, upperBounds_insert,
        upperBounds_singleton]

/-! ### One visit -/

omit [Machine] in
theorem checkGrowth_eq_ok_iff {old new : LocalSet} :
    v.checkGrowth bb old new = .ok () ↔ old ≤ new := by
  rw [← LocalSet.isSubset_eq_true_iff]
  unfold checkGrowth
  rw [except_bind_eq_ok]
  constructor
  · rintro ⟨b, hb, h⟩
    cases b with
    | true => exact hb
    | false =>
      obtain ⟨d, _, h⟩ := except_bind_eq_ok.1 h
      cases h
  · intro h
    exact ⟨true, h, rfl⟩

omit [Machine] in
theorem accept_eq_ok {old : Option LocalSet} {new : LocalSet} :
    v.accept bb old new = .ok () ↔
      (v.limits.guardsGrowth = true → ∀ s, old = some s → s ≤ new) := by
  cases old with
  | none => simp [accept]
  | some old =>
    cases hguard : v.limits.guardsGrowth with
    | false => simp [accept, hguard]
    | true => simp [accept, hguard, checkGrowth_eq_ok_iff]

/-- A visit of the first waiting block `bb`, which is entered with the state `entry` and left with
the state `exit`: what it does to the progress and to the session. -/
structure Step (v : Solver σ) (bb : BlockId) (rest : List BlockId) (entry exit : LocalSet)
    (p : Progress) (s : Session σ) (p' : Progress) (s' : Session σ) : Prop where
  waiting : p.waiting = bb :: rest
  runs : ∃ s₁ s₂, v.joinIncoming p.exits bb s = .ok entry s₁ ∧
    v.analysis.replay v.body bb 0 none (entry, s₁) = .ok () (exit, s₂) ∧
    s' = s₂.tell (.visited v.body.name ⟨bb, entry, exit, p.exits.get? bb != some exit⟩)
  grows : v.limits.guardsGrowth = true → ∀ old, p.exits.get? bb = some old → old ≤ exit
  entries : ∀ b, p'.entries.get? b = if b = bb then some entry else p.entries.get? b
  exits : ∀ b, p'.exits.get? b = if b = bb then some exit else p.exits.get? b
  iterations : p'.iterations = p.iterations + 1
  queued : (p.exits.get? bb = some exit ∧ p'.waiting = rest) ∨
    (p.exits.get? bb ≠ some exit ∧
      ∃ succs, v.body.successors bb = .ok succs ∧ p'.waiting = enqueue rest succs)

variable {p p' : Progress} {s s' : Session σ} {rest : List BlockId} {entry exit : LocalSet}

theorem step_of_visit (hw : p.waiting = bb :: rest)
    (h : v.visit bb { p with waiting := rest } s = .ok p' s') :
    ∃ entry exit, v.Step bb rest entry exit p s p' s' := by
  obtain ⟨entry, s₁, hentry, hrest⟩ := estate_bind_eq_ok.1 h
  obtain ⟨⟨⟨⟩, exit⟩, s₂, hexit, hafter⟩ := estate_bind_eq_ok.1 hrest
  obtain ⟨⟨⟩, s₃, hcheck, htold⟩ := estate_bind_eq_ok.1 hafter
  obtain ⟨⟨⟩, s₄, htell, hlast⟩ := estate_bind_eq_ok.1 htold
  cases htell
  obtain ⟨haccept, rfl⟩ := Run.ofExcept_eq_ok.1 hcheck
  obtain ⟨hsettle, rfl⟩ := Run.ofExcept_eq_ok.1 hlast
  have hruns : ∃ s₁ s₂, v.joinIncoming p.exits bb s = .ok entry s₁ ∧
      v.analysis.replay v.body bb 0 none (entry, s₁) = .ok () (exit, s₂) ∧
      s₃.tell (.visited v.body.name ⟨bb, entry, exit, p.exits.get? bb != some exit⟩) =
        s₂.tell (.visited v.body.name ⟨bb, entry, exit, p.exits.get? bb != some exit⟩) :=
    ⟨s₁, s₃, hentry, Run.onto_eq_ok.1 hexit, rfl⟩
  have hgrows := accept_eq_ok.1 haccept
  unfold settle at hsettle
  split at hsettle
  · next hsame =>
    -- the exit state is the one before, so that setting it again would change nothing
    cases hsettle
    refine ⟨entry, exit, hw, hruns, hgrows, fun b => Table.get?_insert .., fun b => ?_, rfl,
      .inl ⟨hsame, rfl⟩⟩
    split
    · next hb => exact hb ▸ hsame
    · rfl
  · next hnew =>
    obtain ⟨succs, hsuccs, hsettle⟩ := except_bind_eq_ok.1 hsettle
    cases hsettle
    exact ⟨entry, exit, hw, hruns, hgrows, fun b => Table.get?_insert ..,
      fun b => Table.get?_insert .., rfl, .inr ⟨hnew, succs, hsuccs, rfl⟩⟩

/-! ### Whole runs -/

theorem iterate_of_nil {limit : Datum} {allowed : Nat} (hw : p.waiting = []) :
    v.iterate limit allowed p = pure p := by
  cases allowed with
  | zero =>
    rw [iterate, hw]
    rfl
  | succ allowed =>
    rw [iterate]
    split
    · rfl
    · next hcons => simp [hw] at hcons

theorem iterate_zero_of_cons {limit : Datum} (hw : p.waiting = bb :: rest) :
    v.iterate limit 0 p = throw (.diverged v.body.name limit) := by
  rw [iterate, hw]
  rfl

theorem iterate_succ_of_cons {limit : Datum} {allowed : Nat} (hw : p.waiting = bb :: rest) :
    v.iterate limit (allowed + 1) p =
      v.visit bb { p with waiting := rest } >>= v.iterate limit allowed := by
  rw [iterate]
  split
  · next hnil => simp [hw] at hnil
  · next hcons =>
    cases hw.symm.trans hcons
    rfl

/-- What every visit preserves holds when no block waits any more. -/
theorem iterate_invariant {limit : Datum} (I : Progress → Session σ → Prop)
    (hvisit : ∀ {bb rest p s p' s'}, p.waiting = bb :: rest →
      v.visit bb { p with waiting := rest } s = .ok p' s' → I p s → I p' s')
    {allowed : Nat} (h : v.iterate limit allowed p s = .ok p' s') (hI : I p s) :
    I p' s' ∧ p'.waiting = [] := by
  induction allowed generalizing p s with
  | zero =>
    cases hw : p.waiting with
    | nil =>
      rw [iterate_of_nil hw] at h
      cases h
      exact ⟨hI, hw⟩
    | cons bb rest =>
      rw [iterate_zero_of_cons hw] at h
      cases h
  | succ allowed ih =>
    cases hw : p.waiting with
    | nil =>
      rw [iterate_of_nil hw] at h
      cases h
      exact ⟨hI, hw⟩
    | cons bb rest =>
      rw [iterate_succ_of_cons hw] at h
      obtain ⟨p₁, s₁, hp₁, hrest⟩ := estate_bind_eq_ok.1 h
      exact ih hrest (hvisit hw hp₁ hI)

/-- What every step preserves holds when no block waits any more. -/
theorem iterate_induct {limit : Datum} (I : Progress → Session σ → Prop)
    (hstep : ∀ {bb rest entry exit p s p' s'}, v.Step bb rest entry exit p s p' s' →
      I p s → I p' s')
    {allowed : Nat} (h : v.iterate limit allowed p s = .ok p' s') (hI : I p s) :
    I p' s' ∧ p'.waiting = [] := by
  refine iterate_invariant I (fun hw hvisit hI => ?_) h hI
  obtain ⟨entry, exit, hs⟩ := step_of_visit hw hvisit
  exact hstep hs hI

end Solver

namespace Analysis

variable {a : Analysis σ} {limits : Limits} {body : Body}

def solver (a : Analysis σ) (limits : Limits) (body : Body) (start : LocalSet)
    (predecessors : List (List BlockId)) : Solver σ :=
  ⟨a, limits, body, start, predecessors⟩

structure Solved (a : Analysis σ) (limits : Limits) (body : Body) (s : Session σ)
    (bottom start : LocalSet) (s₁ : Session σ) (table : List (List BlockId)) (p : Progress)
    (s₂ : Session σ) : Prop where
  valid : body.Valid
  bottom_eq : a.bottom body = .ok bottom
  start_eq : (a.start body).run (bottom, s) = .ok () (start, s₁)
  table_eq : body.predecessorTable = .ok table
  iterate_eq : ∃ limit allowed, (a.solver limits body start table).iterate limit allowed
    { waiting := [Body.entry] } s₁ = .ok p s₂

theorem solved_of_solve {s s' : Session σ} {r : Results σ} (h : a.solve limits body s = .ok r s') :
    ∃ bottom start s₁ table p s₂, a.Solved limits body s bottom start s₁ table p s₂ ∧
      r.body = body ∧ r.analysis = a ∧ r.entries = p.entries ∧ r.exits = p.exits ∧
      r.unsupported = a.unsupported s₂.memory ∧ r.iterations = p.iterations ∧
      s' = s₂.tell (.settled body.name a.name p.iterations p.exits.size body.size) := by
  obtain ⟨⟨⟩, _, hvalidated, h₁⟩ := estate_bind_eq_ok.1 h
  obtain ⟨hvalidate, rfl⟩ := Run.ofExcept_eq_ok.1 hvalidated
  obtain ⟨bottom, _, hgiven, h₂⟩ := estate_bind_eq_ok.1 h₁
  obtain ⟨hbottom, rfl⟩ := Run.ofExcept_eq_ok.1 hgiven
  obtain ⟨⟨⟨⟩, start⟩, s₁, hstart, h₃⟩ := estate_bind_eq_ok.1 h₂
  obtain ⟨edges, _, hcounted, h₄⟩ := estate_bind_eq_ok.1 h₃
  obtain ⟨_, rfl⟩ := Run.ofExcept_eq_ok.1 hcounted
  obtain ⟨table, _, hlisted, h₅⟩ := estate_bind_eq_ok.1 h₄
  obtain ⟨htable, rfl⟩ := Run.ofExcept_eq_ok.1 hlisted
  obtain ⟨p, s₂, hiterate, h₆⟩ := estate_bind_eq_ok.1 h₅
  obtain ⟨⟨⟩, _, htell, h₇⟩ := estate_bind_eq_ok.1 h₆
  cases htell
  obtain ⟨_, _, hget, h₈⟩ := estate_bind_eq_ok.1 h₇
  cases hget
  cases h₈
  exact ⟨bottom, start, _, table, p, s₂, ⟨Body.valid_of_validate hvalidate, hbottom,
    Run.onto_eq_ok.1 hstart, htable, ⟨_, _, hiterate⟩⟩, rfl, rfl, rfl, rfl, rfl, rfl, rfl⟩

end Analysis

end MayTaint
