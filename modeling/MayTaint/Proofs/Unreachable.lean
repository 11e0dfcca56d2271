import MayTaint.Proofs.Cursor
import MayTaint.Proofs.Taint.Faults
import MayTaint.Proofs.Taint.Refusal

/-!
Code that cannot be reached. Two bodies with the same reachable blocks are compared run by run. The
blocks that only one of them has appear among the predecessors of its other blocks and in the limit
that is derived from it, but they never have an exit state. So the visits of the two runs are the
same, in the same order and in the same session, for as long as neither comes to its limit; and a
limit that is derived from the body stops no run of the analysis.
-/

namespace MayTaint

namespace Body

variable {body body' : Body} {bb succ : BlockId}

/-- The two bodies have the same name, as many locals and the same blocks where they can be
reached. -/
structure SameReachable (body body' : Body) : Prop where
  name : body'.name = body.name
  localCount : body'.localCount = body.localCount
  block : ∀ {bb}, body.Reachable bb → body'.block bb = body.block bb

theorem edge_congr (h : body'.block bb = body.block bb) :
    body'.Edge bb succ ↔ body.Edge bb succ := by
  unfold Edge
  rw [h]

theorem SameReachable.reachable_iff (h : body.SameReachable body') :
    body'.Reachable bb ↔ body.Reachable bb := by
  constructor
  · rintro ⟨path, hpath⟩
    induction hpath with
    | entry => exact .entry
    | step _ he ih => exact ih.step ((edge_congr (h.block ih)).1 he)
  · rintro ⟨path, hpath⟩
    induction hpath with
    | entry => exact .entry
    | step hpath he ih => exact ih.step ((edge_congr (h.block ⟨_, hpath⟩)).2 he)

theorem successors_congr (h : body'.block bb = body.block bb) :
    body'.successors bb = body.successors bb := by
  unfold successors
  rw [h]

/-- Predecessors are listed in increasing order. -/
theorem pairwise_predecessorsIn {table : List (List BlockId)} {preds : List BlockId}
    (h : body.predecessorTable = .ok table) (hpreds : predecessorsIn table bb = .ok preds) :
    preds.Pairwise (· < ·) := by
  obtain ⟨_, rfl⟩ := predecessorTable_eq_ok_iff.1 h
  rw [predecessorsIn_map] at hpreds
  split at hpreds
  · cases hpreds
    exact body.pairwise_blockIds.filter _
  · cases hpreds

end Body

section

variable [Machine] {σ : Type}

namespace Analysis

variable {a : Analysis σ} {body body' : Body} {bb succ : BlockId}

/-- A replay looks at its own block only. -/
theorem replayFrom_congr (h : body'.block bb = body.block bb) (count : Nat) (index : Int) :
    a.replayFrom body' bb count index = a.replayFrom body bb count index := by
  have hat : ∀ index, body'.instructionAt ⟨bb, index⟩ = body.instructionAt ⟨bb, index⟩ := by
    intro index
    simp only [Body.instructionAt, h]
  induction count generalizing index with
  | zero => rfl
  | succ count ih => simp only [replayFrom, hat, ih]

theorem replay_congr (h : body'.block bb = body.block bb) (start : Int) (stop : Option Int) :
    a.replay body' bb start stop = a.replay body bb start stop := by
  simp only [replay, h, replayFrom_congr h]

theorem edgeState_congr (h : body'.block bb = body.block bb) (exit : LocalSet) :
    a.edgeState body' bb succ exit = a.edgeState body bb succ exit := by
  simp only [edgeState, h]

theorem RaisesAt.raises {n : Nat} {f : Fault} (h : a.RaisesAt body n f) : a.Raises body f := by
  cases h with
  | instruction _ _ _ _ hrun => exact .instruction hrun
  | callReturn _ _ _ _ hrun => exact .callReturn hrun

end Analysis

namespace Solver

variable {v v' : Solver σ} {exits : Table LocalSet} {bb : BlockId} {preds : List BlockId}
  {p : Progress}

/-- The predecessors that have no exit state may as well be left out. -/
theorem joinFlows_filter (state : LocalSet) :
    v.joinFlows exits bb (preds.filter fun pred => (exits.get? pred).isSome) state =
      v.joinFlows exits bb preds state := by
  induction preds generalizing state with
  | nil => rfl
  | cons pred preds ih =>
    cases hexit : exits.get? pred with
    | none =>
      rw [List.filter_cons_of_neg (by simp [hexit]), joinFlows_cons_none hexit]
      exact ih state
    | some exit =>
      rw [List.filter_cons_of_pos (by simp [hexit]), joinFlows_cons_some hexit,
        joinFlows_cons_some hexit]
      simp only [funext ih]

structure SameReachable (v v' : Solver σ) : Prop where
  ready : v.Ready
  ready' : v'.Ready
  analysis : v'.analysis = v.analysis
  limits : v'.limits = v.limits
  start : v'.start = v.start
  bottom : v'.analysis.bottom v'.body = v.analysis.bottom v.body
  body : v.body.SameReachable v'.body

namespace SameReachable

variable (h : v.SameReachable v')

include h

omit [Machine] in
theorem base (bb : BlockId) : v'.base bb = v.base bb := by
  simp only [Solver.base, h.start, h.bottom]

theorem joinFlows (hreach : ∀ pred ∈ preds, v.body.Reachable pred) (state : LocalSet) :
    v'.joinFlows exits bb preds state = v.joinFlows exits bb preds state := by
  induction preds generalizing state with
  | nil => rfl
  | cons pred preds ih =>
    have hpred := h.body.block (hreach pred List.mem_cons_self)
    have hrest := ih fun p hp => hreach p (List.mem_cons_of_mem pred hp)
    cases hexit : exits.get? pred with
    | none =>
      rw [joinFlows_cons_none hexit, joinFlows_cons_none hexit]
      exact hrest state
    | some exit =>
      rw [joinFlows_cons_some hexit, joinFlows_cons_some hexit, h.analysis,
        Analysis.edgeState_congr hpred, funext hrest]

/-- What flows into a reachable block is the same, since predecessors that cannot be reached have no
exit states. -/
theorem joinIncoming (hp : v.Explored p) (hbb : v.body.Reachable bb) :
    v'.joinIncoming p.exits bb = v.joinIncoming p.exits bb := by
  obtain ⟨preds, hpreds, hmem⟩ :=
    Body.exists_predecessorsIn h.ready.table (h.ready.valid.hasBlock_of_reachable hbb)
  obtain ⟨preds', hpreds', hmem'⟩ := Body.exists_predecessorsIn h.ready'.table
    (h.ready'.valid.hasBlock_of_reachable (h.body.reachable_iff.2 hbb))
  have hsame : (preds'.filter fun pred => (p.exits.get? pred).isSome) =
      preds.filter fun pred => (p.exits.get? pred).isSome := by
    have hsorted := (Body.pairwise_predecessorsIn h.ready.table hpreds).filter
      fun pred => (p.exits.get? pred).isSome
    have hsorted' := (Body.pairwise_predecessorsIn h.ready'.table hpreds').filter
      fun pred => (p.exits.get? pred).isSome
    refine hsorted'.eq_of_mem_iff hsorted fun pred => ?_
    simp only [List.mem_filter, hmem, hmem']
    refine and_congr_left fun hvisited => ?_
    have hpred := hp.reachable_of_visited hvisited
    rw [Body.edge_congr (h.body.block hpred), h.ready.valid.hasBlock_of_reachable hpred,
      h.ready'.valid.hasBlock_of_reachable (h.body.reachable_iff.2 hpred)]
  have hreach : ∀ pred ∈ preds.filter fun pred => (p.exits.get? pred).isSome,
      v.body.Reachable pred := fun pred hpred =>
    hp.reachable_of_visited (List.mem_filter.1 hpred).2
  rw [joinIncoming_eq hpreds, joinIncoming_eq hpreds', h.base]
  refine congrArg _ (funext fun state => ?_)
  rw [← joinFlows_filter, hsame, h.joinFlows hreach, joinFlows_filter]

theorem visit (hp : v.Explored p) (hbb : v.body.Reachable bb) (rest : List BlockId) :
    v'.visit bb { p with waiting := rest } = v.visit bb { p with waiting := rest } := by
  have hblock := h.body.block hbb
  have haccept : v'.accept = v.accept := by
    funext bb old new
    simp only [accept, checkGrowth, h.limits, h.body.name]
  have hsettle : ∀ entry exit q, v'.settle bb entry exit q = v.settle bb entry exit q := by
    intro entry exit q
    simp only [settle, Body.successors_congr hblock]
  simp only [Solver.visit, h.joinIncoming hp hbb, h.analysis, Analysis.replay_congr hblock, haccept,
    hsettle, h.body.name]

/-- The two solvers make the same visits in the same order. -/
theorem iterate (limit : Datum) (allowed : Nat) (hp : v.Explored p) (s : Session σ) :
    v'.iterate limit allowed p s = v.iterate limit allowed p s := by
  induction allowed generalizing p s with
  | zero =>
    cases hw : p.waiting with
    | nil => rw [iterate_of_nil hw, iterate_of_nil hw]
    | cons bb rest => rw [iterate_zero_of_cons hw, iterate_zero_of_cons hw, h.body.name]
  | succ allowed ih =>
    cases hw : p.waiting with
    | nil => rw [iterate_of_nil hw, iterate_of_nil hw]
    | cons bb rest =>
      rw [iterate_succ_of_cons hw, iterate_succ_of_cons hw,
        h.visit hp (hp.reachable_of_waiting (hw ▸ List.mem_cons_self))]
      cases hvisit : v.visit bb { p with waiting := rest } s with
      | error f s' => rw [estate_bind_of_error hvisit, estate_bind_of_error hvisit]
      | ok p' s' =>
        rw [estate_bind_of_ok hvisit, estate_bind_of_ok hvisit]
        obtain ⟨entry, exit, hs⟩ := step_of_visit hw hvisit
        exact ih (hp.step hs) s'

end SameReachable

/-- A limit that does not stop a run has no part in it. -/
theorem iterate_eq_of_le {limit : Datum} (limit' : Datum) {allowed allowed' : Nat}
    (hle : allowed ≤ allowed') {s : Session σ}
    (hends : ∀ s', v.iterate limit allowed p s ≠ .error (.diverged v.body.name limit) s') :
    v.iterate limit allowed p s = v.iterate limit' allowed' p s := by
  induction allowed generalizing allowed' p s with
  | zero =>
    cases hw : p.waiting with
    | nil => rw [iterate_of_nil hw, iterate_of_nil hw]
    | cons bb rest =>
      rw [iterate_zero_of_cons hw] at hends
      exact absurd rfl (hends s)
  | succ allowed ih =>
    obtain ⟨allowed', rfl⟩ : ∃ n, allowed' = n + 1 := ⟨allowed' - 1, by omega⟩
    cases hw : p.waiting with
    | nil => rw [iterate_of_nil hw, iterate_of_nil hw]
    | cons bb rest =>
      rw [iterate_succ_of_cons hw] at hends ⊢
      rw [iterate_succ_of_cons hw]
      cases hvisit : v.visit bb { p with waiting := rest } s with
      | error f s' => rw [estate_bind_of_error hvisit, estate_bind_of_error hvisit]
      | ok p' s' =>
        rw [estate_bind_of_ok hvisit] at hends ⊢
        rw [estate_bind_of_ok hvisit]
        exact ih (by omega) hends

end Solver

/-! ### Whole runs -/

omit [Machine] in
theorem Limits.bound_of_ne_null {limits : Limits} (h : limits.maxIterations ≠ .null)
    (blocks edges localCount : Int) :
    limits.bound blocks edges localCount = limits.maxIterations := by
  unfold bound
  split
  · next hnull => exact absurd hnull h
  · rfl

namespace Taint

variable {η : Type} {t : Taint η} {body body' : Body} {limits : Limits}
  {start : LocalSet} {table table' : List (List BlockId)} {s : Session (Memory η)}

/-- The limit that is derived from the body stops no run without a model of calls. -/
theorem iterate_ne_diverged {n : Nat} (hmodel : t.settings.callModel = none) (hv : body.Valid)
    (hn : body.localCount = n) (hstart : start.size = n)
    (htable : body.predecessorTable = .ok table)
    (hlimit : limits.maxIterations = .null) (limit : Datum) (s s' : Session (Memory η)) :
    (t.analysis.solver limits body start table).iterate limit
      (limits.allowance body.size (body.blockIds.map body.degree).sum body.localCount)
      { waiting := [Body.entry] } s ≠ .error (.diverged body.name limit) s' := by
  intro h
  have hnone : ∀ model, t.settings.callModel ≠ some model := by simp [hmodel]
  have hraises : t.analysis.RaisesAt body n (.diverged body.name limit) := by
    refine Solver.raisesAt_of_iterate (v := t.analysis.solver limits body start table) ⟨hv, htable⟩
      (analysis_stateless fun model hm => absurd hm (hnone model))
      (analysis_monotone fun model hm => absurd hm (hnone model))
      (fun bb => ⟨_, Solver.base_eq (bottom_eq hn) bb, ?_⟩) ?_ h
    · split
      · exact hstart
      · rfl
    · rw [hn, Analysis.allowance_of_null hlimit]
      show (body.blockIds.map body.degree).sum * (n + 1) < _
      omega
  rcases isOwn_or_model_of_raises hraises.raises with hown | ⟨model, _, _, hm, _⟩
  · cases hown
  · exact hnone model hm

/-- Two runs that start alike make the same visits, each within its own limit. -/
theorem iterate_congr {n : Nat} (h : body.SameReachable body')
    (hmodel : t.settings.callModel = none) (hv : body.Valid) (hv' : body'.Valid)
    (hn : body.localCount = n) (hstart : start.size = n)
    (htable : body.predecessorTable = .ok table) (htable' : body'.predecessorTable = .ok table')
    (limits : Limits) (s : Session (Memory η)) :
    (t.analysis.solver limits body' start table').iterate
        (limits.bound body'.size (body'.blockIds.map body'.degree).sum body'.localCount)
        (limits.allowance body'.size (body'.blockIds.map body'.degree).sum body'.localCount)
        { waiting := [Body.entry] } s =
      (t.analysis.solver limits body start table).iterate
        (limits.bound body.size (body.blockIds.map body.degree).sum body.localCount)
        (limits.allowance body.size (body.blockIds.map body.degree).sum body.localCount)
        { waiting := [Body.entry] } s := by
  have hsame : (t.analysis.solver limits body start table).SameReachable
      (t.analysis.solver limits body' start table') :=
    ⟨⟨hv, htable⟩, ⟨hv', htable'⟩, rfl, rfl, rfl, congrArg LocalSet.bottom h.localCount, h⟩
  have hiterate := fun limit allowed =>
    hsame.iterate limit allowed (Solver.explored_init _) s
  by_cases hlimit : limits.maxIterations = .null
  · have hn' : body'.localCount = n := h.localCount.trans hn
    rw [Solver.iterate_eq_of_le .null (le_max_left _ _)
        (iterate_ne_diverged hmodel hv' hn' hstart htable' hlimit _ s),
      Solver.iterate_eq_of_le .null (le_max_right _ _)
        (iterate_ne_diverged hmodel hv hn hstart htable hlimit _ s)]
    exact hiterate _ _
  · simp only [Limits.allowance, Limits.bound_of_ne_null hlimit]
    exact hiterate _ _

/-- Two runs over bodies with the same reachable blocks fail alike, or both return and find the
same. -/
theorem solve_congr (h : body.SameReachable body') (hvalid : body.validate = .ok ())
    (hvalid' : body'.validate = .ok ()) (hmodel : t.settings.callModel = none)
    (limits : Limits) (s : Session (Memory η)) :
    (∃ f s', t.analysis.solve limits body s = .error f s' ∧
      t.analysis.solve limits body' s = .error f s') ∨
    ∃ r r' s₁ s₁', t.analysis.solve limits body s = .ok r s₁ ∧
      t.analysis.solve limits body' s = .ok r' s₁' ∧ r.Agrees r' := by
  have hv := Body.valid_of_validate hvalid
  have hv' := Body.valid_of_validate hvalid'
  obtain ⟨n, hn⟩ := Int.eq_ofNat_of_zero_le hv.localCount_nonneg
  obtain ⟨table, htable⟩ := hv.exists_predecessorTable
  obtain ⟨table', htable'⟩ := hv'.exists_predecessorTable
  have hbegin : t.analysis.start body' = t.analysis.start body := by
    show t.start body' = t.start body
    simp only [Taint.start, h.name]
  rw [Analysis.solve_eq hvalid (bottom_eq hn) htable,
    Analysis.solve_eq hvalid' (bottom_eq (h.localCount.trans hn)) htable', hbegin]
  cases hstart : Run.onto (LocalSet.empty n) (t.analysis.start body).run s with
  | error f s' => exact .inl ⟨f, s', estate_bind_of_error hstart, estate_bind_of_error hstart⟩
  | ok start s₁ =>
    obtain ⟨⟨⟩, start⟩ := start
    have hsize : start.size = n := Effect.size_run (Run.onto_eq_ok.1 hstart)
    rw [estate_bind_of_ok hstart, estate_bind_of_ok hstart]
    have hiterate := iterate_congr h hmodel hv hv' hn hsize htable htable' limits s₁
    cases hp : (t.analysis.solver limits body start table).iterate
        (limits.bound body.size (body.blockIds.map body.degree).sum body.localCount)
        (limits.allowance body.size (body.blockIds.map body.degree).sum body.localCount)
        { waiting := [Body.entry] } s₁ with
    | error f s' =>
      exact .inl ⟨f, s', estate_bind_of_error hp, estate_bind_of_error (hiterate.trans hp)⟩
    | ok p s₂ =>
      exact .inr ⟨_, _, _, _, estate_bind_eq_ok.2 ⟨p, s₂, hp, rfl⟩,
        estate_bind_eq_ok.2 ⟨p, s₂, hiterate.trans hp, rfl⟩, rfl, rfl, rfl, rfl⟩

theorem stateIn_of_solve {r : Results (Memory η)} {s' : Session (Memory η)} {n : Nat} {bb : BlockId}
    (hr : t.analysis.solve limits body s = .ok r s') (hn : body.localCount = n)
    (hbb : body.hasBlock bb = true) (table : Table LocalSet) :
    Results.stateIn { r with analysis := t.quiet.analysis } table bb =
      .ok ((table.get? bb).getD (.empty n)) := by
  obtain ⟨_, _, _, _, _, _, hrun, rfl, _⟩ := Analysis.solved_of_solve hr
  obtain ⟨b, hb⟩ := hrun.valid.exists_block hbb
  exact Results.stateIn_eq (r := { r with analysis := t.quiet.analysis }) hbb hb (bottom_eq hn)
    table

end Taint

section

variable {η : Type} {body body' : Body} {seed : List Datum} {settings : Settings η}

/-- What cannot be reached has no influence. Two valid bodies with the same reachable blocks are
refused with the same fault, or both are analysed, in as many visits, with the same records and the
same states at the entry and exit of every block that both of them have. -/
theorem analyze_congr_reachable (hname : body'.name = body.name)
    (hcount : body'.localCount = body.localCount) (hvalid : body.validate = .ok ())
    (hvalid' : body'.validate = .ok ())
    (hsame : ∀ bb, body.Reachable bb → body'.block bb = body.block bb)
    (hmodel : settings.callModel = none) (seed : List Datum) (s : Session (Taint.Memory η)) :
    (∃ f s', analyze body seed settings s = .error f s' ∧
      analyze body' seed settings s = .error f s') ∨
    ∃ r r' s₁ s₁', analyze body seed settings s = .ok r s₁ ∧
      analyze body' seed settings s = .ok r' s₁' ∧ r.iterations = r'.iterations ∧
      r.unsupported = r'.unsupported ∧ r.visitedBlocks = r'.visitedBlocks ∧
      ∀ bb, body.hasBlock bb = true → body'.hasBlock bb = true →
        r.entrySet bb = r'.entrySet bb ∧ r.exitSet bb = r'.exitSet bb := by
  have hv := Body.valid_of_validate hvalid
  have hv' := Body.valid_of_validate hvalid'
  obtain ⟨n, hn⟩ := Int.eq_ofNat_of_zero_le hv.localCount_nonneg
  rcases Taint.solve_congr (t := ⟨seed, settings⟩) ⟨hname, hcount, fun {bb} => hsame bb⟩ hvalid
    hvalid' hmodel settings.toLimits { s with memory := { s.memory with audit := {} } } with
    ⟨f, s', hf, hf'⟩ | ⟨r, r', s₁, s₁', hr, hr', hagrees⟩
  · exact .inl ⟨f, s', analyze_eq_error.2 hf, analyze_eq_error.2 hf'⟩
  · refine .inr ⟨_, _, s₁, s₁', analyze_eq_ok.2 ⟨r, hr, rfl⟩, analyze_eq_ok.2 ⟨r', hr', rfl⟩,
      hagrees.iterations, hagrees.unsupported, congrArg Table.blocks hagrees.exits,
      fun bb hbb hbb' => ?_⟩
    have hstate := Taint.stateIn_of_solve hr hn hbb
    have hstate' := Taint.stateIn_of_solve hr' (hcount.trans hn) hbb'
    refine ⟨(hstate r.entries).trans ?_, (hstate r.exits).trans ?_⟩
    · rw [hagrees.entries]
      exact (hstate' r'.entries).symm
    · rw [hagrees.exits]
      exact (hstate' r'.exits).symm

def lane : Body :=
  ⟨2, [⟨[.assign (.int 1) (.use (.copy (.int 0)))], .goto 1⟩, ⟨[], .ret⟩], "lane"⟩

/-- The same body with a block that no edge leads to: it names locals that the body does not have,
and leads to a block that can be reached. -/
def laneWithSiding : Body :=
  { lane with blocks := lane.blocks ++ [⟨[.assign (.int 99) (.use (.copy (.int 7)))], .goto 1⟩] }

end

end

attribute [local instance] Machine.ample in
theorem analyze_congr_reachable_lane :
    ∃ r r' s₁ s₁', analyze (η := Unit) lane [.int 0] {} ⟨⟨{}, ()⟩, []⟩ = .ok r s₁ ∧
      analyze laneWithSiding [.int 0] {} ⟨⟨{}, ()⟩, []⟩ = .ok r' s₁' ∧ r.iterations = 2 ∧
      r.iterations = r'.iterations ∧ r.entrySet 1 = r'.entrySet 1 ∧ r.exitSet 1 = r'.exitSet 1 := by
  have hvalid : lane.validate = .ok () := rfl
  have hsame : ∀ bb, lane.Reachable bb → laneWithSiding.block bb = lane.block bb := by
    intro (bb : Int) hbb
    have hblock := (Body.valid_of_validate hvalid).hasBlock_of_reachable hbb
    obtain ⟨hnonneg, hlt⟩ := Body.hasBlock_iff.1 hblock
    have htwo : bb < 2 := hlt
    obtain rfl | rfl : bb = 0 ∨ bb = 1 := by omega
    · rfl
    · rfl
  obtain ⟨r, s₁, hr, htwo⟩ : ∃ r s₁,
      analyze (η := Unit) lane [.int 0] {} ⟨⟨{}, ()⟩, []⟩ = .ok r s₁ ∧ r.iterations = 2 :=
    ⟨_, _, by cbv, by cbv⟩
  have hcongr := @analyze_congr_reachable Machine.ample Unit lane laneWithSiding {} rfl rfl hvalid
    rfl hsame rfl [.int 0] ⟨⟨{}, ()⟩, []⟩
  rcases hcongr with
    ⟨f, s', hf, _⟩ | ⟨r₁, r', s₂, s₁', hr₁, hr', hiterations, _, _, hsets⟩
  · rw [hr] at hf
    cases hf
  · cases hr.symm.trans hr₁
    exact ⟨r, r', s₁, s₁', hr, hr', htwo, hiterations, hsets 1 rfl rfl⟩

end MayTaint
