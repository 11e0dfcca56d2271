import MayTaint.Proofs.Worklist

/-!
The tables of a run solve the equations of the analysis. The invariant of the search says that every
block that was visited and does not wait is consistent with the exit states found so far: a visit
that changes an exit state queues exactly the blocks whose equations mention it. No monotonicity is
needed, and no effect has to return; whatever returns leaves consistent tables.
-/

namespace MayTaint

section

variable [Machine] {σ : Type}

namespace Solver

structure Ready (v : Solver σ) : Prop where
  valid : v.body.Valid
  table : v.body.predecessorTable = .ok v.predecessors

variable {v : Solver σ} {bb b pred : BlockId} {rest : List BlockId} {entry exit : LocalSet}
  {p p' : Progress} {s s' : Session σ}

theorem Ready.joinIncoming_congr (hv : v.Ready) (hb : v.body.hasBlock b = true)
    {exits exits' : Table LocalSet}
    (h : ∀ pred, v.body.Edge pred b → exits.get? pred = exits'.get? pred) :
    v.joinIncoming exits b = v.joinIncoming exits' b := by
  obtain ⟨preds, hpreds, hmem⟩ := Body.exists_predecessorsIn hv.table hb
  have hflows : v.joinFlows exits b preds = v.joinFlows exits' b preds :=
    funext (joinFlows_congr fun pred hpred => h pred (hmem.1 hpred).2)
  rw [joinIncoming_eq hpreds, joinIncoming_eq hpreds, hflows]

omit [Machine] in
theorem base_eq {bottom : LocalSet} (h : v.analysis.bottom v.body = .ok bottom) (bb : BlockId) :
    v.base bb = .ok (if bb = Body.entry then v.start else bottom) := by
  unfold base
  split
  · rfl
  · exact h

/-! ### Which blocks are visited -/

/-- The search stays inside the reachable blocks and misses none: what it still has to visit
waits. -/
structure Explored (v : Solver σ) (p : Progress) : Prop where
  reachable_of_waiting : ∀ {bb}, bb ∈ p.waiting → v.body.Reachable bb
  reachable_of_visited : ∀ {bb}, (p.exits.get? bb).isSome = true → v.body.Reachable bb
  entry : Body.entry ∈ p.waiting ∨ (p.exits.get? Body.entry).isSome = true
  closed : ∀ {bb succ}, (p.exits.get? bb).isSome = true → v.body.Edge bb succ →
    succ ∈ p.waiting ∨ (p.exits.get? succ).isSome = true

omit [Machine] in
theorem explored_init (v : Solver σ) : v.Explored { waiting := [Body.entry] } where
  reachable_of_waiting h := List.mem_singleton.1 h ▸ .entry
  reachable_of_visited h := by cases h
  entry := .inl List.mem_cons_self
  closed h := by cases h

theorem Step.visited_iff (hs : v.Step bb rest entry exit p s p' s') :
    (p'.exits.get? b).isSome = true ↔ b = bb ∨ (p.exits.get? b).isSome = true := by
  rw [hs.exits]
  split
  · next hb => simp [hb]
  · next hb => simp [hb]

/-- A block that waits before a visit waits after it or is the one that was visited. -/
theorem Step.waiting_or_eq (hs : v.Step bb rest entry exit p s p' s') (hb : b ∈ p.waiting) :
    b ∈ p'.waiting ∨ b = bb := by
  rw [hs.waiting] at hb
  rcases List.mem_cons.1 hb with rfl | hb
  · exact .inr rfl
  · rcases hs.queued with ⟨_, hw⟩ | ⟨_, succs, _, hw⟩
    · exact .inl (hw ▸ hb)
    · exact .inl (hw ▸ mem_enqueue.2 (.inl hb))

/-- What was found before a visit, waiting or visited, is found after it. -/
theorem Step.found (hs : v.Step bb rest entry exit p s p' s')
    (hb : b ∈ p.waiting ∨ (p.exits.get? b).isSome = true) :
    b ∈ p'.waiting ∨ (p'.exits.get? b).isSome = true := by
  rcases hb with hb | hb
  · rcases hs.waiting_or_eq hb with hb | hb
    · exact .inl hb
    · exact .inr (hs.visited_iff.2 (.inl hb))
  · exact .inr (hs.visited_iff.2 (.inr hb))

/-- A block that starts to wait is a successor of the one that was visited. -/
theorem Step.edge_of_waiting (hs : v.Step bb rest entry exit p s p' s') (hb : b ∈ p'.waiting) :
    b ∈ rest ∨ v.body.Edge bb b := by
  rcases hs.queued with ⟨_, hw⟩ | ⟨_, succs, hsuccs, hw⟩
  · exact .inl (hw ▸ hb)
  · rcases mem_enqueue.1 (hw ▸ hb) with hb | hb
    · exact .inl hb
    · exact .inr ((Body.mem_successors hsuccs).1 hb)

/-- The exit states along the edges into a block change only if the block waits afterwards. -/
theorem Step.exits_eq_of_edge (hs : v.Step bb rest entry exit p s p' s') (hb : b ∉ p'.waiting)
    (he : v.body.Edge pred b) : p'.exits.get? pred = p.exits.get? pred := by
  rw [hs.exits]
  split
  · next hpred =>
    subst hpred
    rcases hs.queued with ⟨hsame, _⟩ | ⟨_, succs, hsuccs, hw⟩
    · exact hsame.symm
    · exact absurd (hw ▸ mem_enqueue.2 (.inr ((Body.mem_successors hsuccs).2 he))) hb
  · rfl

theorem Explored.step (hs : v.Step bb rest entry exit p s p' s') (hp : v.Explored p) :
    v.Explored p' := by
  have hbb : v.body.Reachable bb := hp.reachable_of_waiting (hs.waiting ▸ List.mem_cons_self)
  constructor
  · intro b hb
    rcases hs.edge_of_waiting hb with hb | hb
    · exact hp.reachable_of_waiting (hs.waiting ▸ List.mem_cons_of_mem bb hb)
    · exact hbb.step hb
  · intro b hb
    rcases hs.visited_iff.1 hb with rfl | hb
    · exact hbb
    · exact hp.reachable_of_visited hb
  · exact hs.found hp.entry
  · intro b succ hb he
    by_cases hbb : b = bb
    · subst hbb
      rcases hs.queued with ⟨hsame, _⟩ | ⟨_, succs, hsuccs, hw⟩
      · -- an exit state that is not new was found by a visit that queued the successors
        have hb : (p.exits.get? b).isSome = true := by rw [hsame]; rfl
        exact hs.found (hp.closed hb he)
      · exact .inl (hw ▸ mem_enqueue.2 (.inr ((Body.mem_successors hsuccs).2 he)))
    · exact hs.found (hp.closed ((hs.visited_iff.1 hb).resolve_left hbb) he)

omit [Machine] in
/-- When no block waits any more, exactly the reachable blocks have been visited. -/
theorem Explored.visited_iff_reachable (hp : v.Explored p) (hw : p.waiting = []) :
    (p.exits.get? bb).isSome = true ↔ v.body.Reachable bb := by
  have hnone : ∀ b, b ∉ p.waiting := by simp [hw]
  refine ⟨hp.reachable_of_visited, ?_⟩
  rintro ⟨path, hpath⟩
  induction hpath with
  | entry => exact hp.entry.resolve_left (hnone _)
  | step _ he ih => exact (hp.closed ih he).resolve_left (hnone _)

/-! ### The equations -/

/-- Every visited block has been replayed from its entry state to its exit state, and the entry
state of one that does not wait is what flows in. -/
structure Consistent (v : Solver σ) (p : Progress) : Prop where
  visited : ∀ {bb}, p.entries.get? bb = none ↔ p.exits.get? bb = none
  replayed : ∀ {bb entry exit}, p.entries.get? bb = some entry → p.exits.get? bb = some exit →
    Turns (v.analysis.replay v.body bb 0 none) entry exit
  joined : ∀ {bb entry}, p.entries.get? bb = some entry → bb ∉ p.waiting →
    Run.Yields (v.joinIncoming p.exits bb) entry

theorem Consistent.exists_exit (hp : v.Consistent p) (h : p.entries.get? bb = some entry) :
    ∃ exit, p.exits.get? bb = some exit := by
  rw [← Option.ne_none_iff_exists', ne_eq, ← hp.visited, h]
  exact Option.some_ne_none entry

theorem Consistent.exists_entry (hp : v.Consistent p) (h : p.exits.get? bb = some exit) :
    ∃ entry, p.entries.get? bb = some entry := by
  rw [← Option.ne_none_iff_exists', ne_eq, hp.visited, h]
  exact Option.some_ne_none exit

theorem consistent_init (v : Solver σ) : v.Consistent { waiting := [Body.entry] } where
  visited := ⟨fun _ => rfl, fun _ => rfl⟩
  replayed h := by cases h
  joined h := by cases h

theorem Consistent.step (hv : v.Ready) (ha : v.analysis.Stateless)
    (hs : v.Step bb rest entry exit p s p' s') (he : v.Explored p') (hp : v.Consistent p) :
    v.Consistent p' := by
  obtain ⟨s₁, s₂, hentry, hexit, _⟩ := hs.runs
  have hblock : ∀ {b}, (p'.exits.get? b).isSome = true → v.body.hasBlock b = true := fun hb =>
    hv.valid.hasBlock_of_reachable (he.reachable_of_visited hb)
  have hvisited : ∀ {b}, p'.entries.get? b = none ↔ p'.exits.get? b = none := by
    intro b
    rw [hs.entries, hs.exits]
    split
    · simp
    · exact hp.visited
  refine ⟨hvisited, ?_, ?_⟩
  · intro b e x hb hx
    rw [hs.entries] at hb
    rw [hs.exits] at hx
    split at hb
    · next hbb =>
      rw [if_pos hbb] at hx
      cases hb
      cases hx
      exact hbb ▸ (ha.replay bb 0 none).turns hexit
    · next hbb =>
      rw [if_neg hbb] at hx
      exact hp.replayed hb hx
  · intro b e hb hw
    -- what flows into a block that does not wait is what flowed into it before the visit
    have hb' : (p'.exits.get? b).isSome = true := by
      rw [Option.isSome_iff_ne_none]
      intro hnone
      rw [hvisited.2 hnone] at hb
      cases hb
    rw [hv.joinIncoming_congr (hblock hb') fun pred hpred => hs.exits_eq_of_edge hw hpred]
    rw [hs.entries] at hb
    split at hb
    · next hbb =>
      subst hbb
      cases hb
      obtain ⟨preds, hpreds, _⟩ := Body.exists_predecessorsIn hv.table (hblock hb')
      exact (joinIncoming_stateless ha hpreds).yields hentry
    · next hbb =>
      refine hp.joined hb fun hwait => ?_
      rcases hs.waiting_or_eq hwait with h | h
      · exact hw h
      · exact hbb h

/-- The tables of a run cover the reachable blocks and are consistent. -/
theorem Ready.tables (hv : v.Ready) (ha : v.analysis.Stateless) {limit : Datum} {allowed : Nat}
    (h : v.iterate limit allowed { waiting := [Body.entry] } s = .ok p s') :
    v.Explored p ∧ v.Consistent p ∧ p.waiting = [] := by
  obtain ⟨⟨hexplored, hconsistent⟩, hw⟩ := iterate_induct
    (fun p _ => v.Explored p ∧ v.Consistent p)
    (fun hs ⟨he, hc⟩ => ⟨he.step hs, hc.step hv ha hs (he.step hs)⟩) h
    ⟨explored_init v, consistent_init v⟩
  exact ⟨hexplored, hconsistent, hw⟩

/-- The entry state of a block that does not wait is the join of its base and of what flows in, and
everything that should flow in does. -/
theorem Consistent.isLUB_entry (hp : v.Consistent p) (hv : v.Ready) (ha : v.analysis.Stateless)
    (s : Session σ) {bottom : LocalSet} (hbottom : v.analysis.bottom v.body = .ok bottom)
    (hbb : v.body.hasBlock bb = true) (hentry : p.entries.get? bb = some entry)
    (hw : bb ∉ p.waiting) :
    ∃ preds, Body.predecessorsIn v.predecessors bb = .ok preds ∧
      (∀ {pred}, pred ∈ preds ↔ v.body.hasBlock pred = true ∧ v.body.Edge pred bb) ∧
      IsLUB (insert (if bb = Body.entry then v.start else bottom)
        (v.analysis.flows v.body p.exits preds bb)) entry ∧
      ∀ pred ∈ preds, ∀ exit, p.exits.get? pred = some exit →
        ∃ flow, Run.Yields (v.analysis.edgeState v.body pred bb exit) flow := by
  obtain ⟨preds, hpreds, hmem⟩ := Body.exists_predecessorsIn hv.table hbb
  obtain ⟨s', hjoined⟩ := hp.joined hentry hw s
  obtain ⟨base, hbase, hflows⟩ := (joinIncoming_eq_ok hpreds).1 hjoined
  cases (base_eq hbottom bb).symm.trans hbase
  exact ⟨preds, hpreds, hmem, isLUB_joinFlows ha hflows, fun pred hpred exit hexit =>
    exists_flow_of_joinFlows ha hflows hpred hexit⟩

end Solver

namespace Analysis

variable {a : Analysis σ} {limits : Limits} {body : Body} {s s' : Session σ} {r : Results σ}

theorem Solved.ready {bottom start : LocalSet} {s₁ s₂ : Session σ} {table : List (List BlockId)}
    {p : Progress} (h : a.Solved limits body s bottom start s₁ table p s₂) :
    (a.solver limits body start table).Ready :=
  ⟨h.valid, h.table_eq⟩

/-- No update is lost: the tables of a run have the same blocks, the entry state of each block is
the join of the start state or the least one with what flows along the edges from its predecessors,
and its exit state is what replaying the block makes of its entry state. -/
theorem solve_consistent (ha : a.Stateless) (h : a.solve limits body s = .ok r s') :
    ∃ bottom start s₁, a.bottom body = .ok bottom ∧
      (a.start body).run (bottom, s) = .ok () (start, s₁) ∧
      (∀ bb, r.entries.contains bb = r.exits.contains bb) ∧
      ∀ bb entry, r.entries.get? bb = some entry →
        ∃ exit preds, r.exits.get? bb = some exit ∧
          (Body.Indexed.predecessors ⟨body, none⟩ bb).1 = .ok preds ∧
          IsLUB (insert (if bb = Body.entry then start else bottom)
            (a.flows body r.exits preds bb)) entry ∧
          (∀ pred ∈ preds, ∀ x, r.exits.get? pred = some x →
            ∃ flow, Run.Yields (a.edgeState body pred bb x) flow) ∧
          Turns (a.replay body bb 0 none) entry exit := by
  obtain ⟨bottom, start, s₁, table, p, s₂, hrun, -, -, hentries, hexits, -, -⟩ := solved_of_solve h
  obtain ⟨limit, allowed, hiterate⟩ := hrun.iterate_eq
  obtain ⟨hexplored, hconsistent, hw⟩ := hrun.ready.tables ha hiterate
  refine ⟨bottom, start, s₁, hrun.bottom_eq, hrun.start_eq, fun bb => ?_, fun bb entry hentry => ?_⟩
  · rw [hentries, hexits, Bool.eq_iff_iff, Table.contains, Table.contains,
      Option.isSome_iff_ne_none, Option.isSome_iff_ne_none, ne_eq, hconsistent.visited]
  · rw [hentries] at hentry
    rw [hexits]
    obtain ⟨exit, hexit⟩ := hconsistent.exists_exit hentry
    have hreach : body.Reachable bb := hexplored.reachable_of_visited (by rw [hexit]; rfl)
    obtain ⟨preds, hpreds, _, hlub, hall⟩ := hconsistent.isLUB_entry hrun.ready ha s hrun.bottom_eq
      (hrun.valid.hasBlock_of_reachable hreach) hentry (by simp [hw])
    refine ⟨exit, preds, hexit, ?_, hlub, hall, hconsistent.replayed hentry hexit⟩
    rw [Body.Indexed.predecessors, hrun.table_eq]
    exact hpreds

/-- An analysis that is not monotone: statements taint local 1 only if local 0 is clean, and
terminators taint local 0. -/
def wavering : Analysis Unit where
  name := "Wavering"
  bottom body := LocalSet.bottom body.localCount
  start _ := Effect.skip
  statement _ _ := .ask (.int 0) fun b => Effect.setTaint (!b) (.int 1)
  terminator _ _ := Effect.taint (.int 0)
  callReturn _ _ _ := Effect.skip
  unsupported _ := []

theorem wavering_stateless : wavering.Stateless where
  statement _ _ := Effect.Plain.stateless fun b => by cases b <;> exact trivial
  terminator _ _ := Effect.Plain.stateless trivial
  callReturn _ _ _ := Effect.Plain.stateless trivial

def roundabout : Body :=
  ⟨2, [⟨[.nop], .switchInt (.copy (.int 0)) [(.int 0, 0)] 1⟩, ⟨[], .ret⟩], "roundabout"⟩

end Analysis

end

namespace Analysis

attribute [local instance] Machine.ample

/-- With the growth of exit states unchecked, the analysis settles on a block that leads back to
itself, although the exit state of the block shrinks on the way. -/
theorem solve_consistent_wavering :
    ∃ r s', wavering.solve { checkMonotonicity := .bool false } roundabout ⟨(), []⟩ = .ok r s' ∧
      (∀ bb, r.entries.contains bb = r.exits.contains bb) ∧
      ∀ bb entry, r.entries.get? bb = some entry → ∃ exit, r.exits.get? bb = some exit ∧
        Turns (wavering.replay roundabout bb 0 none) entry exit := by
  obtain ⟨r, s', h⟩ : ∃ r s', wavering.solve { checkMonotonicity := .bool false } roundabout
      ⟨(), []⟩ = .ok r s' := ⟨_, _, by cbv⟩
  obtain ⟨_, _, _, _, _, hkeys, hblocks⟩ := solve_consistent wavering_stateless h
  refine ⟨r, s', h, hkeys, fun bb entry hentry => ?_⟩
  obtain ⟨exit, _, hexit, _, _, _, hturns⟩ := hblocks bb entry hentry
  exact ⟨exit, hexit, hturns⟩

end Analysis

end MayTaint
