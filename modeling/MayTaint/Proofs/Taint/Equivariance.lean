import MayTaint.Proofs.Renaming
import MayTaint.Proofs.Taint.Outcomes
import MayTaint.Proofs.Taint.Paths
import MayTaint.Proofs.Unreachable

/-!
The analysis does not depend on the names of locals and blocks. The run over a renamed body is
compared with the run over the body, visit by visit: the queues hold the same blocks under their old
and new names, and the states at a block are images of each other. That the predecessors of a block
come in another order does not matter, since joining is a union of members; and since images under a
permutation are equal only if the sets are, a state is new in one run exactly if it is in the other.

The names matter in one place. A local whose bit does not fit the memory cannot be set or cleared,
so that one of the two runs may come to such a local where the other does not.
-/

namespace MayTaint

/-! ### Instructions -/

section

variable {f : Datum → Datum} {g : BlockId → BlockId}

theorem Operand.locals_rename (o : Operand) : (o.rename f).locals = o.locals.map f := by
  cases o <;> rfl

theorem Rvalue.sources?_rename (rvalue : Rvalue) :
    (rvalue.rename f).sources? = rvalue.sources?.map (List.map f) := by
  cases rvalue with
  | use operand => simp [Rvalue.rename, sources?, Operand.locals_rename]
  | binary op lhs rhs => simp [Rvalue.rename, sources?, Operand.locals_rename]
  | unary op operand => cases operand <;> rfl
  | _ => rfl

namespace Instruction

theorem flow?_rename (i : Instruction) :
    (i.rename f g).flow? = i.flow?.map (Prod.map f (List.map f)) := by
  obtain (s | t) := i
  · cases s with
    | assign target rvalue =>
      simp [rename, Statement.rename, flow?, Rvalue.sources?_rename, Function.comp_def]
    | _ => rfl
  · rfl

/-- Renamed instructions do to the new names what the instructions do to the old ones. -/
theorem carry_rename (hf : Function.Injective f) (T : Set Datum) (i : Instruction) :
    carry (f '' T) (i.rename f g) = f '' carry T i := by
  cases hflow : i.flow? with
  | none =>
    have hnone : (i.rename f g).flow? = none := by rw [flow?_rename, hflow, Option.map_none]
    rw [carry_of_none hflow, carry_of_none hnone]
  | some x =>
    obtain ⟨target, sources⟩ := x
    have hsome : (i.rename f g).flow? = some (f target, sources.map f) := by
      rw [flow?_rename, hflow, Option.map_some, Prod.map_apply]
    ext d
    rw [carry_of_flow hsome, Set.mem_image]
    constructor
    · rintro (⟨rfl, _, hx', hT⟩ | ⟨hne, x, hT, rfl⟩)
      · obtain ⟨x, hx, rfl⟩ := List.mem_map.1 hx'
        exact ⟨target, (carry_of_flow hflow).2 (.inl ⟨rfl, x, hx, hf.mem_set_image.1 hT⟩), rfl⟩
      · exact ⟨x, (carry_of_flow hflow).2 (.inr ⟨fun h => hne (congrArg f h), hT⟩), rfl⟩
    · rintro ⟨d, hd, rfl⟩
      rcases (carry_of_flow hflow).1 hd with ⟨rfl, x, hx, hT⟩ | ⟨hne, hT⟩
      · exact .inl ⟨rfl, f x, List.mem_map_of_mem hx, Set.mem_image_of_mem f hT⟩
      · exact .inr ⟨hf.ne hne, Set.mem_image_of_mem f hT⟩

theorem foldl_carry_rename (hf : Function.Injective f) (T : Set Datum) (is : List Instruction) :
    (is.map (·.rename f g)).foldl carry (f '' T) = f '' is.foldl carry T := by
  induction is generalizing T with
  | nil => rfl
  | cons i is ih => rw [List.map_cons, List.foldl_cons, List.foldl_cons, carry_rename hf, ih]

end Instruction

end

/-! ### States -/

namespace Body.Renaming

variable {body : Body} {ρ : body.Renaming} {S S' T T' : LocalSet}

structure Image (ρ : body.Renaming) (S S' : LocalSet) : Prop where
  size : S'.size = S.size
  members : S'.members = ρ.datum '' S.members

/-- Nothing is lost by renaming the members of a set. -/
theorem Image.eq_iff (hS : ρ.Image S S') (hT : ρ.Image T T') : S' = T' ↔ S = T := by
  constructor
  · rintro rfl
    refine LocalSet.eq_of_members (hS.size.symm.trans hT.size) ?_
    exact ρ.datum_injective.image_injective (hS.members.symm.trans hT.members)
  · rintro rfl
    exact LocalSet.eq_of_members (hS.size.trans hT.size.symm) (hS.members.trans hT.members.symm)

theorem Image.getD {x y : Option LocalSet} (h : Option.Rel ρ.Image x y) (hS : ρ.Image S S') :
    ρ.Image (x.getD S) (y.getD S') := by
  cases h with
  | some h => exact h
  | none => exact hS

theorem Image.eq_some_iff {x y : Option LocalSet} (h : Option.Rel ρ.Image x y)
    (hS : ρ.Image S S') : y = some S' ↔ x = some S := by
  cases h with
  | some h => rw [Option.some_inj, Option.some_inj, h.eq_iff hS]
  | none => simp

/-- Setting images at a block and at its new name keeps images everywhere. -/
theorem Image.update (hS : ρ.Image S S') {x y : BlockId → Option LocalSet}
    (h : ∀ b, Option.Rel ρ.Image (x b) (y (ρ.blocks b))) (bb b : BlockId) :
    Option.Rel ρ.Image (if b = bb then some S else x b)
      (if ρ.blocks b = ρ.blocks bb then some S' else y (ρ.blocks b)) := by
  by_cases hb : b = bb
  · rw [if_pos hb, if_pos (congrArg ρ.blocks hb)]
    exact .some hS
  · rw [if_neg hb, if_neg (ρ.blocks.injective.ne hb)]
    exact h b

/-- Two stages of the search: the same blocks wait, under their old and new names, and the states
found so far are images of each other. -/
structure Mirrors (ρ : body.Renaming) (p p' : Progress) : Prop where
  waiting : p'.waiting = p.waiting.map ρ.blocks
  entries : ∀ bb, Option.Rel ρ.Image (p.entries.get? bb) (p'.entries.get? (ρ.blocks bb))
  exits : ∀ bb, Option.Rel ρ.Image (p.exits.get? bb) (p'.exits.get? (ρ.blocks bb))
  iterations : p'.iterations = p.iterations

theorem mirrors_init (ρ : body.Renaming) :
    ρ.Mirrors { waiting := [Body.entry] } { waiting := [Body.entry] } where
  waiting := congrArg (fun bb => [bb]) ρ.blocks_entry.symm
  entries _ := .none
  exits _ := .none
  iterations := rfl

end Body.Renaming

theorem enqueue_map {g : BlockId → BlockId} (hg : Function.Injective g)
    (waiting succs : List BlockId) :
    enqueue (waiting.map g) (succs.map g) = (enqueue waiting succs).map g :=
  foldl_fresh_map hg waiting succs

/-- As long as a block waits, a run that returns goes on with a visit. -/
theorem Solver.exists_visit_of_iterate [Machine] {σ : Type} {v : Solver σ} {limit : Datum}
    {allowed : Nat} {bb : BlockId} {rest : List BlockId} {p q : Progress} {s s' : Session σ}
    (hw : p.waiting = bb :: rest) (h : v.iterate limit allowed p s = .ok q s') :
    ∃ fewer p₁ s₁, allowed = fewer + 1 ∧ v.visit bb { p with waiting := rest } s = .ok p₁ s₁ ∧
      v.iterate limit fewer p₁ s₁ = .ok q s' := by
  cases allowed with
  | zero =>
    rw [iterate_zero_of_cons hw] at h
    cases h
  | succ fewer =>
    rw [iterate_succ_of_cons hw] at h
    obtain ⟨p₁, s₁, hvisit, hrest⟩ := estate_bind_eq_ok.1 h
    exact ⟨fewer, p₁, s₁, rfl, hvisit, hrest⟩

/-! ### One run -/

namespace Taint

variable [Machine] {η : Type} {v : Solver (Memory η)} {n : Nat} {bb : BlockId} {rest : List BlockId}
  {entry exit : LocalSet} {p p' : Progress} {s s' : Session (Memory η)}

structure Solves (v : Solver (Memory η)) (n : Nat) : Prop where
  analysis : ∃ t : Taint η, t.Lenient ∧ v.analysis = t.analysis
  wellFormed : v.body.WellFormed
  localCount : v.body.localCount = n
  table : v.body.predecessorTable = .ok v.predecessors
  start : v.start.size = n

theorem mem_members_of_joinFlows {t : Taint η} (ht : t.Lenient) (ha : v.analysis = t.analysis)
    {exits : Table LocalSet} {preds : List BlockId} {state : LocalSet}
    (hblocks : ∀ pred ∈ preds, ∃ b, v.body.block pred = .ok b)
    (h : v.joinFlows exits bb preds state s = .ok entry s') {d : Datum} :
    d ∈ entry.members ↔ d ∈ state.members ∨
      ∃ pred ∈ preds, ∃ exit, exits.get? pred = some exit ∧ d ∈ exit.members := by
  induction preds generalizing state s with
  | nil =>
    cases h
    simp
  | cons pred preds ih =>
    obtain ⟨b, hb⟩ := hblocks pred List.mem_cons_self
    have hrest := fun p hp => hblocks p (List.mem_cons_of_mem pred hp)
    cases hexit : exits.get? pred with
    | none =>
      rw [Solver.joinFlows_cons_none hexit] at h
      rw [ih hrest h]
      simp [hexit]
    | some exit =>
      rw [Solver.joinFlows_cons_some hexit, ha] at h
      obtain ⟨flow, s₁, hflow, h⟩ := estate_bind_eq_ok.1 h
      obtain ⟨joined, s₂, hjoin, h⟩ := estate_bind_eq_ok.1 h
      have hsame : exit = flow := eq_of_edgeState ht hb hflow
      rw [ih hrest h, LocalSet.members_join (Run.ofExcept_eq_ok.1 hjoin).1, Set.mem_union, ← hsame]
      simp [hexit, or_assoc]

namespace Solves

variable (hv : Solves v n)

include hv

theorem ready : v.Ready :=
  ⟨Body.valid_of_validate hv.wellFormed.validate, hv.table⟩

/-- A visit starts with the seed, if at the entry, and with whatever flows in. -/
theorem entry_of_step (hbb : v.body.hasBlock bb = true)
    (hs : v.Step bb rest entry exit p s p' s') :
    entry.size = n ∧ ∀ d, d ∈ entry.members ↔ (bb = Body.entry ∧ d ∈ v.start.members) ∨
      ∃ pred exit, v.body.hasBlock pred = true ∧ v.body.Edge pred bb ∧
        p.exits.get? pred = some exit ∧ d ∈ exit.members := by
  obtain ⟨t, ht, ha⟩ := hv.analysis
  obtain ⟨s₁, s₂, hjoin, -⟩ := hs.runs
  obtain ⟨preds, hpreds, hmem⟩ := Body.exists_predecessorsIn hv.table hbb
  obtain ⟨base, hbase, hflows⟩ := (Solver.joinIncoming_eq_ok hpreds).1 hjoin
  have hbottom : v.analysis.bottom v.body = .ok (.empty n) := by
    rw [ha]
    exact bottom_eq hv.localCount
  cases (Solver.base_eq hbottom bb).symm.trans hbase
  constructor
  · rw [Solver.size_joinFlows hflows]
    split
    · exact hv.start
    · rfl
  · intro d
    rw [mem_members_of_joinFlows ht ha
      (fun pred hpred => hv.ready.valid.exists_block (hmem.1 hpred).1) hflows]
    refine or_congr ?_ ?_
    · by_cases hentry : bb = Body.entry
      · simp [hentry]
      · simp [hentry]
    · simp only [hmem, and_assoc, exists_and_left]

/-- A visit ends with what the instructions of the block make of it. -/
theorem exit_of_step (hbb : v.body.hasBlock bb = true)
    (hs : v.Step bb rest entry exit p s p' s') :
    exit.size = entry.size ∧
      exit.members = (v.body.instructionsOf bb).foldl Instruction.carry entry.members := by
  obtain ⟨t, ht, ha⟩ := hv.analysis
  obtain ⟨s₁, s₂, -, hreplay, -⟩ := hs.runs
  rw [ha] at hreplay
  refine ⟨Analysis.size_replay hreplay, ?_⟩
  obtain ⟨hstateless, _⟩ := ht.stateless_monotone
  exact members_of_replay hv.wellFormed hbb ((hstateless.replay bb 0 none).turns hreplay) s

end Solves

/-! ### Two runs -/

section

variable {v v' : Solver (Memory η)} {ρ : v.body.Renaming} {entry' exit' : LocalSet}
  {rest' : List BlockId} {p p' q q' : Progress} {s₁ s₁' : Session (Memory η)}
  (hv : Solves v n) (hv' : Solves v' n) (hbody : v'.body = v.body.rename ρ)
  (hstart : ρ.Image v.start v'.start)

include hv hv' hbody hstart

theorem image_entry_of_steps (h : ρ.Mirrors p p') (hbb : v.body.hasBlock bb = true)
    (hbb' : v'.body.hasBlock (ρ.blocks bb) = true) (hs : v.Step bb rest entry exit p s q s₁)
    (hs' : v'.Step (ρ.blocks bb) rest' entry' exit' p' s' q' s₁') : ρ.Image entry entry' := by
  have hvalid := hv.ready.valid
  obtain ⟨hsize, hentry⟩ := hv.entry_of_step hbb hs
  obtain ⟨hsize', hentry'⟩ := hv'.entry_of_step hbb' hs'
  refine ⟨hsize'.trans hsize.symm, ?_⟩
  ext d
  rw [hentry', ρ.blocks_eq_entry, hstart.members]
  constructor
  · rintro (⟨rfl, x, hx, rfl⟩ | ⟨pred, exit₁', hpred, he, hget', hd⟩)
    · exact ⟨x, (hentry x).2 (.inl ⟨rfl, hx⟩), rfl⟩
    · obtain ⟨pred, rfl⟩ := ρ.blocks.surjective pred
      rw [hbody, Body.hasBlock_rename_blocks] at hpred
      rw [hbody, hvalid.edge_rename ρ hpred] at he
      have hrel := h.exits pred
      rw [hget'] at hrel
      generalize hget : p.exits.get? pred = x at hrel
      obtain ⟨himage⟩ := hrel
      rw [himage.members] at hd
      obtain ⟨x, hx, rfl⟩ := hd
      exact ⟨x, (hentry x).2 (.inr ⟨pred, _, hpred, he, hget, hx⟩), rfl⟩
  · rintro ⟨x, hx, rfl⟩
    rcases (hentry x).1 hx with ⟨rfl, hx⟩ | ⟨pred, exit₁, hpred, he, hget, hx⟩
    · exact .inl ⟨rfl, Set.mem_image_of_mem ρ.datum hx⟩
    · have hrel := h.exits pred
      rw [hget] at hrel
      generalize hget' : p'.exits.get? (ρ.blocks pred) = y at hrel
      obtain ⟨himage⟩ := hrel
      refine .inr ⟨ρ.blocks pred, _, ?_, ?_, hget', ?_⟩
      · rw [hbody, Body.hasBlock_rename_blocks, hpred]
      · rw [hbody, hvalid.edge_rename ρ hpred]
        exact he
      · rw [himage.members]
        exact Set.mem_image_of_mem ρ.datum hx

theorem image_of_steps (h : ρ.Mirrors p p') (hbb : v.body.hasBlock bb = true)
    (hs : v.Step bb rest entry exit p s q s₁)
    (hs' : v'.Step (ρ.blocks bb) rest' entry' exit' p' s' q' s₁') :
    ρ.Image entry entry' ∧ ρ.Image exit exit' := by
  have hbb' : v'.body.hasBlock (ρ.blocks bb) = true := by
    rw [hbody, Body.hasBlock_rename_blocks, hbb]
  have hentry := image_entry_of_steps hv hv' hbody hstart h hbb hbb' hs hs'
  obtain ⟨hsize, hexit⟩ := hv.exit_of_step hbb hs
  obtain ⟨hsize', hexit'⟩ := hv'.exit_of_step hbb' hs'
  refine ⟨hentry, by rw [hsize', hsize, hentry.size], ?_⟩
  rw [hexit', hexit, hbody, hv.ready.valid.instructionsOf_rename ρ hbb, hentry.members,
    Instruction.foldl_carry_rename ρ.datum_injective]

/-- A visit of a block and the visit of its counterpart lead to stages that mirror each other. -/
theorem mirrors_of_steps (h : ρ.Mirrors p p') (hbb : v.body.hasBlock bb = true)
    (hs : v.Step bb rest entry exit p s q s₁)
    (hs' : v'.Step (ρ.blocks bb) rest' entry' exit' p' s' q' s₁') : ρ.Mirrors q q' := by
  obtain ⟨hentry, hexit⟩ := image_of_steps hv hv' hbody hstart h hbb hs hs'
  have hrest : rest' = rest.map ρ.blocks := by
    have hwaiting := h.waiting
    rw [hs.waiting, hs'.waiting, List.map_cons] at hwaiting
    exact (List.cons.inj hwaiting).2
  have hsame := Body.Renaming.Image.eq_some_iff (h.exits bb) hexit
  refine ⟨?_, fun b => ?_, fun b => ?_, by rw [hs.iterations, hs'.iterations, h.iterations]⟩
  · -- the exit state is new in both runs or in none
    rcases hs.queued with ⟨hold, hw⟩ | ⟨hnew, succs, hsuccs, hw⟩
    · rcases hs'.queued with ⟨_, hw'⟩ | ⟨hnew', _⟩
      · rw [hw', hw, hrest]
      · exact absurd (hsame.2 hold) hnew'
    · rcases hs'.queued with ⟨hold', _⟩ | ⟨_, succs', hsuccs', hw'⟩
      · exact absurd (hsame.1 hold') hnew
      · rw [hbody, Body.successors_rename ρ hbb hsuccs] at hsuccs'
        cases hsuccs'
        rw [hw', hw, hrest, enqueue_map ρ.blocks.injective]
  · rw [hs.entries, hs'.entries]
    exact hentry.update h.entries bb b
  · rw [hs.exits, hs'.exits]
    exact hexit.update h.exits bb b

/-- Two runs that start from stages that mirror each other end in such stages, if they return. -/
theorem mirrors_of_iterate {limit limit' : Datum} {allowed allowed' : Nat} (hp : v.Explored p)
    (h : ρ.Mirrors p p') (hq : v.iterate limit allowed p s = .ok q s₁)
    (hq' : v'.iterate limit' allowed' p' s' = .ok q' s₁') : ρ.Mirrors q q' := by
  induction allowed using Nat.strong_induction_on generalizing allowed' p p' s s' with
  | _ allowed ih =>
    cases hw : p.waiting with
    | nil =>
      have hw' : p'.waiting = [] := by rw [h.waiting, hw, List.map_nil]
      rw [Solver.iterate_of_nil hw] at hq
      rw [Solver.iterate_of_nil hw'] at hq'
      cases hq
      cases hq'
      exact h
    | cons bb rest =>
      have hw' : p'.waiting = ρ.blocks bb :: rest.map ρ.blocks := by
        rw [h.waiting, hw, List.map_cons]
      obtain ⟨fewer, p₁, t, rfl, hvisit, hrest⟩ := Solver.exists_visit_of_iterate hw hq
      obtain ⟨_, p₁', t', _, hvisit', hrest'⟩ := Solver.exists_visit_of_iterate hw' hq'
      obtain ⟨entry, exit, hs⟩ := Solver.step_of_visit hw hvisit
      obtain ⟨entry', exit', hs'⟩ := Solver.step_of_visit hw' hvisit'
      have hbb : v.body.hasBlock bb = true := hv.ready.valid.hasBlock_of_reachable
        (hp.reachable_of_waiting (hw ▸ List.mem_cons_self))
      exact ih fewer (Nat.lt_succ_self fewer) (hp.step hs)
        (mirrors_of_steps hv hv' hbody hstart h hbb hs hs') hrest hrest'

end

theorem solves_of_solved {t : Taint η} (ht : t.Lenient) {limits : Limits} {body : Body}
    (hbody : body.WellFormed) (hn : body.localCount = n) {bottom start : LocalSet}
    {s₁ s₂ : Session (Memory η)} {table : List (List BlockId)}
    (h : t.analysis.Solved limits body s bottom start s₁ table p s₂) :
    Solves (t.analysis.solver limits body start table) n ∧
      start.members = {d | d ∈ t.seed} := by
  have hbottom := h.bottom_eq
  rw [bottom_eq hn] at hbottom
  cases hbottom
  exact ⟨⟨⟨t, ht, rfl⟩, hbody, hn, h.table_eq, Effect.size_run h.start_eq⟩,
    members_of_start h.start_eq (LocalSet.members_empty n)⟩

/-- The runs over a body and over the renamed body, if they return, make as many visits and find
images of the same states. -/
theorem mirrors_of_solve {t t' : Taint η} (ht : t.Lenient) (ht' : t'.Lenient) {body : Body}
    (hbody : body.WellFormed) (ρ : body.Renaming) (hseed : t'.seed = t.seed.map ρ.datum)
    {limits limits' : Limits} {r r' : Results (Memory η)} {s₁ s₁' : Session (Memory η)}
    (hr : t.analysis.solve limits body s = .ok r s₁)
    (hr' : t'.analysis.solve limits' (body.rename ρ) s' = .ok r' s₁') :
    r'.iterations = r.iterations ∧
      (∀ bb, Option.Rel ρ.Image (r.entries.get? bb) (r'.entries.get? (ρ.blocks bb))) ∧
      ∀ bb, Option.Rel ρ.Image (r.exits.get? bb) (r'.exits.get? (ρ.blocks bb)) := by
  obtain ⟨n, hn⟩ :=
    Int.eq_ofNat_of_zero_le (Body.valid_of_validate hbody.validate).localCount_nonneg
  obtain ⟨_, start, _, table, p, _, hrun, -, -, hentries, hexits, -, hiterations, -⟩ :=
    Analysis.solved_of_solve hr
  obtain ⟨_, start', _, table', p', _, hrun', -, -, hentries', hexits', -, hiterations', -⟩ :=
    Analysis.solved_of_solve hr'
  obtain ⟨hv, hmembers⟩ := solves_of_solved ht hbody hn hrun
  obtain ⟨hv', hmembers'⟩ := solves_of_solved ht' (hbody.rename ρ) hn hrun'
  have hstart : ρ.Image start start' := by
    refine ⟨hv'.start.trans hv.start.symm, ?_⟩
    rw [hmembers, hmembers', hseed]
    ext d
    exact List.mem_map
  obtain ⟨_, _, hp⟩ := hrun.iterate_eq
  obtain ⟨_, _, hp'⟩ := hrun'.iterate_eq
  have h : ρ.Mirrors p p' := mirrors_of_iterate hv hv' rfl hstart (Solver.explored_init _)
    ρ.mirrors_init hp hp'
  rw [hentries, hentries', hexits, hexits', hiterations, hiterations']
  exact ⟨h.iterations, h.entries, h.exits⟩

end Taint

section

variable [Machine] {η : Type} {body : Body} {seed : List Datum}

/-- The analysis of a well-formed body commutes with renaming. With and without renaming it returns
exactly if it is feasible, which depends on the names; and wherever both return, it takes as many
visits, and the states at the new names of the blocks are the images of the states at the old
ones. -/
theorem analyze_rename (hbody : body.WellFormed)
    (hseed : ∀ d ∈ seed, d.isLocal body.localCount = true) (ρ : body.Renaming)
    (s s' : Session (Taint.Memory η)) :
    ((∃ r s₁, analyze body seed {} s = .ok r s₁) ↔ body.Feasible seed) ∧
    ((∃ r s₁, analyze (body.rename ρ) (seed.map ρ.datum) {} s' = .ok r s₁) ↔
      (body.rename ρ).Feasible (seed.map ρ.datum)) ∧
    ∀ r s₁ r' s₁', analyze body seed {} s = .ok r s₁ →
      analyze (body.rename ρ) (seed.map ρ.datum) {} s' = .ok r' s₁' →
      r'.iterations = r.iterations ∧ ∀ bb, body.hasBlock bb = true →
        (∃ E E', r.entrySet bb = .ok E ∧ r'.entrySet (ρ.blocks bb) = .ok E' ∧ ρ.Image E E') ∧
        ∃ X X', r.exitSet bb = .ok X ∧ r'.exitSet (ρ.blocks bb) = .ok X' ∧ ρ.Image X X' := by
  have hv := Body.valid_of_validate hbody.validate
  obtain ⟨n, hn⟩ := Int.eq_ofNat_of_zero_le hv.localCount_nonneg
  refine ⟨analyze_returns_iff hbody hseed Taint.lenient_default rfl s, ?_, ?_⟩
  · have hseed' : ∀ d ∈ seed.map ρ.datum, d.isLocal (body.rename ρ).localCount = true := by
      intro d hd
      obtain ⟨x, hx, rfl⟩ := List.mem_map.1 hd
      exact (ρ.isLocal_datum x).trans (hseed x hx)
    exact analyze_returns_iff (hbody.rename ρ) hseed' Taint.lenient_default rfl s'
  · intro r s₁ r' s₁' h h'
    obtain ⟨r, hr, rfl⟩ := analyze_eq_ok.1 h
    obtain ⟨r', hr', rfl⟩ := analyze_eq_ok.1 h'
    obtain ⟨hiterations, hentries, hexits⟩ := Taint.mirrors_of_solve Taint.lenient_default
      Taint.lenient_default hbody ρ rfl hr hr'
    have hempty : ρ.Image (.empty n) (.empty n) := ⟨rfl, by simp⟩
    refine ⟨hiterations, fun bb hbb => ?_⟩
    have hstate := Taint.stateIn_of_solve hr hn hbb
    have hstate' := Taint.stateIn_of_solve hr' hn ((Body.hasBlock_rename_blocks ρ bb).trans hbb)
    exact ⟨⟨_, _, hstate r.entries, hstate' r'.entries, .getD (hentries bb) hempty⟩,
      ⟨_, _, hstate r.exits, hstate' r'.exits, .getD (hexits bb) hempty⟩⟩

def relayExchange : relay.Renaming :=
  .swap relay 0 2 1 2 (by decide) (by decide) (by decide) (by decide)

end

attribute [local instance] Machine.ample in
theorem analyze_rename_relay :
    ∃ r s₁ r' s₁', analyze relay [.int 0] {} ⟨⟨{}, ()⟩, []⟩ = .ok r s₁ ∧
      analyze (relay.rename relayExchange) [.int 2] {} ⟨⟨{}, ()⟩, []⟩ = .ok r' s₁' ∧
      r'.iterations = r.iterations ∧
      ∃ E E', r.entrySet 1 = .ok E ∧ r'.entrySet 2 = .ok E' ∧ relayExchange.Image E E' := by
  have hbody : relay.WellFormed := ⟨by cbv, by decide⟩
  have hseed : ∀ d ∈ [Datum.int 0], d.isLocal relay.localCount = true := by decide
  obtain ⟨r, s₁, h⟩ : ∃ r s₁, analyze relay [.int 0] {} ⟨⟨{}, ()⟩, []⟩ = .ok r s₁ :=
    ⟨_, _, by cbv⟩
  obtain ⟨r', s₁', h'⟩ : ∃ r' s₁', analyze (relay.rename relayExchange) [.int 2] {}
      ⟨⟨{}, ()⟩, []⟩ = .ok r' s₁' := ⟨_, _, by cbv⟩
  obtain ⟨hiterations, hsets⟩ := (analyze_rename hbody hseed relayExchange ⟨⟨{}, ()⟩, []⟩
    ⟨⟨{}, ()⟩, []⟩).2.2 r s₁ r' s₁' h h'
  exact ⟨r, s₁, r', s₁', h, h', hiterations, (hsets 1 (by decide)).1⟩

def nearby : Body :=
  ⟨2361183241434822606848, [⟨[.assign (.int 0) (.use (.copy (.int 1)))], .ret⟩], "<body>"⟩

def nearbyOutward : nearby.Renaming :=
  .swap nearby 0 1180591620717411303424 1 1 (by decide) rfl (by decide) (by decide)

/-- A body may be analysed under some names of its locals and not under others. -/
theorem analyze_fails_renamed :
    nearby.WellFormed ∧ (∀ d ∈ [Datum.int 1], d.isLocal nearby.localCount = true) ∧
      ∀ [Machine], (Machine.sets 0 = true → Machine.sets 1 = true →
          ∃ r s', analyze nearby [.int 1] {} ⟨⟨{}, ()⟩, []⟩ = .ok r s') ∧
        ∃ f s', analyze (nearby.rename nearbyOutward) ([Datum.int 1].map nearbyOutward.datum) {}
          ⟨⟨{}, ()⟩, []⟩ = .error f s' := by
  have hbody : nearby.WellFormed := ⟨by cbv, by decide⟩
  have hvalid := Body.valid_of_validate hbody.validate
  have hseed : ∀ d ∈ [Datum.int 1], d.isLocal nearby.localCount = true := by decide
  refine ⟨hbody, hseed, ?_⟩
  intro _
  refine ⟨fun hzero hone => ?_, ?_⟩
  · refine (analyze_returns_iff hbody hseed Taint.lenient_default rfl _).2 ⟨fun j hj => ?_, ?_⟩
    · rcases hvalid.cases_of_changed hj with hj | ⟨b, hb, i, hi, sources, hflow⟩
      · obtain rfl : j = 1 := Int.ofNat_inj.1 (Datum.int.inj (List.mem_singleton.1 hj))
        exact hone
      · cases List.mem_singleton.1 hb
        rcases List.mem_pair.1 hi with rfl | rfl
        · obtain rfl : 0 = j :=
            Int.ofNat_inj.1 (Datum.int.inj (Prod.mk.inj (Option.some.inj hflow)).1)
          exact hzero
        · cases hflow
    · intro text htext
      obtain ⟨b, hb, ⟨i, hi, rvalue, hr, _⟩ | ⟨c, hc, _⟩⟩ := hvalid.cases_of_reported htext
      · cases List.mem_singleton.1 hb
        rcases List.mem_pair.1 hi with rfl | rfl <;> cases hr
      · cases List.mem_singleton.1 hb
        cases hc
  · have hchanged : .int ((1180591620717411303424 : Nat) : Int) ∈
        (nearby.rename nearbyOutward).changed ([Datum.int 1].map nearbyOutward.datum) :=
      .inr ⟨0, .entry, _, List.mem_cons_self, [.int 1], rfl⟩
    exact exists_error_of_unset (hbody.rename nearbyOutward).isTyped rfl hchanged
      (Machine.sets_of_not_addresses (by decide)) _

end MayTaint
