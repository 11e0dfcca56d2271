import MayTaint.Proofs.Cursor
import MayTaint.Proofs.Taint.Outcomes

/-!
The analysis is exact against all paths. For one walk through the graph the tainted locals are found
by carrying the seed through the instructions on the way, one after the other and without any join.
The analysis joins at every block and goes round loops until nothing changes, and yet answers that a
local may be tainted at a location exactly if some walk leaves it tainted there.

That every walk is covered holds of every post-fixed point, by induction on the walk. That nothing
else is found holds because the locals tainted along some walk are a post-fixed point themselves,
above which the least one cannot be; this is where carrying has to distribute over unions.
-/

namespace MayTaint

namespace Body

variable {body : Body} {seed : List Datum} {path : List BlockId} {bb : BlockId} {l : Location}

/-- The instructions on a walk: those of the blocks that it passes, and then those before the
location in the block where it ends. -/
def trace (body : Body) (path : List BlockId) (l : Location) : List Instruction :=
  path.flatMap body.instructionsOf ++ (body.instructionsOf l.block).take l.index.toNat

/-- The locals that are tainted at a location if a walk leads there and those of the seed are
tainted at the entry. -/
def taintedAlong (body : Body) (seed : List Datum) (path : List BlockId) (l : Location) :
    Set Datum :=
  (body.trace path l).foldl Instruction.carry {d | d ∈ seed}

theorem taintedAlong_eq :
    body.taintedAlong seed path l = ((body.instructionsOf l.block).take l.index.toNat).foldl
      Instruction.carry (body.taintedAlong seed path ⟨l.block, 0⟩) := by
  simp [taintedAlong, trace]

theorem taintedAlong_append (succ : BlockId) :
    body.taintedAlong seed (path ++ [bb]) ⟨succ, 0⟩ =
      (body.instructionsOf bb).foldl Instruction.carry (body.taintedAlong seed path ⟨bb, 0⟩) := by
  simp [taintedAlong, trace]

/-- Every instruction on a walk is one of a block that can be reached. -/
theorem exists_reachable_of_mem_trace (hpath : body.Walk path l.block) {i : Instruction}
    (hi : i ∈ body.trace path l) : ∃ b, body.Reachable b ∧ i ∈ body.instructionsOf b := by
  rcases List.mem_append.1 hi with hi | hi
  · obtain ⟨b, hb, hi⟩ := List.mem_flatMap.1 hi
    exact ⟨b, hpath.reachable_of_mem hb, hi⟩
  · exact ⟨l.block, ⟨path, hpath⟩, List.mem_of_mem_take hi⟩

def mayTaint (body : Body) (seed : List Datum) (bb : BlockId) : Set Datum :=
  {d | ∃ path, body.Walk path bb ∧ d ∈ body.taintedAlong seed path ⟨bb, 0⟩}

theorem mem_foldl_mayTaint {is : List Instruction} {d : Datum} :
    d ∈ is.foldl Instruction.carry (body.mayTaint seed bb) ↔ ∃ path, body.Walk path bb ∧
      d ∈ is.foldl Instruction.carry (body.taintedAlong seed path ⟨bb, 0⟩) := by
  rw [Instruction.mem_foldl_carry]
  constructor
  · rintro ⟨x, ⟨path, hpath, hx⟩, hd⟩
    exact ⟨path, hpath, Instruction.mem_foldl_carry.2 ⟨x, hx, hd⟩⟩
  · rintro ⟨path, hpath, hd⟩
    obtain ⟨x, hx, hd⟩ := Instruction.mem_foldl_carry.1 hd
    exact ⟨x, ⟨path, hpath, hx⟩, hd⟩

theorem seed_subset_mayTaint : {d | d ∈ seed} ⊆ body.mayTaint seed entry :=
  fun _ hd => ⟨[], .entry, hd⟩

/-- What some walk leaves tainted at the end of a block, some walk leaves tainted at the entry of
every successor. -/
theorem foldl_mayTaint_subset {succ : BlockId} (he : body.Edge bb succ) :
    (body.instructionsOf bb).foldl Instruction.carry (body.mayTaint seed bb) ⊆
      body.mayTaint seed succ := by
  intro d hd
  obtain ⟨path, hpath, hd⟩ := mem_foldl_mayTaint.1 hd
  exact ⟨path ++ [bb], hpath.step he, (taintedAlong_append succ).symm ▸ hd⟩

end Body

namespace Taint

variable [Machine] {η : Type} {t : Taint η} {body : Body} {bb : BlockId}
  {bottom start S T : LocalSet} {E X : BlockId → LocalSet} {n : Nat}

theorem Lenient.stateless_monotone (ht : t.Lenient) :
    t.analysis.Stateless ∧ t.analysis.Monotone := by
  have hnone : ∀ model, t.settings.callModel ≠ some model := by
    intro model hm
    rw [ht.callModel] at hm
    cases hm
  exact ⟨analysis_stateless fun model hm => absurd hm (hnone model),
    analysis_monotone fun model hm => absurd hm (hnone model)⟩

/-- Every post-fixed point covers every walk. -/
theorem taintedAlong_subset (s : Session (Memory η)) (ht : t.Lenient) (hbody : body.WellFormed)
    (hstart : start.members = {d | d ∈ t.seed})
    (hE : t.analysis.PostFixedPoint body bottom start E X) {path : List BlockId}
    (hpath : body.Walk path bb) : body.taintedAlong t.seed path ⟨bb, 0⟩ ⊆ (E bb).members := by
  have hv := Body.valid_of_validate hbody.validate
  induction hpath with
  | entry =>
    intro d hd
    exact LocalSet.members_subset_of_le hE.start_le (hstart ▸ hd)
  | @step path bb succ hpath he ih =>
    have hreach : body.Reachable bb := ⟨path, hpath⟩
    have hbb := hv.hasBlock_of_reachable hreach
    obtain ⟨b, hb⟩ := hv.exists_block hbb
    obtain ⟨exit, hexit, hexit_le⟩ := hE.exit_le hreach
    obtain ⟨flow, hflow, hflow_le⟩ := hE.flow_le hreach he
    have hsame : X bb = flow := eq_of_edgeState ht hb (hflow s).choose_spec
    rw [Body.taintedAlong_append]
    calc (body.instructionsOf bb).foldl Instruction.carry (body.taintedAlong t.seed path ⟨bb, 0⟩)
        ⊆ (body.instructionsOf bb).foldl Instruction.carry (E bb).members :=
          Instruction.foldl_carry_mono ih
      _ = exit.members := (members_of_replay hbody hbb hexit s).symm
      _ ⊆ (X bb).members := LocalSet.members_subset_of_le hexit_le
      _ ⊆ (E succ).members := LocalSet.members_subset_of_le (hsame ▸ hflow_le)

/-- Where a run has returned, the state at a location covers every walk there. -/
theorem exists_state_of_walk (s : Session (Memory η)) (ht : t.Lenient) (hbody : body.WellFormed)
    (hn : body.localCount = n) {limits : Limits} {s₀ s₁ s₂ : Session (Memory η)}
    {table : List (List BlockId)} {p : Progress}
    (hrun : t.analysis.Solved limits body s₀ bottom start s₁ table p s₂) {path : List BlockId}
    {l : Location} (hpath : body.Walk path l.block) (hl : body.validateLocation l = .ok ()) :
    ∃ T, Turns (t.analysis.replay body l.block 0 (some l.index))
        ((p.entries.get? l.block).getD bottom) T ∧
      T.size = n ∧ body.taintedAlong t.seed path l ⊆ T.members := by
  cases (bottom_eq hn).symm.trans hrun.bottom_eq
  have hstart := members_of_start hrun.start_eq (LocalSet.members_empty n)
  obtain ⟨ha, _⟩ := ht.stateless_monotone
  obtain ⟨_, hpost⟩ := hrun.postFixedPoint ha
  obtain ⟨hblock, b, hb, k, hk, hlt⟩ := Body.exists_index hl
  have hwf : ∀ i ∈ b.instructions, i.isWellFormed body.localCount = true := fun i hi =>
    hbody.isWellFormed hblock hb hi
  have hsize : ((p.entries.get? l.block).getD (.empty n)).size = n := by
    by_cases hentry : l.block = Body.entry
    · rw [hentry]
      exact hpost.start_le.1.symm.trans (Effect.size_run hrun.start_eq)
    · exact (hpost.bottom_le ⟨path, hpath⟩ hentry).1.symm
  -- the whole block was replayed from the entry state, hence its beginning returns as well
  obtain ⟨exit, hexit, _⟩ := hpost.exit_le ⟨path, hpath⟩
  rw [Analysis.replay_zero_none hb] at hexit
  obtain ⟨T, hT⟩ := Analysis.exists_replayFrom_of_le s ha hlt.le hexit
  obtain ⟨s', hTs⟩ := hT s
  have hTmembers := members_of_replayFrom (j := 0) hb hwf (by omega) hTs
  refine ⟨T, ?_, (Analysis.size_replayFrom hTs).trans hsize, ?_⟩
  · rw [hk, Analysis.replay_zero_some hb]
    exact hT
  · rw [Body.taintedAlong_eq, hTmembers, hk, Int.toNat_natCast, Body.instructionsOf_eq hb]
    exact Instruction.foldl_carry_mono (taintedAlong_subset s ht hbody hstart hpost hpath)

theorem exists_replay_upTo (s : Session (Memory η)) (ht : t.Lenient) (hbody : body.WellFormed)
    (hn : body.localCount = n) (hbb : body.hasBlock bb = true) (hsize : S.size = n) {count : Nat}
    (hcount : count ≤ (body.instructionsOf bb).length)
    (hfeasible : ∀ i ∈ (body.instructionsOf bb).take count, i.Feasible) :
    ∃ T, Turns (t.analysis.replay body bb 0 (some count)) S T ∧
      T.members = ((body.instructionsOf bb).take count).foldl Instruction.carry S.members := by
  obtain ⟨b, hb⟩ := (Body.valid_of_validate hbody.validate).exists_block hbb
  have hwf : ∀ i ∈ b.instructions, i.isWellFormed body.localCount = true := fun i hi =>
    hbody.isWellFormed hbb hb hi
  rw [Body.instructionsOf_eq hb] at hfeasible hcount ⊢
  have hlength : 0 + count ≤ b.instructions.length := by omega
  obtain ⟨T, hT⟩ := exists_replayFrom s ht.strict hb hwf hfeasible hlength (by rw [hsize, hn])
  obtain ⟨s', hrun⟩ := hT s
  refine ⟨T, ?_, members_of_replayFrom hb hwf hlength hrun⟩
  rw [Analysis.replay_zero_some hb]
  exact hT

section

variable (s : Session (Memory η)) (ht : t.Lenient) (hbody : body.WellFormed)
  (hfeasible : body.Feasible t.seed) (hn : body.localCount = n)

include s ht hbody hfeasible hn

theorem exists_exit (hreach : body.Reachable bb) (hsize : S.size = n) :
    ∃ T, Turns (t.analysis.replay body bb 0 none) S T := by
  have hv := Body.valid_of_validate hbody.validate
  have hbb := hv.hasBlock_of_reachable hreach
  obtain ⟨b, hb⟩ := hv.exists_block hbb
  obtain ⟨T, hT, _⟩ := exists_replay_upTo s ht hbody hn hbb hsize le_rfl
    fun i hi => hfeasible.instruction hreach (List.mem_of_mem_take hi)
  refine ⟨T, ?_⟩
  rw [Analysis.replay_zero_none hb, ← Analysis.replay_zero_some hb, ← Body.instructionsOf_eq hb]
  exact hT

/-- The locals that some walk leaves tainted are a post-fixed point. -/
theorem exists_postFixedPoint (hstart : start.members = {d | d ∈ t.seed})
    (hsize : start.size = n) :
    ∃ E X, t.analysis.PostFixedPoint body (.empty n) start E X ∧
      ∀ bb, (E bb).size = n ∧ (E bb).members ⊆ body.mayTaint t.seed bb := by
  have hv := Body.valid_of_validate hbody.validate
  choose E hEsize hE using fun bb => LocalSet.exists_members n (body.mayTaint t.seed bb)
  have hEsub : ∀ bb, (E bb).members ⊆ body.mayTaint t.seed bb := by
    intro bb d hd
    obtain ⟨i, rfl, hi⟩ := LocalSet.mem_members.1 hd
    exact ((hE bb i).1 hi).2
  -- a set over the domain with nothing but tainted locals is below
  have hle : ∀ {bb U}, U.size = n → U.members ⊆ body.mayTaint t.seed bb → U ≤ E bb := by
    intro bb U hU hsub
    refine ⟨by rw [hU, hEsize], fun i hi => (hE bb i).2 ⟨?_, ?_⟩⟩
    · have := LocalSet.lt_size_of_has hi
      omega
    · exact hsub (LocalSet.int_mem_members.2 hi)
  -- where no walk leads any exit state will do
  have hX : ∀ bb, ∃ exit, body.Reachable bb →
      Turns (t.analysis.replay body bb 0 none) (E bb) exit := by
    intro bb
    by_cases hbb : body.Reachable bb
    · obtain ⟨exit, hexit⟩ := exists_exit s ht hbody hfeasible hn hbb (hEsize bb)
      exact ⟨exit, fun _ => hexit⟩
    · exact ⟨E bb, fun h => absurd h hbb⟩
  choose X hX using hX
  refine ⟨E, X, ⟨?_, ?_, ?_, ?_⟩, fun bb => ⟨hEsize bb, hEsub bb⟩⟩
  · exact hle hsize (hstart ▸ Body.seed_subset_mayTaint)
  · intro bb _ _
    exact LocalSet.empty_le (hEsize bb)
  · intro pred bb hreach he
    have hpred := hv.hasBlock_of_reachable hreach
    obtain ⟨b, hb⟩ := hv.exists_block hpred
    have hturns := hX pred hreach
    have hcall : ∀ c, Analysis.ReturnsTo b bb c → c.spelling.isWritten = true := fun _ hc =>
      hfeasible.call hreach hb hc
    refine ⟨X pred, edgeState_yields ht hb hcall _, hle ?_ ?_⟩
    · rw [Analysis.size_replay (hturns s).choose_spec, hEsize]
    · rw [members_of_replay hbody hpred hturns s]
      exact (Instruction.foldl_carry_mono (hEsub pred)).trans (Body.foldl_mayTaint_subset he)
  · intro bb hbb
    exact ⟨X bb, hX bb hbb, le_rfl⟩

/-- The states that a run finds at the entries of the blocks are exact. -/
theorem members_entry {limits : Limits} {s₀ s₁ s₂ : Session (Memory η)}
    {table : List (List BlockId)} {p : Progress}
    (hrun : t.analysis.Solved limits body s₀ bottom start s₁ table p s₂) (bb : BlockId) :
    ((p.entries.get? bb).getD bottom).size = n ∧
      ((p.entries.get? bb).getD bottom).members = body.mayTaint t.seed bb := by
  cases (bottom_eq hn).symm.trans hrun.bottom_eq
  have hstart := members_of_start hrun.start_eq (LocalSet.members_empty n)
  have hsize : start.size = n := Effect.size_run hrun.start_eq
  obtain ⟨ha, hm⟩ := ht.stateless_monotone
  obtain ⟨E, X, hE, hfacts⟩ := exists_postFixedPoint s ht hbody hfeasible hn hstart hsize
  obtain ⟨hEsize, hEsub⟩ := hfacts bb
  have hle : (p.entries.get? bb).getD (.empty n) ≤ E bb := by
    cases hentry : p.entries.get? bb with
    | some entry => exact (hrun.below ha hm hE).entry_le hentry
    | none => exact LocalSet.empty_le hEsize
  refine ⟨hle.1.trans hEsize, Set.Subset.antisymm ?_ ?_⟩
  · exact (LocalSet.members_subset_of_le hle).trans hEsub
  · obtain ⟨_, hpost⟩ := hrun.postFixedPoint ha
    rintro d ⟨path, hpath, hd⟩
    exact taintedAlong_subset s ht hbody hstart hpost hpath hd

end

/-- Where a run has returned, the state at a location is exact. -/
theorem exists_state (s : Session (Memory η)) (ht : t.Lenient) (hbody : body.WellFormed)
    (hn : body.localCount = n) {limits : Limits} {s₀ s₁ s₂ : Session (Memory η)}
    {table : List (List BlockId)} {p : Progress}
    (hrun : t.analysis.Solved limits body s₀ bottom start s₁ table p s₂) {l : Location}
    (hl : body.validateLocation l = .ok ())
    (hfeasible : ∀ i ∈ (body.instructionsOf l.block).take l.index.toNat, i.Feasible) :
    ∃ T, Turns (t.analysis.replay body l.block 0 (some l.index))
        ((p.entries.get? l.block).getD bottom) T ∧
      T.size = n ∧ ∀ d, d ∈ T.members ↔
        ∃ path, body.Walk path l.block ∧ d ∈ body.taintedAlong t.seed path l := by
  obtain ⟨hblock, b, hb, k, hk, hlt⟩ := Body.exists_index hl
  rw [← Body.instructionsOf_eq hb] at hlt
  rw [hk, Int.toNat_natCast] at hfeasible
  obtain ⟨hsize, hmembers⟩ := members_entry s ht hbody
    (feasible_of_solved hbody.isTyped ht.callModel hrun) hn hrun l.block
  obtain ⟨T, hT, hTmembers⟩ := exists_replay_upTo s ht hbody hn hblock hsize hlt.le hfeasible
  refine ⟨T, hk ▸ hT, (Analysis.size_replay (hT s).choose_spec).trans hsize, fun d => ?_⟩
  rw [hTmembers, hmembers, Body.mem_foldl_mayTaint]
  simp only [body.taintedAlong_eq (l := l), hk, Int.toNat_natCast]

/-- A replay up to a location has needed the instructions before it. -/
theorem feasible_of_replay_upTo {s s' : Session (Memory η)} (hbody : body.WellFormed)
    {l : Location} (hl : body.validateLocation l = .ok ())
    (h : t.analysis.replay body l.block 0 (some l.index) (S, s) = .ok () (T, s')) :
    ∀ i ∈ (body.instructionsOf l.block).take l.index.toNat, i.Feasible := by
  obtain ⟨hblock, b, hb, k, hk, hlt⟩ := Body.exists_index hl
  rw [hk, Analysis.replay_zero_some hb] at h
  rw [hk, Int.toNat_natCast, Body.instructionsOf_eq hb]
  exact feasible_of_replayFrom (j := 0) hb
    (List.all_eq_true.1 (hbody.isTyped b (Body.mem_blocks hblock hb))) (by omega) h

end Taint

section

variable {η : Type} {body : Body} {seed : List Datum}

theorem Taint.lenient_default : (⟨seed, {}⟩ : Taint η).Lenient :=
  ⟨rfl, rfl, rfl⟩

variable [Machine]

/-- Behind an analysis that has returned stands a run of the solver: the audit is the one of that
run, and the state at a location, replayed from its tables, answers the questions about the locals
there, which is asked for only if the replay returns. -/
theorem exists_solved_of_analyze {s s' : Session (Taint.Memory η)} {r : Results (Taint.Memory η)}
    (h : analyze body seed {} s = .ok r s') :
    ∃ s₀ bottom start s₁ table p s₂,
      (⟨seed, {}⟩ : Taint η).analysis.Solved {} body s₀ bottom start s₁ table p s₂ ∧
      r.unsupported = s₂.memory.audit.entries ∧
      (∀ {l : Location} {T : LocalSet} {d : Datum}, body.validateLocation l = .ok () →
        Turns ((⟨seed, {}⟩ : Taint η).analysis.replay body l.block 0 (some l.index))
          ((p.entries.get? l.block).getD bottom) T →
        d.isLocal T.size = true → Run.Yields (r.isPossiblyTainted d l) (T.holds d)) ∧
      ∀ {l : Location} {d : Datum} {answer : Bool} {s s' : Session (Taint.Memory η)},
        body.validateLocation l = .ok () → r.isPossiblyTainted d l s = .ok answer s' →
        ∃ T s₁, (⟨seed, {}⟩ : Taint η).analysis.replay body l.block 0 (some l.index)
          ((p.entries.get? l.block).getD bottom, s) = .ok () (T, s₁) := by
  obtain ⟨r₀, hr₀, rfl⟩ := analyze_eq_ok.1 h
  obtain ⟨bottom, start, s₁, table, p, s₂, hrun, hbody, -, hentries, -, hunsupported, -⟩ :=
    Analysis.solved_of_solve hr₀
  refine ⟨_, bottom, start, s₁, table, p, s₂, hrun, hunsupported, fun {l T d} hl hT hd => ?_,
    fun {l d answer s s'} hl hq => ?_⟩
  · refine Results.isPossiblyTainted_yields (hbody ▸ hl) (hbody ▸ hrun.bottom_eq) ?_
      (LocalSet.exists_contains hd)
    change Turns ((⟨seed, {}⟩ : Taint η).analysis.replay r₀.body l.block 0 (some l.index))
      ((r₀.entries.get? l.block).getD bottom) T
    rw [hbody, hentries]
    exact hT
  · have hreplay := Results.exists_replay_of_isPossiblyTainted (hbody ▸ hl)
      (hbody ▸ hrun.bottom_eq) hq
    change ∃ T s₁, (⟨seed, {}⟩ : Taint η).analysis.replay r₀.body l.block 0 (some l.index)
      ((r₀.entries.get? l.block).getD bottom, s) = .ok () (T, s₁) at hreplay
    rwa [hbody, hentries] at hreplay

/-- The analysis of a well-formed body returns exactly if it is feasible, and then is exact: a local
may be tainted at a location if and only if some walk leaves it tainted there. The question is
answered at every location of a block that can be reached, and elsewhere exactly if the instructions
before the location are feasible. -/
theorem analyze_exact (hbody : body.WellFormed)
    (hseed : ∀ d ∈ seed, d.isLocal body.localCount = true) (s : Session (Taint.Memory η)) :
    ((∃ r s', analyze body seed {} s = .ok r s') ↔ body.Feasible seed) ∧
      ∀ r s', analyze body seed {} s = .ok r s' →
        ∀ l, body.validateLocation l = .ok () → ∀ x : Int, 0 ≤ x → x < body.localCount →
          ((∃ answer, Run.Yields (r.isPossiblyTainted (.int x) l) answer) ↔
            body.Reachable l.block ∨
              ∀ i ∈ (body.instructionsOf l.block).take l.index.toNat, i.Feasible) ∧
          ∀ answer, Run.Yields (r.isPossiblyTainted (.int x) l) answer → (answer = true ↔
            ∃ path, body.Walk path l.block ∧ .int x ∈ body.taintedAlong seed path l) := by
  have ht : (⟨seed, {}⟩ : Taint η).Lenient := Taint.lenient_default
  have hv := Body.valid_of_validate hbody.validate
  obtain ⟨n, hn⟩ := Int.eq_ofNat_of_zero_le hv.localCount_nonneg
  refine ⟨analyze_returns_iff hbody hseed ht rfl s, fun r s' h l hl x hx hlt => ?_⟩
  obtain ⟨_, _, _, _, _, _, _, hrun, _, hyields, hreplays⟩ := exists_solved_of_analyze h
  -- where the instructions before the location are feasible, the answer is the exact one
  have hanswer (hbefore : ∀ i ∈ (body.instructionsOf l.block).take l.index.toNat, i.Feasible) :
      ∃ answer, Run.Yields (r.isPossiblyTainted (.int x) l) answer ∧ (answer = true ↔
        ∃ path, body.Walk path l.block ∧ .int x ∈ body.taintedAlong seed path l) := by
    obtain ⟨T, hT, hsize, hexact⟩ := Taint.exists_state s ht hbody hn hrun hl hbefore
    have hlocal : (Datum.int x).isLocal T.size = true :=
      Datum.isLocal_iff.2 ⟨x, rfl, hx, by rw [hsize, ← hn]; exact hlt⟩
    exact ⟨T.holds (.int x), hyields hl hT hlocal, hexact (.int x)⟩
  have hneeds {answer : Bool} (hq : Run.Yields (r.isPossiblyTainted (.int x) l) answer) :
      ∀ i ∈ (body.instructionsOf l.block).take l.index.toNat, i.Feasible := by
    obtain ⟨T, s₁, hreplay⟩ := hreplays hl (hq s).choose_spec
    exact Taint.feasible_of_replay_upTo hbody hl hreplay
  refine ⟨⟨?_, ?_⟩, fun answer hq => ?_⟩
  · rintro ⟨answer, hq⟩
    exact .inr (hneeds hq)
  · intro h'
    have hbefore : ∀ i ∈ (body.instructionsOf l.block).take l.index.toNat, i.Feasible := by
      refine h'.elim (fun hreach i hi => ?_) id
      exact (feasible_of_analyze hbody.isTyped rfl h).instruction hreach (List.mem_of_mem_take hi)
    obtain ⟨answer, hq, _⟩ := hanswer hbefore
    exact ⟨answer, hq⟩
  · obtain ⟨answer', hq', hexact⟩ := hanswer (hneeds hq)
    cases hq'.eq_of_ok (hq s).choose_spec
    exact hexact

/-- Local 1 passes the taint of local 0 on to local 2 at the first round of a loop, and is clean
afterwards; the last block is never reached. -/
def relay : Body :=
  ⟨3, [⟨[.assign (.int 1) (.use (.copy (.int 0)))], .goto 1⟩,
    ⟨[.assign (.int 2) (.binary (.text "Add") (.copy (.int 1)) (.move (.int 2))),
      .assign (.int 1) (.use (.constant (.int 0)))],
      .switchInt (.copy (.int 2)) [(.int 0, 1)] 2⟩,
    ⟨[], .ret⟩, ⟨[.nop], .goto 1⟩], "relay"⟩

end

attribute [local instance] Machine.ample in
theorem analyze_exact_relay :
    relay.Feasible [.int 0] ∧
      ∃ r s', analyze relay [.int 0] {} ⟨⟨{}, ()⟩, []⟩ = .ok r s' ∧
        ∃ answer, Run.Yields (r.isPossiblyTainted (.int 2) ⟨1, 2⟩) answer ∧
          (answer = true ↔ ∃ path, relay.Walk path 1 ∧
            .int 2 ∈ relay.taintedAlong [.int 0] path ⟨1, 2⟩) := by
  have hbody : relay.WellFormed := ⟨by cbv, by decide⟩
  have hseed : ∀ d ∈ [Datum.int 0], d.isLocal relay.localCount = true := by decide
  have hsets : ∀ i < 3, Machine.sets i = true := by decide
  have hfeasible : relay.Feasible [.int 0] :=
    hbody.feasible hseed (fun i hi => hsets i (Int.ofNat_lt.1 hi)) rfl
  obtain ⟨hreturns, hexact⟩ := analyze_exact hbody hseed ⟨⟨{}, ()⟩, []⟩
  obtain ⟨r, s', h⟩ := hreturns.2 hfeasible
  have hreach : relay.Reachable 1 :=
    ⟨[0], Body.Walk.entry.step ⟨_, _, _, rfl, rfl, List.mem_cons_self⟩⟩
  obtain ⟨hanswered, hanswer⟩ := hexact r s' h ⟨1, 2⟩ (by cbv) 2 (by decide) (by decide)
  obtain ⟨answer, hq⟩ := hanswered.2 (.inl hreach)
  exact ⟨hfeasible, r, s', h, answer, hq, hanswer answer hq⟩

def vast : Body :=
  ⟨2361183241434822606848, [⟨[], .ret⟩], "<body>"⟩

/-- With every local in range, a seed can still be too large. -/
theorem analyze_fails_vast :
    vast.WellFormed ∧ (Datum.int 1180591620717411303424).isLocal vast.localCount = true ∧
      ∀ [Machine], ∃ s', analyze vast [.int 1180591620717411303424] {} ⟨⟨{}, ()⟩, []⟩ =
        .error .tooManyDigits s' := by
  have hbody : vast.WellFormed := ⟨by cbv, by decide⟩
  have hvalid := Body.valid_of_validate hbody.validate
  refine ⟨hbody, by decide, ?_⟩
  intro _
  refine analyze_of_unset hbody (by decide) Taint.lenient_default rfl (i := 1180591620717411303424)
    (Machine.sets_of_not_addresses (by decide)) (fun j => ?_) (fun text htext => ?_) _
  · constructor
    · intro hj
      rcases hvalid.cases_of_changed hj with hj | ⟨b, hb, i, hi, sources, hflow⟩
      · exact Int.ofNat_inj.1 (Datum.int.inj (List.mem_singleton.1 hj))
      · cases List.mem_singleton.1 hb
        cases List.mem_singleton.1 hi
        cases hflow
    · rintro rfl
      exact .inl List.mem_cons_self
  · obtain ⟨b, hb, ⟨i, hi, rvalue, hr, _⟩ | ⟨c, hc, _⟩⟩ := hvalid.cases_of_reported htext
    · cases List.mem_singleton.1 hb
      cases List.mem_singleton.1 hi
      cases hr
    · cases List.mem_singleton.1 hb
      cases hc

end MayTaint
