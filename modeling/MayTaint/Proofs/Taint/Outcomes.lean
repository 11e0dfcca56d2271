import MayTaint.Proofs.Cause
import MayTaint.Proofs.Least
import MayTaint.Proofs.Taint.Transfer

/-!
How an analysis of a typed body can end. Nothing is asked of the numbers in the body: locals and
edges may lead anywhere, and there may be no block at all. Without a model of calls and with the
limit left to be derived, the analysis returns or gives up for one of few reasons: the body is
malformed, a local is out of range, the settings refuse what has no rule, or the machine refuses to
set a bit or to spell out what is to be reported. Where there is no such reason it returns.
-/

namespace MayTaint

namespace LocalSet

variable {S : LocalSet} {d : Datum} {f : Fault}

structure Strays (n : Nat) (d : Datum) (f : Fault) : Prop where
  out : d.isLocal n = false
  fault : ∃ i, d = .int i ∧ f = .localOutOfRange i n

theorem Strays.nature {n : Nat} (h : Strays n d f) : f.nature? = some .localIndex := by
  obtain ⟨i, _, rfl⟩ := h.fault
  rfl

theorem contains_eq_error (hd : d.isWhole = true) (h : S.contains d = .error f) :
    Strays S.size d f := by
  obtain ⟨i, rfl⟩ := Datum.isWhole_iff.1 hd
  rcases except_bind_eq_error.1 h with hindex | ⟨_, _, hr⟩
  · rw [index] at hindex
    split at hindex
    · cases hindex
    · next hrange =>
      cases hindex
      refine ⟨?_, i, rfl, rfl⟩
      rw [Datum.isLocal, ← Bool.decide_and, decide_eq_false_iff_not]
      exact hrange
  · cases hr

/-- A set refuses to be changed at what is no local of its domain, and where the machine does not
set the bit. -/
theorem error_of_place [Machine] (hd : d.isWhole = true) (h : S.place d = .error f) :
    Strays S.size d f ∨
      ∃ i : Nat, d = .int i ∧ i < S.size ∧ Machine.sets i = false ∧ f = refusal i := by
  rcases except_bind_eq_error.1 h with hindex | ⟨i, hindex, hr⟩
  · exact .inl (contains_eq_error hd (except_bind_eq_error.2 (.inl hindex)))
  · right
    split at hr
    · cases hr
    · next hsets =>
      cases hr
      exact ⟨i, index_eq_ok_iff.1 hindex, i.isLt, Bool.eq_false_iff.2 hsets, rfl⟩

theorem nature_refusal (i : Nat) : (refusal i).nature? = none := by
  unfold refusal
  split <;> rfl

theorem kind?_refusal [Machine] (i : Nat) : (refusal i).kind? = none := by
  unfold refusal
  split <;> rfl

end LocalSet

namespace Body

variable {body : Body}

def IsTyped (body : Body) : Prop :=
  ∀ b ∈ body.blocks, b.instructions.all (·.isTyped) = true

def Malformed (body : Body) : Prop :=
  body.localCount < 0 ∨ body.blocks = [] ∨
    ∃ b ∈ body.blocks, ∃ edges, b.terminator.edges = .ok edges ∧
      ∃ e ∈ edges, body.hasBlock e.1 = false

/-- The locals that a run sets or clears: those of the seed, and the targets of the rules in the
blocks that can be reached. -/
def changed (body : Body) (seed : List Datum) : Set Datum :=
  {d | d ∈ seed ∨ ∃ bb, body.Reachable bb ∧
    ∃ i ∈ body.instructionsOf bb, ∃ sources, i.flow? = some (d, sources)}

/-- What a run without a model of calls spells out: the values for which there is no rule, and the
calls that return, in the blocks that can be reached. -/
def reported (body : Body) : Set Spelling :=
  {text | ∃ bb, body.Reachable bb ∧
    ((∃ i ∈ body.instructionsOf bb, ∃ rvalue, i.unruled? = some rvalue ∧ text = rvalue.spelling) ∨
      ∃ b succ c, body.block bb = .ok b ∧ Analysis.ReturnsTo b succ c ∧ text = c.spelling)}

/-- The machine can carry a run out: it sets the bits of all that is changed, and writes all that is
reported. -/
structure Feasible [Machine] (body : Body) (seed : List Datum) : Prop where
  sets : ∀ i : Nat, .int i ∈ body.changed seed → Machine.sets i = true
  writes : ∀ text ∈ body.reported, text.isWritten = true

theorem Feasible.instruction [Machine] {seed : List Datum} (h : body.Feasible seed) {bb : BlockId}
    (hbb : body.Reachable bb) {i : Instruction} (hi : i ∈ body.instructionsOf bb) :
    i.Feasible where
  sets j sources hflow := h.sets j (.inr ⟨bb, hbb, i, hi, sources, hflow⟩)
  writes rvalue hr := h.writes _ ⟨bb, hbb, .inl ⟨i, hi, rvalue, hr, rfl⟩⟩

theorem Feasible.call [Machine] {seed : List Datum} (h : body.Feasible seed) {bb succ : BlockId}
    (hbb : body.Reachable bb) {b : Block} (hb : body.block bb = .ok b) {c : Call}
    (hc : Analysis.ReturnsTo b succ c) : c.spelling.isWritten = true :=
  h.writes _ ⟨bb, hbb, .inr ⟨b, succ, c, hb, hc, rfl⟩⟩

theorem Valid.cases_of_changed (hv : body.Valid) {seed : List Datum} {d : Datum}
    (h : d ∈ body.changed seed) :
    d ∈ seed ∨ ∃ b ∈ body.blocks, ∃ i ∈ b.instructions, ∃ sources, i.flow? = some (d, sources) := by
  refine h.imp_right ?_
  rintro ⟨bb, hbb, i, hi, hflow⟩
  have hblock := hv.hasBlock_of_reachable hbb
  obtain ⟨b, hb⟩ := hv.exists_block hblock
  rw [instructionsOf_eq hb] at hi
  exact ⟨b, mem_blocks hblock hb, i, hi, hflow⟩

theorem Valid.cases_of_reported (hv : body.Valid) {text : Spelling} (h : text ∈ body.reported) :
    ∃ b ∈ body.blocks,
      (∃ i ∈ b.instructions, ∃ rvalue, i.unruled? = some rvalue ∧ text = rvalue.spelling) ∨
        ∃ c, b.terminator = .call c ∧ text = c.spelling := by
  obtain ⟨bb, hbb, hcase⟩ := h
  have hblock := hv.hasBlock_of_reachable hbb
  obtain ⟨b, hb⟩ := hv.exists_block hblock
  refine ⟨b, mem_blocks hblock hb, ?_⟩
  rcases hcase with hi | ⟨b', succ, c, hb', hc, htext⟩
  · rw [instructionsOf_eq hb] at hi
    exact .inl hi
  · cases hb.symm.trans hb'
    exact .inr ⟨c, hc.1, htext⟩

/-- A machine that sets all locals of a body and writes all numbers can carry out every run. -/
theorem WellFormed.feasible [Machine] {seed : List Datum} (h : body.WellFormed)
    (hseed : ∀ d ∈ seed, d.isLocal body.localCount = true)
    (hsets : ∀ i : Nat, i < body.localCount → Machine.sets i = true)
    (hdigits : Machine.digits = none) : body.Feasible seed where
  sets i hi := by
    have hlocal : (Datum.int i).isLocal body.localCount = true := by
      rcases (valid_of_validate h.validate).cases_of_changed hi with hi | ⟨b, hb, j, hj, _, hflow⟩
      · exact hseed _ hi
      · exact (Instruction.isLocal_of_flow
          (List.all_eq_true.1 (h.instructions b hb) j hj) hflow).1
    obtain ⟨j, hj, _, hlt⟩ := Datum.isLocal_iff.1 hlocal
    rw [Datum.int.injEq] at hj
    exact hsets i (hj ▸ hlt)
  writes text _ := text.isWritten_of_digits_eq_none hdigits

def ruleAt? (body : Body) (bb : BlockId) (j : Nat) : Option (Datum × List Datum) :=
  (body.instructionsOf bb)[j]?.bind (·.flow?)

theorem ruleAt?_eq_some {bb : BlockId} {b : Block} (hb : body.block bb = .ok b) {j : Nat}
    {rule : Datum × List Datum} : body.ruleAt? bb j = some rule ↔
      ∃ i, b.instructions[j]? = some i ∧ i.flow? = some rule := by
  rw [ruleAt?, instructionsOf_eq hb, Option.bind_eq_some_iff]

theorem WellFormed.isTyped (h : body.WellFormed) : body.IsTyped := by
  intro b hb
  refine List.all_eq_true.2 fun i hi => ?_
  exact i.isTyped_of_isWellFormed (List.all_eq_true.1 (h.instructions b hb) i hi)

theorem WellFormed.isLocal_of_ruleAt (h : body.WellFormed) {bb : BlockId} (hbb : body.Reachable bb)
    {j : Nat} {target : Datum} {sources : List Datum}
    (hrule : body.ruleAt? bb j = some (target, sources)) :
    target.isLocal body.localCount = true ∧ ∀ d ∈ sources, d.isLocal body.localCount = true := by
  have hvalid := valid_of_validate h.validate
  have hblock := hvalid.hasBlock_of_reachable hbb
  obtain ⟨b, hb⟩ := hvalid.exists_block hblock
  obtain ⟨i, hi, hflow⟩ := (ruleAt?_eq_some hb).1 hrule
  exact Instruction.isLocal_of_flow (h.isWellFormed hblock hb (List.mem_of_getElem? hi)) hflow

theorem IsTyped.exists_edges (h : body.IsTyped) {b : Block} (hb : b ∈ body.blocks) :
    ∃ edges, b.terminator.edges = .ok edges :=
  Terminator.exists_edges
    (List.all_eq_true.1 (h b hb) (.terminator b.terminator) (by simp [Block.instructions]))

/-- A typed body is valid unless it is malformed. -/
theorem IsTyped.malformed_iff (h : body.IsTyped) : body.Malformed ↔ ¬body.Valid := by
  have hblock : ∀ {bb b}, body.hasBlock bb = true → body.blocks[bb.toNat]? = some b →
      body.block bb = .ok b := fun hbb => (elementAt_eq_ok_iff (hasBlock_iff.1 hbb).1).2
  constructor
  · rintro (hcount | hnone | ⟨b, hb, edges, hedges, e, he, hout⟩) hv
    · exact absurd hv.localCount_nonneg (Int.not_le.2 hcount)
    · have hpos := (hasBlock_iff.1 hv.hasBlock_entry).2
      rw [size, hnone] at hpos
      exact absurd hpos (by decide)
    · obtain ⟨k, hk⟩ := List.getElem?_of_mem hb
      have hlt := (List.getElem?_eq_some_iff.1 hk).1
      have hbb : body.hasBlock k = true := hasBlock_iff.2 ⟨by omega, by rw [size]; omega⟩
      obtain ⟨b', edges', hb', hedges', htargets⟩ := hv.edges hbb
      cases (hblock hbb hk).symm.trans hb'
      cases hedges.symm.trans hedges'
      rw [htargets e he] at hout
      cases hout
  · intro hv
    by_contra hgood
    simp only [Malformed, not_or, not_exists, not_and, Int.not_lt, Bool.not_eq_false] at hgood
    obtain ⟨hcount, hblocks, htargets⟩ := hgood
    have hpos : 0 < body.size := List.length_pos_iff.2 hblocks
    have hentry : body.hasBlock Body.entry = true :=
      hasBlock_iff.2 ⟨le_rfl, by simpa [Body.entry] using hpos⟩
    refine hv ⟨hcount, hentry, fun {bb} hbb => ?_⟩
    obtain ⟨hnonneg, hlt⟩ := hasBlock_iff.1 hbb
    obtain ⟨b, hb⟩ : ∃ b, body.blocks[bb.toNat]? = some b :=
      ⟨_, List.getElem?_eq_getElem (by rw [size] at hlt; omega)⟩
    have hmem := List.mem_of_getElem? hb
    obtain ⟨edges, hedges⟩ := h.exists_edges hmem
    exact ⟨b, edges, hblock hbb hb, hedges, htargets b hmem edges hedges⟩

/-- A typed body is refused only as malformed. -/
theorem IsTyped.nature_of_validate (h : body.IsTyped) {f : Fault} (hf : body.validate = .error f) :
    f.nature? = some .malformedBody := by
  rcases validate_eq_error hf with rfl | rfl | ⟨b, hb, hfails, _⟩ | ⟨kind, target, l, rfl⟩
  · rfl
  · rfl
  · obtain ⟨edges, hedges⟩ := h.exists_edges hb
    rw [hedges] at hfails
    cases hfails
  · rfl

end Body

/-! ### The faults of effects -/

namespace Taint

variable [Machine] {η : Type} {t : Taint η} {body : Body} {i : Instruction} {l : Location}
  {S : LocalSet} {s s' : Session (Memory η)} {u : LocalSet × Session (Memory η)} {f : Fault}

theorem contains_of_anyTainted {sources : List Datum}
    (h : (Rules.anyTainted sources).run (S, s) = .error f u) :
    ∃ d ∈ S.asked sources, S.contains d = .error f := by
  induction sources with
  | nil => cases h
  | cons d sources ih =>
    simp only [Rules.anyTainted, Effect.run] at h
    split at h
    · next b hb =>
      cases b with
      | true => cases h
      | false =>
        obtain ⟨e, he, hcontains⟩ := ih h
        rw [LocalSet.asked_cons_of_not_holds (LocalSet.holds_of_contains hb)]
        exact ⟨e, List.mem_cons_of_mem d he, hcontains⟩
    · next hfails =>
      cases h
      exact ⟨d, S.mem_asked_cons d sources, hfails⟩

theorem place_of_setTaint {b : Bool} {d : Datum}
    (h : (Effect.setTaint b d).run (S, s) = .error f u) : S.place d = .error f := by
  cases b with
  | true =>
    change (Effect.gen d (.done ())).run (S, s) = _ at h
    simp only [Effect.run] at h
    split at h
    · cases h
    · next hfails =>
      cases h
      exact Effect.place_eq_error_of_gen hfails
  | false =>
    change (Effect.kill d (.done ())).run (S, s) = _ at h
    simp only [Effect.run] at h
    split at h
    · cases h
    · next hfails =>
      cases h
      exact Effect.place_eq_error_of_kill hfails

/-- A rule fails because its target or a local that it asks about is out of range, or because the
machine does not set its target. -/
theorem fault_of_flow {report : Reporter (Memory η)} {target : Datum} {sources : List Datum}
    (htarget : target.isWhole = true) (hsources : ∀ d ∈ sources, d.isWhole = true)
    (h : ((Rules.Verdict.flow target sources).effect report).run (S, s) = .error f u) :
    (∃ d ∈ S.asked sources ++ [target], LocalSet.Strays S.size d f) ∨
      ∃ j : Nat, target = .int j ∧ j < S.size ∧ Machine.sets j = false ∧
        f = LocalSet.refusal j := by
  rw [Rules.Verdict.effect, Effect.run_bind] at h
  rcases estate_bind_eq_error.1 h with hask | ⟨b, u', hb, hset⟩
  · obtain ⟨d, hd, hcontains⟩ := contains_of_anyTainted hask
    have hwhole := hsources d (LocalSet.mem_of_mem_asked hd)
    exact .inl ⟨d, List.mem_append_left _ hd, LocalSet.contains_eq_error hwhole hcontains⟩
  · obtain ⟨_, rfl⟩ := Rules.eq_of_run_anyTainted hb
    refine (LocalSet.error_of_place htarget (place_of_setTaint hset)).imp_left fun hstray => ?_
    exact ⟨target, List.mem_append_right _ List.mem_cons_self, hstray⟩

/-- Why a typed instruction fails on a set over `n` locals: a local is out of range, the settings
are strict, or the machine refuses something. -/
inductive Obstructs (t : Taint η) (S : LocalSet) (i : Instruction) (f : Fault) : Prop
  | stray {target : Datum} {sources : List Datum} {d : Datum}
    (flow : i.flow? = some (target, sources)) (mem : d ∈ S.asked sources ++ [target])
    (strays : LocalSet.Strays S.size d f)
  | strict (strict : t.settings.isStrict = true) (fault : ∃ detail l, f = .unsupported detail l)
  | unset {j : Nat} {sources : List Datum} (flow : i.flow? = some (.int j, sources))
    (lt : j < S.size) (unset : Machine.sets j = false) (fault : f = LocalSet.refusal j)
  | unwritten {rvalue : Rvalue} (unruled : i.unruled? = some rvalue)
    (unwritten : rvalue.spelling.isWritten = false)
    (fault : f = .numeralTooLong (Machine.digits.getD 0))

theorem obstructs_of_instruction (hi : i.isTyped = true)
    (h : (t.analysis.instruction i l).run (S, s) = .error f u) : t.Obstructs S i f := by
  obtain (st | tm) := i
  · change (Rules.statement t.reporter st l).run (S, s) = _ at h
    rw [Rules.statement_eq] at h
    cases hf : (Instruction.statement st).flow? with
    | some rule =>
      obtain ⟨target, sources⟩ := rule
      obtain ⟨htarget, hsources⟩ := Instruction.isWhole_of_flow hi hf
      rw [Rules.verdict_of_flow hi hf] at h
      rcases fault_of_flow htarget hsources h with
        ⟨d, hd, hstrays⟩ | ⟨j, rfl, hlt, hj, hfault⟩
      · exact .stray hf hd hstrays
      · exact .unset hf hlt hj hfault
    | none =>
      cases hr : (Instruction.statement st).unruled? with
      | some rvalue =>
        rw [Rules.verdict_of_unruled hi hr] at h
        cases hw : rvalue.spelling.isWritten with
        | true =>
          rw [Rules.verdictOfUnruled_of_isWritten hw, Rules.Verdict.effect, reporter] at h
          split at h
          · next hstrict =>
            cases h
            exact .strict hstrict ⟨_, _, rfl⟩
          · rw [run_record] at h
            cases h
        | false =>
          rw [Rules.verdictOfUnruled_of_not_isWritten hw] at h
          cases h
          exact .unwritten hr hw rfl
      | none =>
        rw [Rules.verdict_of_neither hi hf hr] at h
        cases h
  · cases tm with
    | statement st => cases hi
    | foreign thing => cases hi
    | _ => cases h

theorem fault_of_callReturn {c : Call} (hmodel : t.settings.callModel = none)
    (h : (t.callReturn c l).run (S, s) = .error f u) :
    (t.settings.callReturn = .fail ∧ ∃ call l, f = .unmodelledCall call l) ∨
      c.spelling.isWritten = false ∧ f = .numeralTooLong (Machine.digits.getD 0) := by
  cases hw : c.spelling.isWritten with
  | false =>
    rw [callReturn_of_not_isWritten hmodel hw] at h
    cases h
    exact .inr ⟨rfl, rfl⟩
  | true =>
    rw [callReturn, hmodel, Spelling.written_of_isWritten hw] at h
    cases hpolicy : t.settings.callReturn with
    | fail =>
      rw [hpolicy] at h
      cases h
      exact .inl ⟨rfl, _, _, rfl⟩
    | noEffect =>
      rw [hpolicy] at h
      change (record (unmodelled c l)).run (S, s) = _ at h
      rw [run_record] at h
      cases h

theorem fault_of_taintAll {seed : List Datum} (hseed : ∀ d ∈ seed, d.isWhole = true)
    (h : (seed.forM Effect.taint : Effect (Memory η) Unit).run (S, s) = .error f u) :
    ∃ d ∈ seed, LocalSet.Strays S.size d f ∨
      ∃ j : Nat, d = .int j ∧ j < S.size ∧ Machine.sets j = false ∧ f = LocalSet.refusal j := by
  induction seed generalizing S with
  | nil => cases h
  | cons d seed ih =>
    change (Effect.gen d (seed.forM Effect.taint)).run (S, s) = _ at h
    simp only [Effect.run] at h
    split at h
    · next T hT =>
      obtain ⟨k, _, rfl⟩ := Effect.gen_eq_ok.1 hT
      obtain ⟨e, he, hfault⟩ := ih (fun e he => hseed e (List.mem_cons_of_mem d he)) h
      exact ⟨e, List.mem_cons_of_mem d he, hfault⟩
    · next hfails =>
      cases h
      have hplace := Effect.place_eq_error_of_gen hfails
      exact ⟨d, List.mem_cons_self,
        LocalSet.error_of_place (hseed d List.mem_cons_self) hplace⟩

/-- Why the analysis of a body that is valid and typed and has `n` locals gives up. -/
inductive Grounds (t : Taint η) (body : Body) (n : Nat) (f : Fault) : Prop
  | seedOutOfRange {d : Datum} (mem : d ∈ t.seed) (strays : LocalSet.Strays n d f)
  | localOutOfRange {bb : BlockId} {j : Nat} {target : Datum} {sources : List Datum} {d : Datum}
    (reachable : body.Reachable bb) (rule : body.ruleAt? bb j = some (target, sources))
    (mem : d ∈ sources ++ [target]) (strays : LocalSet.Strays n d f)
  | strict (strict : t.settings.isStrict = true) (fault : ∃ detail l, f = .unsupported detail l)
  | fail (fail : t.settings.callReturn = .fail) (fault : ∃ call l, f = .unmodelledCall call l)
  | unset {j : Nat} (changed : .int j ∈ body.changed t.seed) (lt : j < n)
    (unset : Machine.sets j = false) (fault : f = LocalSet.refusal j)
  | unwritten {text : Spelling} (reported : text ∈ body.reported)
    (unwritten : text.isWritten = false) (fault : f = .numeralTooLong (Machine.digits.getD 0))

/-- None of these reasons is a malformed body. -/
theorem Grounds.nature_ne_malformedBody {n : Nat} (h : t.Grounds body n f) :
    f.nature? ≠ some .malformedBody := by
  cases h with
  | seedOutOfRange _ hstrays => simp [hstrays.nature]
  | localOutOfRange _ _ _ hstrays => simp [hstrays.nature]
  | strict _ hfault =>
    obtain ⟨_, _, rfl⟩ := hfault
    exact nofun
  | fail _ hfault =>
    obtain ⟨_, _, rfl⟩ := hfault
    exact nofun
  | unset _ _ _ hfault => simp [hfault, LocalSet.nature_refusal]
  | unwritten _ _ hfault =>
    rw [hfault]
    exact nofun

/-- What these reasons are told as. -/
theorem Grounds.told_cases {n : Nat} (h : t.Grounds body n f) :
    f.nature? = some .localIndex ∨
    (f.kind? = some .unsupportedConstruct ∧
      (t.settings.isStrict = true ∨ t.settings.callReturn = .fail)) ∨
    (∃ i : Nat, .int i ∈ body.changed t.seed ∧ Machine.sets i = false ∧ f = LocalSet.refusal i) ∨
    f.told = .numeralTooLong (Machine.digits.getD 0) ∧
      ∃ text ∈ body.reported, text.isWritten = false := by
  cases h with
  | seedOutOfRange _ hstrays => exact .inl hstrays.nature
  | localOutOfRange _ _ _ hstrays => exact .inl hstrays.nature
  | strict hstrict hfault =>
    obtain ⟨_, _, rfl⟩ := hfault
    exact .inr (.inl ⟨Fault.kind?_of_writes rfl, .inl hstrict⟩)
  | fail hfail hfault =>
    obtain ⟨_, _, rfl⟩ := hfault
    exact .inr (.inl ⟨Fault.kind?_of_writes rfl, .inr hfail⟩)
  | unset hchanged _ hunset hfault => exact .inr (.inr (.inl ⟨_, hchanged, hunset, hfault⟩))
  | unwritten hreported hunwritten hfault =>
    rw [hfault]
    exact .inr (.inr (.inr ⟨Fault.told_of_writes rfl, _, hreported, hunwritten⟩))

/-- A run over a valid and typed body gives up for a reason. -/
theorem grounds_of_solve {limits : Limits} {n : Nat} (htyped : body.IsTyped)
    (hseed : ∀ d ∈ t.seed, d.isWhole = true) (hmodel : t.settings.callModel = none)
    (hlimit : limits.maxIterations = .null) (hvalid : body.validate = .ok ())
    (hn : body.localCount = n) (h : t.analysis.solve limits body s = .error f s') :
    t.Grounds body n f := by
  have hv := Body.valid_of_validate hvalid
  have hnone : ∀ model, t.settings.callModel ≠ some model := by simp [hmodel]
  have ha : t.analysis.Stateless := analysis_stateless fun model hm => absurd hm (hnone model)
  have hm : t.analysis.Monotone := analysis_monotone fun model hm => absurd hm (hnone model)
  rcases Analysis.raisesAt_of_solve ha hm hvalid hn (bottom_eq hn) rfl hlimit h with
    ⟨u, hstart⟩ | hraises
  · change (t.seed.forM Effect.taint).run (LocalSet.empty n, _) = _ at hstart
    obtain ⟨d, hd, hstrays | ⟨j, rfl, hlt, hj, hfault⟩⟩ := fault_of_taintAll hseed hstart
    · exact .seedOutOfRange hd hstrays
    · exact .unset (.inl hd) hlt hj hfault
  · cases hraises with
    | @instruction bb b j i S s u hbb hb hi hsize hrun =>
      have hblock := Body.mem_blocks (hv.hasBlock_of_reachable hbb) hb
      have hmem := List.mem_of_getElem? hi
      have hof : i ∈ body.instructionsOf bb := by rwa [Body.instructionsOf_eq hb]
      cases obstructs_of_instruction (List.all_eq_true.1 (htyped b hblock) i hmem) hrun with
      | stray hflow hd hstrays =>
        refine .localOutOfRange hbb ((Body.ruleAt?_eq_some hb).2 ⟨i, hi, hflow⟩) ?_
          (hsize ▸ hstrays)
        exact List.mem_append.2 ((List.mem_append.1 hd).imp_left LocalSet.mem_of_mem_asked)
      | strict hstrict hfault => exact .strict hstrict hfault
      | unset hflow hlt hj hfault =>
        exact .unset (.inr ⟨bb, hbb, i, hof, _, hflow⟩) (hsize ▸ hlt) hj hfault
      | unwritten hr hw hfault => exact .unwritten ⟨bb, hbb, .inl ⟨i, hof, _, hr, rfl⟩⟩ hw hfault
    | @callReturn bb succ b c S s u hbb hb hcall hsize hrun =>
      rcases fault_of_callReturn hmodel hrun with ⟨hfail, hfault⟩ | ⟨hw, hfault⟩
      · exact .fail hfail hfault
      · exact .unwritten ⟨bb, hbb, .inr ⟨b, succ, c, hb, hcall, rfl⟩⟩ hw hfault

/-! ### What a run that returns has needed -/

theorem sets_of_taintAll {seed : List Datum} {T : LocalSet}
    (h : (seed.forM Effect.taint : Effect (Memory η) Unit).run (S, s) = .ok () (T, s')) {j : Nat}
    (hj : .int j ∈ seed) : Machine.sets j = true := by
  induction seed generalizing S with
  | nil => cases hj
  | cons d seed ih =>
    obtain ⟨k, hk, hrest⟩ := Effect.run_gen_eq_ok.1 h
    rcases List.mem_cons.1 hj with rfl | hj
    · obtain ⟨hjk, hsets⟩ := LocalSet.place_eq_ok_iff.1 hk
      rw [Datum.int.injEq, Int.natCast_inj] at hjk
      rw [hjk, hsets]
    · exact ih hrest hj

/-- A run that has returned was feasible. -/
theorem feasible_of_solved {limits : Limits} {bottom start : LocalSet}
    {s₀ s₁ s₂ : Session (Memory η)} {table : List (List BlockId)} {p : Progress}
    (htyped : body.IsTyped) (hmodel : t.settings.callModel = none)
    (hrun : t.analysis.Solved limits body s₀ bottom start s₁ table p s₂) :
    body.Feasible t.seed := by
  have ha : t.analysis.Stateless := analysis_stateless fun model hm => by simp [hmodel] at hm
  obtain ⟨_, hpost⟩ := hrun.postFixedPoint ha
  -- every reachable block has been replayed, and with it each of its instructions
  have hinstruction : ∀ bb, body.Reachable bb → ∀ i ∈ body.instructionsOf bb, i.Feasible := by
    intro bb hbb i hi
    have hblock := hrun.valid.hasBlock_of_reachable hbb
    obtain ⟨b, hb⟩ := hrun.valid.exists_block hblock
    rw [Body.instructionsOf_eq hb] at hi
    obtain ⟨exit, hexit, _⟩ := hpost.exit_le hbb
    rw [Analysis.replay_zero_none hb] at hexit
    obtain ⟨s', hs'⟩ := hexit s₀
    refine feasible_of_replayFrom (j := 0) hb
      (List.all_eq_true.1 (htyped b (Body.mem_blocks hblock hb))) (by omega) hs' i ?_
    rwa [List.drop_zero, List.take_length]
  constructor
  · rintro j (hj | ⟨bb, hbb, i, hi, sources, hflow⟩)
    · exact sets_of_taintAll (s := ⟨_, _⟩) hrun.start_eq hj
    · exact (hinstruction bb hbb i hi).sets j sources hflow
  · rintro text ⟨bb, hbb, ⟨i, hi, rvalue, hr, rfl⟩ | ⟨b, succ, c, hb, hc, rfl⟩⟩
    · exact (hinstruction bb hbb i hi).writes rvalue hr
    · obtain ⟨flow, hflow, _⟩ := hpost.flow_le hbb (Body.edge_of_call hb hc.1 hc.2)
      exact isWritten_of_edgeState hmodel hb hc (hflow s₀).choose_spec

end Taint

/-! ### Analysing a body -/

section

variable [Machine] {η : Type} {body : Body} {seed : List Datum} {settings : Settings η}
  {s s' : Session (Taint.Memory η)} {f : Fault}

theorem analyze_of_invalid (h : body.validate = .error f) (seed : List Datum)
    (settings : Settings η) (s : Session (Taint.Memory η)) :
    ∃ s', analyze body seed settings s = .error f s' := by
  have hsolve : ∀ s, (Taint.mk seed settings).analysis.solve settings.toLimits body s =
      .error f s := fun s => estate_bind_of_error (Run.ofExcept_eq_error.2 ⟨h, rfl⟩)
  exact ⟨_, (estate_bind_of_ok rfl).trans (estate_bind_of_error (hsolve _))⟩

theorem grounds_of_analyze {n : Nat} (htyped : body.IsTyped) (hseed : ∀ d ∈ seed, d.isWhole = true)
    (hmodel : settings.callModel = none) (hlimit : settings.maxIterations = .null)
    (hvalid : body.validate = .ok ()) (hn : body.localCount = n)
    (h : analyze body seed settings s = .error f s') :
    (Taint.mk seed settings).Grounds body n f :=
  Taint.grounds_of_solve htyped hseed hmodel hlimit hvalid hn (solve_eq_error_of_analyze h)

theorem feasible_of_analyze (htyped : body.IsTyped) (hmodel : settings.callModel = none)
    {r : Results (Taint.Memory η)} (h : analyze body seed settings s = .ok r s') :
    body.Feasible seed := by
  obtain ⟨r₀, hr₀, _⟩ := analyze_eq_ok.1 h
  obtain ⟨_, _, _, _, _, _, hrun, _⟩ := Analysis.solved_of_solve hr₀
  exact Taint.feasible_of_solved (t := ⟨seed, settings⟩) htyped hmodel hrun

theorem analyze_ok_or_error (body : Body) (seed : List Datum) (settings : Settings η)
    (s : Session (Taint.Memory η)) : (∃ r s', analyze body seed settings s = .ok r s') ∨
      ∃ f s', analyze body seed settings s = .error f s' := by
  cases h : analyze body seed settings s with
  | ok r s' => exact .inl ⟨r, s', rfl⟩
  | error f s' => exact .inr ⟨f, s', rfl⟩

/-- An analysis that would change a local which the machine does not set fails. -/
theorem exists_error_of_unset (htyped : body.IsTyped) (hmodel : settings.callModel = none) {i : Nat}
    (hchanged : .int i ∈ body.changed seed) (hunset : Machine.sets i = false)
    (s : Session (Taint.Memory η)) : ∃ f s', analyze body seed settings s = .error f s' := by
  refine (analyze_ok_or_error body seed settings s).resolve_left ?_
  rintro ⟨r, s', h⟩
  rw [(feasible_of_analyze htyped hmodel h).sets i hchanged] at hunset
  cases hunset

/-- If nothing is out of range and the settings refuse nothing, the analysis returns or comes to
something that the machine refuses. -/
theorem analyze_ok_or_refused (hbody : body.WellFormed)
    (hseed : ∀ d ∈ seed, d.isLocal body.localCount = true)
    (hlenient : (Taint.mk seed settings).Lenient) (hlimit : settings.maxIterations = .null)
    (s : Session (Taint.Memory η)) : (∃ r s', analyze body seed settings s = .ok r s') ∨
      ∃ f s', analyze body seed settings s = .error f s' ∧
        ((∃ j : Nat, .int j ∈ body.changed seed ∧ Machine.sets j = false ∧
            f = LocalSet.refusal j) ∨
          ∃ text ∈ body.reported, text.isWritten = false) := by
  refine (analyze_ok_or_error body seed settings s).imp_right ?_
  rintro ⟨f, s', h⟩
  refine ⟨f, s', h, ?_⟩
  have hv := Body.valid_of_validate hbody.validate
  obtain ⟨n, hn⟩ := Int.eq_ofNat_of_zero_le hv.localCount_nonneg
  have hrange {d : Datum} (hd : d.isLocal body.localCount = true) :
      ¬LocalSet.Strays n d f := by
    intro hstrays
    have hout := hstrays.out
    rw [show (n : Int) = body.localCount from hn.symm, hd] at hout
    cases hout
  have hwhole : ∀ d ∈ seed, d.isWhole = true := fun d hd => Datum.isWhole_of_isLocal (hseed d hd)
  cases grounds_of_analyze hbody.isTyped hwhole hlenient.callModel hlimit hbody.validate hn h with
  | seedOutOfRange hd hstrays => exact absurd hstrays (hrange (hseed _ hd))
  | localOutOfRange hbb hrule hd hstrays =>
    obtain ⟨htarget, hsources⟩ := hbody.isLocal_of_ruleAt hbb hrule
    rcases List.mem_append.1 hd with hd | hd
    · exact absurd hstrays (hrange (hsources _ hd))
    · rw [List.mem_singleton.1 hd] at hstrays
      exact absurd hstrays (hrange htarget)
  | strict hstrict =>
    rw [hlenient.strict] at hstrict
    cases hstrict
  | fail hfail =>
    rw [hlenient.callReturn] at hfail
    cases hfail
  | unset hchanged _ hunset hfault => exact .inl ⟨_, hchanged, hunset, hfault⟩
  | unwritten hreported hunwritten => exact .inr ⟨_, hreported, hunwritten⟩

/-- Such an analysis returns exactly if it is feasible. -/
theorem analyze_returns_iff (hbody : body.WellFormed)
    (hseed : ∀ d ∈ seed, d.isLocal body.localCount = true)
    (hlenient : (Taint.mk seed settings).Lenient) (hlimit : settings.maxIterations = .null)
    (s : Session (Taint.Memory η)) :
    (∃ r s', analyze body seed settings s = .ok r s') ↔ body.Feasible seed := by
  constructor
  · rintro ⟨r, s', h⟩
    exact feasible_of_analyze hbody.isTyped hlenient.callModel h
  · intro hfeasible
    refine (analyze_ok_or_refused hbody hseed hlenient hlimit s).resolve_right ?_
    rintro ⟨f, s', _, ⟨j, hchanged, hunset, _⟩ | ⟨text, hreported, hunwritten⟩⟩
    · rw [hfeasible.sets j hchanged] at hunset
      cases hunset
    · rw [hfeasible.writes text hreported] at hunwritten
      cases hunwritten

/-- If the only local to be changed is one that the machine does not set, and there is nothing to be
reported, the analysis fails with its refusal. -/
theorem analyze_of_unset (hbody : body.WellFormed)
    (hseed : ∀ d ∈ seed, d.isLocal body.localCount = true)
    (hlenient : (Taint.mk seed settings).Lenient) (hlimit : settings.maxIterations = .null)
    {i : Nat} (hunset : Machine.sets i = false)
    (hchanged : ∀ j : Nat, .int j ∈ body.changed seed ↔ j = i)
    (hreported : ∀ text, text ∉ body.reported) (s : Session (Taint.Memory η)) :
    ∃ s', analyze body seed settings s = .error (LocalSet.refusal i) s' := by
  rcases analyze_ok_or_refused hbody hseed hlenient hlimit s with
    ⟨r, s', h⟩ | ⟨f, s', h, ⟨j, hj, _, rfl⟩ | ⟨text, htext, _⟩⟩
  · have hfeasible := feasible_of_analyze hbody.isTyped hlenient.callModel h
    rw [hfeasible.sets i ((hchanged i).2 rfl)] at hunset
    cases hunset
  · cases (hchanged j).1 hj
    exact ⟨s', h⟩
  · exact absurd htext (hreported text)

/-- A fault of a kind is told as a report of that kind, or it has a number that is not written. -/
theorem kind_or_unwritten {kind : Report.Kind} (h : f.nature? = some kind) :
    f.kind? = some kind ∨ f.told = .numeralTooLong (Machine.digits.getD 0) ∧
      ∃ n ∈ f.numerals, Machine.writes n = false := by
  cases hw : f.numerals.all Machine.writes with
  | true => exact .inl ((Fault.kind?_of_writes hw).trans h)
  | false =>
    obtain ⟨n, hn, hfalse⟩ := List.all_eq_false.1 hw
    exact .inr ⟨Fault.told_of_not_writes hw, n, hn, Bool.eq_false_iff.2 hfalse⟩

/-- How the analysis of a typed body ends. It returns, or it gives up because the body is malformed,
because a local is out of range, because the settings refuse what has no rule, or because the
machine refuses something: to set a local that is to be changed, or to write a number that is to be
reported or that the message would have. It finds the body malformed exactly if it is. If nothing is
wrong with body, seed and settings, it returns exactly if it is feasible. -/
theorem analyze_outcome (htyped : body.IsTyped) (hseed : ∀ d ∈ seed, d.isWhole = true)
    (hmodel : settings.callModel = none) (hlimit : settings.maxIterations = .null)
    (s : Session (Taint.Memory η)) :
    ((∃ r s', analyze body seed settings s = .ok r s') ∨
      ∃ f s', analyze body seed settings s = .error f s' ∧
        (f.kind? = some .malformedBody ∨ f.kind? = some .localIndex ∨
          (f.kind? = some .unsupportedConstruct ∧
            (settings.isStrict = true ∨ settings.callReturn = .fail)) ∨
          (∃ i : Nat, .int i ∈ body.changed seed ∧ Machine.sets i = false ∧
            f = LocalSet.refusal i) ∨
          f.told = .numeralTooLong (Machine.digits.getD 0) ∧
            ((∃ text ∈ body.reported, text.isWritten = false) ∨
              (f.nature? = some .malformedBody ∨ f.nature? = some .localIndex) ∧
                ∃ n ∈ f.numerals, Machine.writes n = false))) ∧
    ((∃ f s', analyze body seed settings s = .error f s' ∧ f.nature? = some .malformedBody) ↔
      body.Malformed) ∧
    (body.WellFormed → (∀ d ∈ seed, d.isLocal body.localCount = true) →
      settings.isStrict = false → settings.callReturn = .noEffect →
      ((∃ r s', analyze body seed settings s = .ok r s') ↔ body.Feasible seed)) := by
  refine ⟨?_, ?_, ?_⟩
  · refine (analyze_ok_or_error body seed settings s).imp_right ?_
    rintro ⟨f, s', h⟩
    refine ⟨f, s', h, ?_⟩
    cases hvalid : body.validate with
    | error f' =>
      obtain ⟨s'', hinvalid⟩ := analyze_of_invalid hvalid seed settings s
      cases h.symm.trans hinvalid
      have hnature := htyped.nature_of_validate hvalid
      rcases kind_or_unwritten hnature with hkind | ⟨htold, hunwritten⟩
      · exact .inl hkind
      · exact .inr (.inr (.inr (.inr ⟨htold, .inr ⟨.inl hnature, hunwritten⟩⟩)))
    | ok =>
      obtain ⟨n, hn⟩ :=
        Int.eq_ofNat_of_zero_le (Body.valid_of_validate hvalid).localCount_nonneg
      have hgrounds := grounds_of_analyze htyped hseed hmodel hlimit hvalid hn h
      rcases hgrounds.told_cases with hnature | hunsupported | hunset | ⟨htold, hunwritten⟩
      · rcases kind_or_unwritten hnature with hkind | ⟨htold, hunwritten⟩
        · exact .inr (.inl hkind)
        · exact .inr (.inr (.inr (.inr ⟨htold, .inr ⟨.inr hnature, hunwritten⟩⟩)))
      · exact .inr (.inr (.inl hunsupported))
      · exact .inr (.inr (.inr (.inl hunset)))
      · exact .inr (.inr (.inr (.inr ⟨htold, .inl hunwritten⟩)))
  · rw [htyped.malformed_iff]
    constructor
    · rintro ⟨f, s', h, hnature⟩ hv
      obtain ⟨n, hn⟩ := Int.eq_ofNat_of_zero_le hv.localCount_nonneg
      have hgrounds := grounds_of_analyze htyped hseed hmodel hlimit hv.validate hn h
      exact hgrounds.nature_ne_malformedBody hnature
    · intro hinvalid
      cases hvalid : body.validate with
      | ok => exact absurd (Body.valid_of_validate hvalid) hinvalid
      | error f =>
        obtain ⟨s', h⟩ := analyze_of_invalid hvalid seed settings s
        exact ⟨f, s', h, htyped.nature_of_validate hvalid⟩
  · intro hbody hrange hstrict hpolicy
    exact analyze_returns_iff hbody hrange ⟨hstrict, hmodel, hpolicy⟩ hlimit s

def stray : Body :=
  ⟨2, [⟨[.assign (.int 1) (.use (.copy (.int (-1))))], .ret⟩, ⟨[.nop], .goto 0⟩], "stray"⟩

end

attribute [local instance] Machine.ample in
theorem analyze_outcome_stray :
    stray.IsTyped ∧
      (∃ f s', analyze stray [.int 0] { strict := .bool true } ⟨⟨{}, ()⟩, []⟩ = .error f s' ∧
        f.kind? = some .localIndex) ∧
      ¬stray.Malformed := by
  have htyped : stray.IsTyped := by
    unfold Body.IsTyped
    decide
  have hseed : ∀ d ∈ [Datum.int 0], d.isWhole = true := by decide
  have hmodel : ({ strict := .bool true } : Settings Unit).callModel = none := rfl
  obtain ⟨_, hmalformed, _⟩ := analyze_outcome htyped hseed hmodel rfl ⟨⟨{}, ()⟩, []⟩
  obtain ⟨f, s', h, hkind, hnature⟩ : ∃ f s', analyze stray [.int 0] { strict := .bool true }
      ⟨⟨{}, ()⟩, []⟩ = .error f s' ∧ f.kind? = some .localIndex ∧ f.nature? = some .localIndex :=
    ⟨_, _, by cbv, by cbv, by cbv⟩
  refine ⟨htyped, ⟨f, s', h, hkind⟩, fun hstray => ?_⟩
  obtain ⟨g, t, hg, hgkind⟩ := hmalformed.2 hstray
  cases h.symm.trans hg
  simp [hnature] at hgkind

def distant : Body :=
  ⟨2361183241434822606848,
    [⟨[.assign (.int 1180591620717411303424) (.use (.constant (.int 0)))], .ret⟩], "<body>"⟩

theorem not_mem_reported_distant (text : Spelling) : text ∉ distant.reported := by
  intro htext
  have hvalid : distant.Valid := Body.valid_of_validate (by cbv)
  obtain ⟨b, hb, ⟨i, hi, rvalue, hr, _⟩ | ⟨c, hc, _⟩⟩ := hvalid.cases_of_reported htext
  · cases List.mem_singleton.1 hb
    rcases List.mem_pair.1 hi with rfl | rfl <;> cases hr
  · cases List.mem_singleton.1 hb
    cases hc

theorem mem_changed_distant (j : Nat) :
    .int j ∈ distant.changed [] ↔ j = 1180591620717411303424 := by
  constructor
  · intro hj
    have hvalid : distant.Valid := Body.valid_of_validate (by cbv)
    rcases hvalid.cases_of_changed hj with hj | ⟨b, hb, i, hi, sources, hflow⟩
    · cases hj
    · cases List.mem_singleton.1 hb
      rcases List.mem_pair.1 hi with rfl | rfl
      · exact Int.ofNat_inj.1 (Datum.int.inj (Prod.mk.inj (Option.some.inj hflow)).1).symm
      · cases hflow
  · rintro rfl
    exact .inr ⟨0, Body.Reachable.entry, _, List.mem_cons_self, [], rfl⟩

/-- With every local in range, a body can still be too large to be analysed. -/
theorem analyze_fails_distant :
    distant.WellFormed ∧ ∀ [Machine], Fault.tooManyDigits.kind? = none ∧
      ∃ s', analyze distant [] {} ⟨⟨{}, ()⟩, []⟩ = .error .tooManyDigits s' := by
  have hbody : distant.WellFormed := ⟨by cbv, by decide⟩
  refine ⟨hbody, ?_⟩
  intro _
  refine ⟨rfl, ?_⟩
  exact analyze_of_unset hbody (by simp) ⟨rfl, rfl, rfl⟩ rfl
    (Machine.sets_of_not_addresses (by decide)) mem_changed_distant not_mem_reported_distant _

end MayTaint
