import MayTaint.Proofs.Explanation
import MayTaint.Proofs.FailedSeeks
import MayTaint.Proofs.Taint.Outcomes

/-!
Which locals out of range are noticed. A rule asks about its sources in turn and stops at the first
one that is tainted, so that the right operand of a binary operation is not looked at beside a
tainted left one. Its target is set or cleared in any case. A statement is therefore refused because
of a local out of range exactly if this is its target or a source that it asks about.

Of a whole run this leaves two certainties. If the target or the first source of a rule in a
reachable block is out of range, the run never returns, whatever its seed is; and if it returns,
then all that it can have overlooked are right operands beside left ones that its results show to be
tainted. In between the seed decides.
-/

namespace MayTaint

namespace LocalSet

variable {S : LocalSet} {d : Datum} {f : Fault} {b : Bool}

def firstStray? (S : LocalSet) (ds : List Datum) : Option Datum :=
  ds.find? fun d => !d.isLocal S.size

theorem firstStray?_eq_none {ds : List Datum} :
    S.firstStray? ds = none ↔ ∀ d ∈ ds, d.isLocal S.size = true := by
  simp [firstStray?]

theorem firstStray?_append {ds es : List Datum} :
    S.firstStray? (ds ++ es) = (S.firstStray? ds).or (S.firstStray? es) :=
  List.find?_append

theorem index_of_stray {i : Int} (hout : (Datum.int i).isLocal S.size = false) :
    S.index (.int i) = .error (.localOutOfRange i S.size) := by
  rw [Datum.isLocal, ← Bool.decide_and, decide_eq_false_iff_not] at hout
  rw [index, dif_neg hout]

theorem contains_of_stray {i : Int} (hout : (Datum.int i).isLocal S.size = false) :
    S.contains (.int i) = .error (.localOutOfRange i S.size) :=
  except_bind_eq_error.2 (.inl (index_of_stray hout))

/-- What is out of range is refused as such, also if the machine does not set it. -/
theorem place_of_stray [Machine] {i : Int} (hout : (Datum.int i).isLocal S.size = false) :
    S.place (.int i) = .error (.localOutOfRange i S.size) :=
  except_bind_eq_error.2 (.inl (index_of_stray hout))

end LocalSet

/-- An operand reads at most one local, which is asked about. -/
theorem Operand.asked_locals (S : LocalSet) (o : Operand) : S.asked o.locals = o.locals := by
  cases o <;> simp [locals, LocalSet.asked]

namespace Instruction

variable {i : Instruction} {target d : Datum} {sources : List Datum} {S : LocalSet}

/-- Only the right operand of a binary operation is passed over, beside a left one that is
tainted. -/
theorem exists_left_of_not_asked (hflow : i.flow? = some (target, sources)) (hd : d ∈ sources)
    (hpassed : d ∉ S.asked sources) :
    ∃ op lhs rhs, i = .statement (.assign target (.binary op lhs rhs)) ∧ d ∈ rhs.locals ∧
      ∃ e ∈ lhs.locals, S.holds e = true := by
  obtain ⟨rvalue, rfl, hsources⟩ := exists_assign_of_flow hflow
  cases rvalue with
  | use operand =>
    cases hsources
    rw [operand.asked_locals] at hpassed
    exact absurd hd hpassed
  | unary op operand =>
    have hlocals : sources = operand.locals := by
      cases operand <;> cases hsources <;> rfl
    rw [hlocals, operand.asked_locals, ← hlocals] at hpassed
    exact absurd hd hpassed
  | binary op lhs rhs =>
    cases hsources
    have hone : lhs.locals = [] ∨ ∃ e, lhs.locals = [e] := by
      cases lhs <;> simp [Operand.locals]
    rcases hone with hnone | ⟨e, hleft⟩
    · rw [hnone, List.nil_append, rhs.asked_locals] at hpassed
      rw [hnone, List.nil_append] at hd
      exact absurd hd hpassed
    · rw [hleft, List.singleton_append] at hd hpassed
      cases hholds : S.holds e with
      | true =>
        rw [LocalSet.asked_cons_of_holds hholds, List.mem_singleton] at hpassed
        refine ⟨op, lhs, rhs, rfl, (List.mem_cons.1 hd).resolve_left hpassed, e, ?_, hholds⟩
        rw [hleft]
        exact List.mem_singleton_self e
      | false =>
        rw [LocalSet.asked_cons_of_not_holds hholds, rhs.asked_locals] at hpassed
        exact absurd hd hpassed
  | _ => cases hsources

end Instruction

theorem Fault.kind?_localOutOfRange_iff [Machine] {i : Int} {n : Nat} :
    (Fault.localOutOfRange i n).kind? = some .localIndex ↔
      Machine.writes i = true ∧ Machine.writes n = true := by
  have hnumerals : (Fault.localOutOfRange i n).numerals.all Machine.writes =
      (Machine.writes i && Machine.writes n) := by
    rw [show (Fault.localOutOfRange i n).numerals = [i, n] from rfl]
    simp
  rw [← Bool.and_eq_true_iff, ← hnumerals]
  cases hw : (Fault.localOutOfRange i n).numerals.all Machine.writes with
  | true => exact iff_of_true (kind?_of_writes hw) rfl
  | false => simp [kind?_of_not_writes hw]

namespace Taint

variable [Machine] {η : Type} {t : Taint η} {body : Body} {st : Statement} {i : Instruction}
  {l : Location} {target : Datum} {sources : List Datum} {S T : LocalSet}
  {s s' : Session (Memory η)}

theorem run_anyTainted_of_stray {i : Int} (h : S.firstStray? (S.asked sources) = some (.int i)) :
    (Rules.anyTainted sources).run (S, s) = .error (.localOutOfRange i S.size) (S, s) := by
  induction sources with
  | nil => cases h
  | cons d sources ih =>
    cases hd : d.isLocal S.size with
    | false =>
      obtain ⟨rest, hrest⟩ : ∃ rest, S.asked (d :: sources) = d :: rest := by
        rw [LocalSet.asked]
        split <;> exact ⟨_, rfl⟩
      rw [hrest, LocalSet.firstStray?, List.find?_cons, hd, Bool.not_false] at h
      cases h
      have hcontains : Accumulator.contains S (.int i) = .error (.localOutOfRange i S.size) :=
        LocalSet.contains_of_stray hd
      simp only [Rules.anyTainted, Effect.run, hcontains]
    | true =>
      obtain ⟨b, hb⟩ := LocalSet.exists_contains hd
      have hholds := LocalSet.holds_of_contains hb
      have hcontains : Accumulator.contains S d = .ok b := hb
      simp only [Rules.anyTainted, Effect.run, hcontains]
      cases b with
      | true =>
        rw [LocalSet.asked_cons_of_holds hholds, LocalSet.firstStray?, List.find?_cons, hd] at h
        cases h
      | false =>
        rw [LocalSet.asked_cons_of_not_holds hholds, LocalSet.firstStray?, List.find?_cons, hd] at h
        exact ih h

theorem run_setTaint_of_stray {b : Bool} {i : Int} (h : (Datum.int i).isLocal S.size = false) :
    ∃ u, (Effect.setTaint b (.int i)).run (S, s) = .error (.localOutOfRange i S.size) u := by
  cases hset : (Effect.setTaint b (.int i)).run (S, s) with
  | ok _ u =>
    obtain ⟨j, hj, _⟩ := Effect.run_setTaint_eq_ok.1 hset
    rw [LocalSet.place_of_stray h] at hj
    cases hj
  | error f u =>
    cases (LocalSet.place_of_stray h).symm.trans (place_of_setTaint hset)
    exact ⟨u, rfl⟩

/-- A rule gives up at the first local out of range among the sources that it asks about, in their
order, and its target. -/
theorem run_eq_localOutOfRange_iff (hst : (Instruction.statement st).isTyped = true)
    (hflow : (Instruction.statement st).flow? = some (target, sources))
    (report : Reporter (Memory η)) (l : Location) (S : LocalSet) (s : Session (Memory η))
    (i : Int) :
    (∃ u, (Rules.statement report st l).run (S, s) = .error (.localOutOfRange i S.size) u) ↔
      S.firstStray? (S.asked sources ++ [target]) = some (.int i) := by
  obtain ⟨htarget, hsources⟩ := Instruction.isWhole_of_flow hst hflow
  rw [Rules.statement_eq, Rules.verdict_of_flow hst hflow, Rules.Verdict.effect, Effect.run_bind,
    LocalSet.firstStray?_append]
  cases hasked : S.firstStray? (S.asked sources) with
  | some d =>
    have hwhole := hsources d (LocalSet.mem_of_mem_asked (List.mem_of_find?_eq_some hasked))
    obtain ⟨j, rfl⟩ := Datum.isWhole_iff.1 hwhole
    rw [estate_bind_of_error (run_anyTainted_of_stray hasked)]
    simp
  | none =>
    -- the sources are answered for, so that it is the target
    have hask := Rules.run_anyTainted_iff (s := s) |>.2 fun d hd =>
      LocalSet.exists_contains (LocalSet.firstStray?_eq_none.1 hasked d hd)
    rw [estate_bind_of_ok hask, Option.none_or]
    obtain ⟨j, rfl⟩ := Datum.isWhole_iff.1 htarget
    cases hj : (Datum.int j).isLocal S.size with
    | false =>
      obtain ⟨u, hu⟩ := run_setTaint_of_stray (b := sources.any S.holds) (s := s) hj
      rw [hu, LocalSet.firstStray?, List.find?_cons, hj]
      simp
    | true =>
      rw [LocalSet.firstStray?, List.find?_cons, hj]
      constructor
      · rintro ⟨u, hu⟩
        rcases LocalSet.error_of_place htarget (place_of_setTaint hu) with
          hstrays | ⟨_, _, _, _, h⟩
        · rw [hstrays.out] at hj
          cases hj
        · rw [LocalSet.refusal] at h
          split at h <;> cases h
      · intro h
        cases h

/-- A rule is refused for a local out of range exactly if there is a first one that it comes to and
the message about it can be written. -/
theorem refused_iff (hst : (Instruction.statement st).isTyped = true)
    (hflow : (Instruction.statement st).flow? = some (target, sources))
    (report : Reporter (Memory η)) (l : Location) (S : LocalSet) (s : Session (Memory η)) :
    (∃ f u, (Rules.statement report st l).run (S, s) = .error f u ∧ f.kind? = some .localIndex) ↔
      ∃ i : Int, S.firstStray? (S.asked sources ++ [target]) = some (.int i) ∧
        Machine.writes i = true ∧ Machine.writes S.size = true := by
  simp only [← run_eq_localOutOfRange_iff hst hflow report l S s]
  constructor
  · rintro ⟨f, u, h, hkind⟩
    obtain ⟨htarget, hsources⟩ := Instruction.isWhole_of_flow hst hflow
    have hrule := h
    rw [Rules.statement_eq, Rules.verdict_of_flow hst hflow] at hrule
    rcases fault_of_flow htarget hsources hrule with ⟨d, _, hstrays⟩ | ⟨j, _, _, _, rfl⟩
    · obtain ⟨i, _, rfl⟩ := hstrays.fault
      exact ⟨i, ⟨u, h⟩, Fault.kind?_localOutOfRange_iff.1 hkind⟩
    · rw [LocalSet.kind?_refusal] at hkind
      cases hkind
  · rintro ⟨i, ⟨u, h⟩, hwrites⟩
    exact ⟨_, u, h, Fault.kind?_localOutOfRange_iff.2 hwrites⟩

/-- What a rule that has been applied named as its target, or asked about, is in range. -/
theorem isLocal_of_run (hi : i.isTyped = true) (hflow : i.flow? = some (target, sources))
    (h : (t.analysis.instruction i l).run (S, s) = .ok () (T, s')) :
    target.isLocal S.size = true ∧ ∀ d ∈ S.asked sources, d.isLocal S.size = true := by
  obtain ⟨rvalue, rfl, _⟩ := Instruction.exists_assign_of_flow hflow
  obtain ⟨htarget, hsources⟩ := Instruction.isWhole_of_flow hi hflow
  change (Rules.statement t.reporter (.assign target rvalue) l).run (S, s) = _ at h
  have hnone : S.firstStray? (S.asked sources ++ [target]) = none := by
    rw [Option.eq_none_iff_forall_ne_some]
    intro d hd
    have hwhole : d.isWhole = true := by
      rcases List.mem_append.1 (List.mem_of_find?_eq_some hd) with hmem | hmem
      · exact hsources d (LocalSet.mem_of_mem_asked hmem)
      · rw [List.mem_singleton.1 hmem]
        exact htarget
    obtain ⟨j, rfl⟩ := Datum.isWhole_iff.1 hwhole
    obtain ⟨u, hfails⟩ := (run_eq_localOutOfRange_iff hi hflow t.reporter l S s j).2 hd
    rw [h] at hfails
    cases hfails
  obtain ⟨hasked, htarget⟩ := List.forall_mem_append.1 (LocalSet.firstStray?_eq_none.1 hnone)
  exact ⟨htarget target List.mem_cons_self, hasked⟩

end Taint

/-! ### Whole runs -/

section

variable [Machine] {σ : Type} {a : Analysis σ} {limits : Limits} {body : Body} {bb : BlockId}
  {exit : LocalSet} {s s' : Session σ} {r : Results σ}

theorem Analysis.size_of_solve {bottom : LocalSet} (hbottom : a.bottom body = .ok bottom)
    (h : a.solve limits body s = .ok r s') (hexit : r.exits.get? bb = some exit) :
    exit.size = bottom.size := by
  obtain ⟨bottom', start, s₁, table, p, s₂, hrun, _, _, _, hexits, _⟩ := solved_of_solve h
  cases hbottom.symm.trans hrun.bottom_eq
  obtain ⟨limit, allowed, hiterate⟩ := hrun.iterate_eq
  obtain ⟨hsize, _⟩ := Solver.iterate_induct
    (fun p _ => ∀ bb exit, p.exits.get? bb = some exit → exit.size = bottom.size)
    (fun {_ _ _ _ _ _ _ _} hs hp b x hx => by
      rw [hs.exits] at hx
      split at hx
      · cases hx
        exact hs.size_eq fun _ => size_base hbottom rfl hrun.start_eq
      · exact hp b x hx)
    hiterate fun _ _ hx => by cases hx
  rw [hexits] at hexit
  exact hsize bb exit hexit

theorem Analysis.Replayed.size_eq {is : List Instruction} {S T : LocalSet} {k : Nat}
    (h : a.Replayed bb is S k T) (s : Session σ) : T.size = S.size := by
  induction h with
  | entry => rfl
  | step _ _ hrun ih =>
    obtain ⟨_, hs⟩ := hrun s
    exact (Effect.size_run hs).trans ih

end

section

variable [Machine] {η : Type} {body : Body} {seed : List Datum} {settings : Settings η}
  {s s' : Session (Taint.Memory η)}

/-- A rule in a block that can be reached names a local that is out of range. -/
def Body.Misnames (body : Body) (i : Int) : Prop :=
  ∃ bb j target sources, body.Reachable bb ∧ body.ruleAt? bb j = some (target, sources) ∧
    .int i ∈ sources ++ [target] ∧ (Datum.int i).isLocal body.localCount = false

/-- If an analysis returns, then every rule that it has come to names a target in range, and so is
all that the rule asks about in the state before it. -/
theorem isLocal_of_analyze (htyped : body.IsTyped) {r : Results (Taint.Memory η)}
    (h : analyze body seed settings s = .ok r s') {bb : BlockId} (hbb : body.Reachable bb) {j : Nat}
    {target : Datum} {sources : List Datum} (hrule : body.ruleAt? bb j = some (target, sources)) :
    ∃ S, Run.Yields (r.stateBefore ⟨bb, j⟩) S ∧ target.isLocal body.localCount = true ∧
      ∀ d ∈ S.asked sources, d.isLocal body.localCount = true := by
  obtain ⟨r₀, hr₀, rfl⟩ := analyze_eq_ok.1 h
  obtain ⟨_, _, _, _, _, _, hrun, rfl, _⟩ := Analysis.solved_of_solve hr₀
  obtain ⟨n, hn⟩ := Int.eq_ofNat_of_zero_le hrun.valid.localCount_nonneg
  have hbottom : ∀ t : Taint η, t.analysis.bottom r₀.body = .ok (.empty n) := fun t =>
    Taint.bottom_eq hn
  have hvisited := (Analysis.mem_blocks_of_solve hr₀ bb).1.2 hbb
  obtain ⟨exit, hexit⟩ := Option.isSome_iff_exists.1 (Table.mem_blocks.1 hvisited)
  -- the block has been replayed, and with it the rule
  have hkept : Results.Kept { r₀ with analysis := (Taint.mk seed settings).quiet.analysis } :=
    .taint (estate_bind_eq_ok.2 ⟨r₀, s', hr₀, rfl⟩)
  obtain ⟨hblock, b, entry, hb, hentry, hfull⟩ := hkept.replayed hexit
  obtain ⟨i, hi, hflow⟩ := (Body.ruleAt?_eq_some hb).1 hrule
  have hlt := (List.getElem?_eq_some_iff.1 hi).1
  obtain ⟨S, hS⟩ := hfull.exists_of_le hlt.le
  obtain ⟨_, hturns⟩ := hS.exists_turns s hfull hlt hi
  obtain ⟨_, happlied⟩ := hturns s
  have hsize : S.size = n := by
    rw [hS.size_eq s, ← hfull.size_eq s]
    exact Analysis.size_of_solve (hbottom _) hr₀ hexit
  have hityped : i.isTyped = true :=
    List.all_eq_true.1 (htyped b (Body.mem_blocks hblock hb)) i (List.mem_of_getElem? hi)
  obtain ⟨htarget, hasked⟩ := Taint.isLocal_of_run hityped hflow happlied
  rw [hsize, ← hn] at htarget hasked
  refine ⟨S, Results.stateBefore_yields hblock hb ?_ hlt hS, htarget, hasked⟩
  rw [Results.entrySet, Results.stateIn_eq hblock hb (hbottom _), hentry, Option.getD_some]

/-- An analysis without strictness gives up because a rule that it has come to names a local out of
range, or because the machine refuses something. -/
theorem misnames_or_refused (htyped : body.IsTyped) (hvalid : body.validate = .ok ())
    (hseed : ∀ d ∈ seed, d.isLocal body.localCount = true)
    (hlenient : (Taint.mk seed settings).Lenient) (hlimit : settings.maxIterations = .null)
    {f : Fault} (h : analyze body seed settings s = .error f s') :
    (∃ i, body.Misnames i ∧ f = .localOutOfRange i body.localCount.toNat) ∨
    (∃ i : Nat, .int i ∈ body.changed seed ∧ i < body.localCount ∧ Machine.sets i = false ∧
      f = LocalSet.refusal i) ∨
    ∃ text ∈ body.reported, text.isWritten = false ∧
      f = .numeralTooLong (Machine.digits.getD 0) := by
  obtain ⟨n, hn⟩ := Int.eq_ofNat_of_zero_le (Body.valid_of_validate hvalid).localCount_nonneg
  have hwhole : ∀ d ∈ seed, d.isWhole = true := fun d hd => Datum.isWhole_of_isLocal (hseed d hd)
  rw [show body.localCount.toNat = n by omega]
  cases grounds_of_analyze htyped hwhole hlenient.callModel hlimit hvalid hn h with
  | seedOutOfRange hd hstrays =>
    have hout := hstrays.out
    rw [show (n : Int) = body.localCount from hn.symm, hseed _ hd] at hout
    cases hout
  | @localOutOfRange bb j target sources d hbb hrule hmem hstrays =>
    obtain ⟨i, rfl, hf⟩ := hstrays.fault
    have hout : (Datum.int i).isLocal body.localCount = false := hn ▸ hstrays.out
    exact .inl ⟨i, ⟨bb, j, target, sources, hbb, hrule, hmem, hout⟩, hf⟩
  | strict hstrict =>
    rw [hlenient.strict] at hstrict
    cases hstrict
  | fail hfail =>
    rw [hlenient.callReturn] at hfail
    cases hfail
  | unset hchanged hlt hunset hfault => exact .inr (.inl ⟨_, hchanged, by omega, hunset, hfault⟩)
  | unwritten hreported hunwritten hfault =>
    exact .inr (.inr ⟨_, hreported, hunwritten, hfault⟩)

/-- Locals out of range are noticed where a rule looks at them. A rule is refused for one exactly if
there is a first one among its sources and its target that it comes to, and the message about this
one can be written; and the only sources that a rule does not come to are right operands beside
tainted left ones. Where an analysis returns, all that its rules have asked about is in range. A
lenient analysis returns, or gives up for a local out of range that a rule names, or because the
machine refuses something; and it does not return, whatever the seed is, if the target or the first
source of a rule that it comes to is out of range. -/
theorem analyze_reports_asked (htyped : body.IsTyped) :
    (∀ (st : Statement) (target : Datum) (sources : List Datum),
      (Instruction.statement st).isTyped = true →
      (Instruction.statement st).flow? = some (target, sources) → ∀ S : LocalSet,
      (∀ (report : Reporter (Taint.Memory η)) (l : Location) (s : Session (Taint.Memory η)),
        (∃ f u, (Rules.statement report st l).run (S, s) = .error f u ∧
          f.kind? = some .localIndex) ↔
        ∃ i : Int, S.firstStray? (S.asked sources ++ [target]) = some (.int i) ∧
          Machine.writes i = true ∧ Machine.writes S.size = true) ∧
      ∀ d ∈ sources, d ∉ S.asked sources →
        ∃ op lhs rhs, st = .assign target (.binary op lhs rhs) ∧ d ∈ rhs.locals ∧
          ∃ e ∈ lhs.locals, S.holds e = true) ∧
    (∀ (seed : List Datum) (settings : Settings η) (s s' : Session (Taint.Memory η))
      (r : Results (Taint.Memory η)), analyze body seed settings s = .ok r s' →
      ∀ bb j target sources, body.Reachable bb → body.ruleAt? bb j = some (target, sources) →
        ∃ S, Run.Yields (r.stateBefore ⟨bb, j⟩) S ∧ target.isLocal body.localCount = true ∧
          ∀ d ∈ S.asked sources, d.isLocal body.localCount = true) ∧
    (body.validate = .ok () → ∀ (seed : List Datum) (settings : Settings η)
      (s : Session (Taint.Memory η)), (∀ d ∈ seed, d.isLocal body.localCount = true) →
      (Taint.mk seed settings).Lenient → settings.maxIterations = .null →
      ((∃ r s', analyze body seed settings s = .ok r s') ∨
        ∃ f s', analyze body seed settings s = .error f s' ∧
          ((∃ i, body.Misnames i ∧ f = .localOutOfRange i body.localCount.toNat ∧
              (f.kind? = some .localIndex ↔
                Machine.writes i = true ∧ Machine.writes body.localCount = true)) ∨
            (∃ i : Nat, .int i ∈ body.changed seed ∧ i < body.localCount ∧
              Machine.sets i = false ∧ f = LocalSet.refusal i) ∨
            ∃ text ∈ body.reported, text.isWritten = false ∧
              f = .numeralTooLong (Machine.digits.getD 0))) ∧
      ∀ bb j target sources, body.Reachable bb → body.ruleAt? bb j = some (target, sources) →
        (target.isLocal body.localCount = false ∨
          ∃ d, sources.head? = some d ∧ d.isLocal body.localCount = false) →
        ∃ f s', analyze body seed settings s = .error f s') := by
  refine ⟨fun st target sources hst hflow S => ⟨fun report l s =>
    Taint.refused_iff hst hflow report l S s, fun d hd hpassed => ?_⟩, ?_, ?_⟩
  · obtain ⟨op, lhs, rhs, heq, hright, hleft⟩ :=
      Instruction.exists_left_of_not_asked hflow hd hpassed
    exact ⟨op, lhs, rhs, Instruction.statement.inj heq, hright, hleft⟩
  · intro seed settings s s' r h bb j target sources hbb hrule
    exact isLocal_of_analyze htyped h hbb hrule
  · intro hvalid seed settings s hseed hlenient hlimit
    have hcount : ((body.localCount.toNat : Nat) : Int) = body.localCount :=
      Int.toNat_of_nonneg (Body.valid_of_validate hvalid).localCount_nonneg
    refine ⟨(analyze_ok_or_error body seed settings s).imp_right ?_, ?_⟩
    · rintro ⟨f, s', h⟩
      refine ⟨f, s', h, (misnames_or_refused htyped hvalid hseed hlenient hlimit h).imp_left ?_⟩
      rintro ⟨i, hi, rfl⟩
      refine ⟨i, hi, rfl, ?_⟩
      rw [Fault.kind?_localOutOfRange_iff, hcount]
    · intro bb j target sources hbb hrule hout
      refine (analyze_ok_or_error body seed settings s).resolve_left ?_
      rintro ⟨r, s', h⟩
      obtain ⟨S, _, htarget, hasked⟩ := isLocal_of_analyze htyped h hbb hrule
      rcases hout with hout | ⟨d, hd, hout⟩
      · rw [htarget] at hout
        cases hout
      · obtain ⟨rest, rfl⟩ := List.head?_eq_some_iff.1 hd
        rw [hasked d (S.mem_asked_cons d rest)] at hout
        cases hout

def Body.sum (left right : Int) : Body :=
  ⟨1, [⟨[.assign (.int 0) (.binary (.text "Add") (.copy (.int left)) (.copy (.int right)))], .ret⟩],
    "sum"⟩

end

attribute [local instance] Machine.ample in
/-- A left operand out of range is noticed, also beside a right one that is tainted. -/
theorem analyze_reports_asked_sum :
    (Body.sum 99 0).IsTyped ∧ (Body.sum 99 0).ruleAt? 0 0 = some (.int 0, [.int 99, .int 0]) ∧
      ∃ f s', analyze (Body.sum 99 0) [.int 0] {} ⟨⟨{}, ()⟩, []⟩ = .error f s' ∧
        f.kind? = some .localIndex := by
  have htyped : (Body.sum 99 0).IsTyped := by
    unfold Body.IsTyped
    decide
  have hrule : (Body.sum 99 0).ruleAt? 0 0 = some (.int 0, [.int 99, .int 0]) := rfl
  have hvalid : (Body.sum 99 0).validate = .ok () := by cbv
  have hsets : Machine.sets 0 = true := by decide
  obtain ⟨_, _, hwhole⟩ := analyze_reports_asked (η := Unit) htyped
  obtain ⟨houtcome, hfirst⟩ := hwhole hvalid [.int 0] {} ⟨⟨{}, ()⟩, []⟩ (by decide)
    ⟨rfl, rfl, rfl⟩ rfl
  obtain ⟨f, s', h⟩ := hfirst 0 0 _ _ .entry hrule (.inr ⟨.int 99, rfl, by decide⟩)
  refine ⟨htyped, hrule, f, s', h, ?_⟩
  rcases houtcome with ⟨r, t, hok⟩ | ⟨g, t, hg, ⟨i, _, _, hkind⟩ | ⟨i, _, hlt, hunset, _⟩ |
    ⟨text, _, hunwritten, _⟩⟩
  · cases h.symm.trans hok
  · cases h.symm.trans hg
    exact hkind.2 ⟨Machine.writes_of_digits_eq_none rfl _, Machine.writes_of_digits_eq_none rfl _⟩
  · have hone : i < 1 := Int.ofNat_lt.1 hlt
    obtain rfl : i = 0 := by omega
    rw [hsets] at hunset
    cases hunset
  · rw [text.isWritten_of_digits_eq_none rfl] at hunwritten
    cases hunwritten

attribute [local instance] Machine.ample in
/-- Whether a right operand out of range is noticed depends on the seed. -/
theorem analyze_overlooks_right :
    (Body.sum 0 99).ruleAt? 0 0 = some (.int 0, [.int 0, .int 99]) ∧
      (∃ f s', analyze (Body.sum 0 99) [] {} ⟨⟨{}, ()⟩, []⟩ = .error f s' ∧
        f.kind? = some .localIndex) ∧
      ∃ r s', analyze (Body.sum 0 99) [.int 0] {} ⟨⟨{}, ()⟩, []⟩ = .ok r s' := by
  exact ⟨rfl, ⟨_, _, by cbv, by cbv⟩, _, _, by cbv⟩

end MayTaint
