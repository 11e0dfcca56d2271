import MayTaint.Proofs.Failure
import MayTaint.Proofs.Taint.Rules

/-!
The faults of the may-taint analysis. Its effects give up on what is no local of the body, on parts
of instructions that do not belong where they stand, on what the settings refuse, and on what the
machine refuses; all other faults of its effects are those of the model of calls.
-/

namespace MayTaint

theorem Operand.misplaced_of_source? {o : Operand} {f : Fault} (h : o.source? = .error f) :
    ∃ d, f = .misplaced .operand d := by
  unfold source? at h
  split at h <;> cases h
  exact ⟨_, rfl⟩

namespace Rules

variable [Machine] {rvalue : Rvalue} {l : Location} {f : Fault}

theorem numeralTooLong_of_unruled (h : verdictOfUnruled rvalue l = .refuse f) :
    f = .numeralTooLong (Machine.digits.getD 0) := by
  cases hw : rvalue.spelling.isWritten with
  | true =>
    rw [verdictOfUnruled, Spelling.written_of_isWritten hw] at h
    cases h
  | false =>
    rw [verdictOfUnruled, Spelling.written_of_not_isWritten hw] at h
    cases h
    rfl

/-- A statement is refused because of a part that does not belong, or because what has no rule
cannot be spelled out. -/
theorem cases_of_refuse {i : Statement} (h : verdict i l = .refuse f) :
    (∃ role d, f = .misplaced role d) ∨ f = .numeralTooLong (Machine.digits.getD 0) := by
  cases i with
  | assign target rvalue =>
    simp only [verdict, verdictOfAssign] at h
    split at h
    · split at h
      · cases h
      · next hsource =>
        cases h
        exact .inl ⟨_, Operand.misplaced_of_source? hsource⟩
    · split at h
      · split at h
        · cases h
        · next hright =>
          cases h
          exact .inl ⟨_, Operand.misplaced_of_source? hright⟩
      · next hleft =>
        cases h
        exact .inl ⟨_, Operand.misplaced_of_source? hleft⟩
    · split at h
      · cases h
      · exact .inr (numeralTooLong_of_unruled h)
      · next hsource =>
        cases h
        exact .inl ⟨_, Operand.misplaced_of_source? hsource⟩
    · cases h
      exact .inl ⟨_, _, rfl⟩
    · exact .inr (numeralTooLong_of_unruled h)
  | foreign thing =>
    cases h
    exact .inl ⟨_, _, rfl⟩
  | _ => cases h

end Rules

namespace Taint

/-- The faults with which the analysis gives up by itself: sets over less than no locals, requests
for what is no local, parts of instructions that do not belong, and what the settings or the machine
refuse. -/
def isOwn : Fault → Bool
  | .negativeDomain _ | .notAnIndex _ | .localOutOfRange _ _ | .tooManyDigits | .outOfMemory
  | .numeralTooLong _ | .misplaced _ _ | .unsupported _ _ | .unmodelledCall _ _ => true
  | _ => false

theorem isOwn_refusal (i : Nat) : isOwn (LocalSet.refusal i) = true := by
  unfold LocalSet.refusal
  split <;> rfl

variable [Machine] {η : Type} {t : Taint η} {body : Body} {f : Fault}

theorem isOwn_of_written {text : Spelling} (h : text.written = .error f) : isOwn f = true := by
  cases hw : text.isWritten with
  | true =>
    rw [Spelling.written_of_isWritten hw] at h
    cases h
  | false =>
    rw [Spelling.written_of_not_isWritten hw] at h
    cases h
    rfl

theorem isOwn_of_place {S : LocalSet} {d : Datum} (h : S.place d = .error f) : isOwn f = true := by
  rcases except_bind_eq_error.1 h with hindex | ⟨i, _, hrefused⟩
  · unfold LocalSet.index at hindex
    split at hindex
    · split at hindex <;> cases hindex
      rfl
    · cases hindex
      rfl
  · split at hrefused
    · cases hrefused
    · cases hrefused
      exact isOwn_refusal i

omit [Machine] in
theorem raisesOnly_record (c : Construct) :
    (record (η := η) c).RaisesOnly fun f => isOwn f = true := by
  intro m
  show Effect.RaisesOnly _ (if m.audit.covers c then Effect.skip else _)
  split <;> trivial

omit [Machine] in
theorem raisesOnly_reporter (t : Taint η) (c : Construct) :
    (t.reporter c).RaisesOnly fun f => isOwn f = true := by
  unfold reporter
  split
  · rfl
  · exact raisesOnly_record c

omit [Machine] in
theorem raisesOnly_anyTainted (sources : List Datum) :
    (Rules.anyTainted (σ := Memory η) sources).RaisesOnly fun f => isOwn f = true := by
  induction sources with
  | nil => trivial
  | cons d sources ih =>
    intro b
    cases b with
    | true => trivial
    | false => exact ih

theorem raisesOnly_instruction (t : Taint η) (i : Instruction) (l : Location) :
    (t.analysis.instruction i l).RaisesOnly fun f => isOwn f = true := by
  obtain (st | term) := i
  · show (Rules.statement t.reporter st l).RaisesOnly _
    rw [Rules.statement_eq]
    cases hverdict : Rules.verdict st l with
    | keep => trivial
    | flow target sources =>
      apply (raisesOnly_anyTainted sources).bind
      intro b
      cases b <;> trivial
    | report c => exact t.raisesOnly_reporter c
    | refuse f =>
      rcases Rules.cases_of_refuse hverdict with ⟨role, d, rfl⟩ | rfl
      · rfl
      · rfl
  · cases term <;> trivial

omit [Machine] in
theorem raisesOnly_taintAll (seed : List Datum) :
    (seed.forM (Effect.taint (σ := Memory η))).RaisesOnly fun f => isOwn f = true := by
  induction seed with
  | nil => trivial
  | cons d seed ih => exact ih

/-- The analysis gives up by itself with its own faults only, and else because the model of calls
does. -/
theorem isOwn_or_model_of_raises (h : t.analysis.Raises body f) :
    isOwn f = true ∨ ∃ model c l, t.settings.callModel = some model ∧
      ∃ (S : LocalSet) (s : Session η) (u : LocalSet × Session η),
        (model c l).run (S, s) = .error f u := by
  have hplace : ∀ (S : LocalSet) d f, S.place d = .error f → isOwn f = true :=
    fun _ _ _ => isOwn_of_place
  cases h with
  | bottom h =>
    left
    change LocalSet.ofPattern body.localCount 0 = .error f at h
    unfold LocalSet.ofPattern at h
    split at h
    · cases h
      rfl
    · cases h
  | start h =>
    have hstart : (t.start body).RaisesOnly fun f => isOwn f = true :=
      fun m => raisesOnly_taintAll t.seed
    exact .inl (hstart.of_run hplace h)
  | @instruction i l _ _ _ h => exact .inl ((t.raisesOnly_instruction i l).of_run hplace h)
  | @callReturn _ c l S s u h =>
    change (t.callReturn c l).run (S, s) = .error f u at h
    unfold callReturn at h
    split at h
    · next model hmodel =>
      obtain ⟨u', hu'⟩ := Effect.exists_error_of_within (fun _ _ => rfl) h
      exact .inr ⟨model, c, l, hmodel, S, _, u', hu'⟩
    · cases hw : c.spelling.written with
      | error g =>
        rw [hw] at h
        cases h
        exact .inl (isOwn_of_written hw)
      | ok text =>
        rw [hw] at h
        cases h
        exact .inl rfl
    · cases hw : c.spelling.written with
      | error g =>
        rw [hw] at h
        cases h
        exact .inl (isOwn_of_written hw)
      | ok text =>
        rw [hw] at h
        exact .inl ((raisesOnly_record _).of_run hplace h)

end Taint

end MayTaint
