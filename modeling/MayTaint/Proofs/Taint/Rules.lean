import MayTaint.Taint.Analysis
import MayTaint.Proofs.Replay

/-!
The propagation rules as verdicts. What the rules make of a statement is decided before any set is
looked at: the statement is kept out, refused or reported, or its target takes on the taint of some
sources. The effect of a statement is that of its verdict, so that every fact about the rules has
four cases only. The may-taint analysis is stateless and monotone if its model of calls is;
recording a construct for the audit changes no set.
-/

namespace MayTaint

namespace Rules

variable {σ : Type}

inductive Verdict where
  | keep
  /-- The target becomes tainted if one of the sources is, and clean otherwise. -/
  | flow (target : Datum) (sources : List Datum)
  | report (construct : Construct)
  | refuse (f : Fault)

def verdictOfUnruled [Machine] (rvalue : Rvalue) (l : Location) : Verdict :=
  match rvalue.spelling.written with
  | .ok _ => .report (unsupported rvalue l)
  | .error f => .refuse f

def verdictOfAssign [Machine] (target : Datum) (rvalue : Rvalue) (l : Location) : Verdict :=
  match rvalue with
  | .use operand =>
    match operand.source? with
    | .ok source => .flow target source.toList
    | .error f => .refuse f
  | .binary _ lhs rhs =>
    match lhs.source? with
    | .ok left =>
      match rhs.source? with
      | .ok right => .flow target (left.toList ++ right.toList)
      | .error f => .refuse f
    | .error f => .refuse f
  | .unary _ operand =>
    match operand.source? with
    | .ok (some source) => .flow target [source]
    | .ok none => verdictOfUnruled rvalue l
    | .error f => .refuse f
  | .foreign thing => .refuse (.misplaced .rvalue thing.datum)
  | _ => verdictOfUnruled rvalue l

def verdict [Machine] (s : Statement) (l : Location) : Verdict :=
  match s with
  | .assign target rvalue => verdictOfAssign target rvalue l
  | .foreign thing => .refuse (.misplaced .statement thing.datum)
  | _ => .keep

def anyTainted : List Datum → Effect σ Bool
  | [] => .done false
  | d :: rest => .ask d fun b => if b then .done true else anyTainted rest

def Verdict.effect (report : Reporter σ) : Verdict → Effect σ Unit
  | keep => .skip
  | flow target sources => (anyTainted sources).bind fun b => Effect.setTaint b target
  | .report c => report c
  | refuse f => .raise f

theorem ask_setTaint (source target : Datum) :
    (Effect.ask source fun b => Effect.setTaint b target : Effect σ Unit) =
      (anyTainted [source]).bind fun b => Effect.setTaint b target := by
  refine congrArg (Effect.ask source) (funext fun b => ?_)
  cases b <;> rfl

variable [Machine]

theorem unruled_eq (report : Reporter σ) (rvalue : Rvalue) (l : Location) :
    unruled report rvalue l = (verdictOfUnruled rvalue l).effect report := by
  rw [unruled, verdictOfUnruled]
  cases rvalue.spelling.written <;> rfl

theorem assign_eq (report : Reporter σ) (target : Datum) (rvalue : Rvalue) (l : Location) :
    assign report target rvalue l = (verdictOfAssign target rvalue l).effect report := by
  cases rvalue with
  | use operand =>
    simp only [assign, verdictOfAssign]
    cases operand.source? with
    | error f => rfl
    | ok source =>
      cases source with
      | none => rfl
      | some source => exact ask_setTaint source target
  | binary op lhs rhs =>
    simp only [assign, verdictOfAssign, binary]
    cases lhs.source? with
    | error f => rfl
    | ok left =>
      cases rhs.source? with
      | error f => rfl
      | ok right =>
        cases left with
        | none =>
          cases right with
          | none => rfl
          | some right => exact ask_setTaint right target
        | some left =>
          -- the right operand is looked at only if the left one is clean
          refine congrArg (Effect.ask left) (funext fun b => ?_)
          cases b with
          | true => rfl
          | false =>
            cases right with
            | none => rfl
            | some right => exact ask_setTaint right target
  | unary op operand =>
    simp only [assign, verdictOfAssign]
    cases operand.source? with
    | error f => rfl
    | ok source =>
      cases source with
      | none => exact unruled_eq report _ l
      | some source => exact ask_setTaint source target
  | foreign thing => rfl
  | _ => exact unruled_eq report _ l

/-- The effect of a statement is that of its verdict. -/
theorem statement_eq (report : Reporter σ) (s : Statement) (l : Location) :
    statement report s l = (verdict s l).effect report := by
  cases s with
  | assign target rvalue => exact assign_eq report target rvalue l
  | _ => rfl

/-! ### What a verdict does to a set -/

end Rules

namespace LocalSet

variable {S : LocalSet} {d : Datum} {sources : List Datum}

/-- The locals about which a rule with these sources asks a set: all up to the first one that is
tainted. -/
def asked (S : LocalSet) : List Datum → List Datum
  | [] => []
  | d :: sources => if S.holds d then [d] else d :: S.asked sources

theorem asked_cons_of_holds (h : S.holds d = true) : S.asked (d :: sources) = [d] :=
  if_pos h

theorem asked_cons_of_not_holds (h : S.holds d = false) :
    S.asked (d :: sources) = d :: S.asked sources :=
  if_neg (Bool.eq_false_iff.1 h)

theorem mem_asked_cons (S : LocalSet) (d : Datum) (sources : List Datum) :
    d ∈ S.asked (d :: sources) := by
  rw [asked]
  split <;> exact List.mem_cons_self

theorem mem_of_mem_asked (h : d ∈ S.asked sources) : d ∈ sources := by
  induction sources with
  | nil => cases h
  | cons e sources ih =>
    cases he : S.holds e with
    | true =>
      rw [asked_cons_of_holds he, List.mem_singleton] at h
      exact h ▸ List.mem_cons_self
    | false =>
      rw [asked_cons_of_not_holds he] at h
      rcases List.mem_cons.1 h with rfl | h
      · exact List.mem_cons_self
      · exact List.mem_cons_of_mem e (ih h)

theorem any_holds_mono {T : LocalSet} (hle : S ≤ T) (h : sources.any S.holds = true) :
    sources.any T.holds = true := by
  obtain ⟨d, hd, hS⟩ := List.any_eq_true.1 h
  exact List.any_eq_true.2 ⟨d, hd, members_subset_of_le hle hS⟩

end LocalSet

namespace Rules

variable [Machine] {σ : Type}

section

variable {S T : LocalSet} {s : Session σ} {t : LocalSet × Session σ} {b : Bool}

theorem eq_of_run_anyTainted {sources : List Datum}
    (h : (anyTainted sources).run (S, s) = .ok b t) : b = sources.any S.holds ∧ t = (S, s) := by
  induction sources with
  | nil =>
    cases h
    exact ⟨rfl, rfl⟩
  | cons d sources ih =>
    obtain ⟨c, hc, hrest⟩ := Effect.run_ask_eq_ok.1 h
    rw [List.any_cons, LocalSet.holds_of_contains hc]
    cases c with
    | true =>
      cases hrest
      exact ⟨rfl, rfl⟩
    | false => exact ih hrest

/-- The question is answered exactly if the set knows all the locals that it is asked about. -/
theorem run_anyTainted_iff {sources : List Datum} :
    (anyTainted sources).run (S, s) = .ok (sources.any S.holds) (S, s) ↔
      ∀ d ∈ S.asked sources, ∃ b, S.contains d = .ok b := by
  induction sources with
  | nil => exact ⟨fun _ d hd => (List.not_mem_nil hd).elim, fun _ => rfl⟩
  | cons d sources ih =>
    constructor
    · intro h
      obtain ⟨c, hc, hrest⟩ := Effect.run_ask_eq_ok.1 h
      have hholds := LocalSet.holds_of_contains hc
      cases c with
      | true => simp [LocalSet.asked_cons_of_holds hholds, hc]
      | false =>
        rw [List.any_cons, hholds, Bool.false_or] at hrest
        rw [LocalSet.asked_cons_of_not_holds hholds]
        exact List.forall_mem_cons.2 ⟨⟨false, hc⟩, ih.1 hrest⟩
    · intro h
      obtain ⟨c, hc⟩ := h d (S.mem_asked_cons d sources)
      have hholds := LocalSet.holds_of_contains hc
      refine Effect.run_ask_eq_ok.2 ⟨c, hc, ?_⟩
      rw [List.any_cons, hholds]
      cases c with
      | true => rfl
      | false =>
        rw [LocalSet.asked_cons_of_not_holds hholds] at h
        exact ih.2 fun e he => h e (List.mem_cons_of_mem d he)

theorem run_anyTainted {sources : List Datum} (h : ∀ d ∈ sources, ∃ b, S.contains d = .ok b) :
    (anyTainted sources).run (S, s) = .ok (sources.any S.holds) (S, s) :=
  run_anyTainted_iff.2 fun d hd => h d (LocalSet.mem_of_mem_asked hd)

theorem run_setTaint_of_flow {report : Reporter σ} {target : Datum} {sources : List Datum}
    (h : ((Verdict.flow target sources).effect report).run (S, s) = .ok () t) :
    (Effect.setTaint (sources.any S.holds) target).run (S, s) = .ok () t := by
  rw [Verdict.effect, Effect.run_bind] at h
  obtain ⟨b, t', hb, hset⟩ := estate_bind_eq_ok.1 h
  obtain ⟨rfl, rfl⟩ := eq_of_run_anyTainted hb
  exact hset

theorem run_flow {report : Reporter σ} {target : Datum} {sources : List Datum}
    (h : ∀ d ∈ sources, ∃ b, S.contains d = .ok b) {i : Fin S.size}
    (hi : S.place target = .ok i) :
    ((Verdict.flow target sources).effect report).run (S, s) =
      .ok () (S.put i (sources.any S.holds), s) := by
  rw [Verdict.effect, Effect.run_bind]
  exact estate_bind_eq_ok.2 ⟨_, _, run_anyTainted h, Effect.run_setTaint_eq_ok.2 ⟨i, hi, rfl⟩⟩

end

/-! ### Stateless and monotone -/

def Inert (x : Effect σ Unit) : Prop :=
  ∀ ⦃S T : LocalSet⦄ ⦃s s' : Session σ⦄, x.run (S, s) = .ok () (T, s') → T = S

theorem Inert.monotone {x : Effect σ Unit} (hx : Inert x) : x.Monotone := by
  intro S T S' T' s s₁ s₂ hle hS hT
  rw [hx hS, hx hT]
  exact hle

omit [Machine] in
theorem plain_anyTainted (sources : List Datum) : (anyTainted (σ := σ) sources).Plain := by
  induction sources with
  | nil => exact trivial
  | cons d sources ih =>
    intro b
    cases b with
    | true => exact trivial
    | false => exact ih

omit [Machine] in
/-- Only reports can use the memory and the log. -/
theorem Verdict.plain (report : Reporter σ) {v : Verdict} (hv : ∀ c, v ≠ .report c) :
    (v.effect report).Plain := by
  cases v with
  | keep => trivial
  | flow target sources =>
    apply (plain_anyTainted sources).bind
    intro b
    cases b <;> trivial
  | report c => exact absurd rfl (hv c)
  | refuse f => trivial

theorem Verdict.stateless {report : Reporter σ} (hreport : ∀ c, (report c).Stateless)
    (v : Verdict) : (v.effect report).Stateless := by
  by_cases hv : ∃ c, v = .report c
  · obtain ⟨c, rfl⟩ := hv
    exact hreport c
  · exact (Verdict.plain report (not_exists.1 hv)).stateless

theorem Verdict.monotone {report : Reporter σ} (hreport : ∀ c, Inert (report c)) (v : Verdict) :
    (v.effect report).Monotone := by
  cases v with
  | keep =>
    intro S T S' T' s s₁ s₂ hle hS hT
    cases hS
    cases hT
    exact hle
  | flow target sources =>
    intro S T S' T' s s₁ s₂ hle hS hT
    exact Effect.setTaint_mono hle (LocalSet.any_holds_mono hle) (run_setTaint_of_flow hS)
      (run_setTaint_of_flow hT)
  | report c => exact (hreport c).monotone
  | refuse f =>
    intro S T S' T' s s₁ s₂ hle hS hT
    cases hS

end Rules

namespace Taint

variable {η : Type} {t : Taint η}

def note (c : Construct) (s : Session (Memory η)) : Session (Memory η) :=
  if s.memory.audit.covers c then s
  else
    Session.tell { s with memory := { s.memory with audit := s.memory.audit.record c } }
      (.unsupported s.memory.audit.body c)

theorem note_of_covers {c : Construct} {s : Session (Memory η)}
    (h : s.memory.audit.covers c = true) : note c s = s :=
  if_pos h

theorem note_of_not_covers {c : Construct} {s : Session (Memory η)}
    (h : s.memory.audit.covers c = false) : note c s =
      Session.tell { s with memory := { s.memory with audit := s.memory.audit.record c } }
        (.unsupported s.memory.audit.body c) := by
  simp [note, h]

theorem audit_note (c : Construct) (s : Session (Memory η)) :
    (note c s).memory.audit = s.memory.audit.record c := by
  cases h : s.memory.audit.covers c with
  | true => rw [note_of_covers h, AuditLog.record_of_covers h]
  | false =>
    rw [note_of_not_covers h]
    rfl

/-- Recording makes no request. -/
theorem run_record {γ : Type} [Accumulator γ] (c : Construct) (acc : γ) (s : Session (Memory η)) :
    (record c).run (acc, s) = .ok () (acc, note c s) := by
  show Effect.run (if s.memory.audit.covers c then Effect.skip else
    Effect.write { s.memory with audit := s.memory.audit.record c }
      (Effect.report s.memory.audit.body c Effect.skip)) (acc, s) = _
  cases h : s.memory.audit.covers c with
  | true =>
    rw [note_of_covers h]
    rfl
  | false =>
    rw [note_of_not_covers h]
    rfl

variable [Machine]

theorem turns_record (c : Construct) (S : LocalSet) : Turns (record (η := η) c).run S S := fun s =>
  ⟨note c s, run_record c S s⟩

theorem record_stateless (c : Construct) : (record (η := η) c).Stateless := by
  intro S s s'
  have h := turns_record (η := η) c S
  rw [Run.answer_eq_ok.2 ((h s).imp fun _ => Run.onto_eq_ok.2),
    Run.answer_eq_ok.2 ((h s').imp fun _ => Run.onto_eq_ok.2)]

theorem record_inert (c : Construct) : Rules.Inert (record (η := η) c) :=
  fun S _ _ _ h => ((turns_record c S).eq_of_ok h).symm

theorem reporter_stateless (t : Taint η) (c : Construct) : (t.reporter c).Stateless := by
  unfold reporter
  split
  · exact Effect.Plain.stateless trivial
  · exact record_stateless c

theorem reporter_inert (t : Taint η) (c : Construct) : Rules.Inert (t.reporter c) := by
  unfold reporter
  split
  · intro S T s s' h
    cases h
  · exact record_inert c

omit [Machine] in
/-- The effect of every terminator is to do nothing or to give up. -/
theorem terminator_plain (i : Terminator) : (Rules.terminator (σ := Memory η) i).Plain := by
  cases i <;> exact trivial

theorem terminator_inert (i : Terminator) : Rules.Inert (Rules.terminator (σ := Memory η) i) := by
  intro S T s s' h
  cases i <;> cases h <;> rfl

theorem analysis_stateless
    (hmodel : ∀ model, t.settings.callModel = some model → ∀ c l, (model c l).Stateless) :
    t.analysis.Stateless where
  statement i l := by
    change (Rules.statement t.reporter i l).Stateless
    rw [Rules.statement_eq]
    exact Rules.Verdict.stateless t.reporter_stateless _
  terminator i _ := (terminator_plain i).stateless
  callReturn _ c l := by
    change (t.callReturn c l).Stateless
    unfold callReturn
    split
    · next _ _ model hm => exact (hmodel model hm c l).within fun _ _ => rfl
    · cases c.spelling.written <;> exact Effect.Plain.stateless trivial
    · cases c.spelling.written with
      | ok text => exact record_stateless _
      | error f => exact Effect.Plain.stateless trivial

theorem analysis_monotone
    (hmodel : ∀ model, t.settings.callModel = some model → ∀ c l, (model c l).Monotone) :
    t.analysis.Monotone where
  statement i l := by
    change (Rules.statement t.reporter i l).Monotone
    rw [Rules.statement_eq]
    exact Rules.Verdict.monotone t.reporter_inert _
  terminator i _ := (terminator_inert i).monotone
  callReturn _ c l := by
    change (t.callReturn c l).Monotone
    unfold callReturn
    split
    · next _ _ model hm => exact (hmodel model hm c l).within fun _ _ => rfl
    · cases c.spelling.written <;>
      · intro S T S' T' s s₁ s₂ hle hS hT
        cases hS
    · cases c.spelling.written with
      | ok text => exact (record_inert _).monotone
      | error f =>
        intro S T S' T' s s₁ s₂ hle hS hT
        cases hS

/-! ### The state at the entry -/

section

variable {S T : LocalSet} {s s' : Session (Memory η)} {body : Body} {seed : List Datum}

theorem run_taintAll (h : (seed.forM Effect.taint).run (S, s) = .ok () (T, s')) :
    seed.foldlM (fun S d => do return (← S.insert d).2) S = .ok T ∧ s' = s := by
  induction seed generalizing S with
  | nil =>
    cases h
    exact ⟨rfl, rfl⟩
  | cons d seed ih =>
    obtain ⟨i, hi, hrest⟩ := Effect.run_gen_eq_ok.1 h
    obtain ⟨hfold, hs⟩ := ih hrest
    refine ⟨?_, hs⟩
    rw [List.foldlM_cons]
    exact except_bind_eq_ok.2 ⟨S.add i, Effect.gen_eq_ok.2 ⟨i, hi, rfl⟩, hfold⟩

/-- Before the first visit the sources are tainted and the audit log is a new one. -/
theorem run_start (h : (t.start body).run (S, s) = .ok () (T, s')) :
    t.seed.foldlM (fun S d => do return (← S.insert d).2) S = .ok T ∧
      s' = ⟨{ s.memory with audit := { body := body.name } }, s.told⟩ :=
  run_taintAll (s := ⟨_, _⟩) h

end

end Taint

/-! ### Analysing a body -/

section

variable [Machine] {η : Type} {body : Body} {seed : List Datum} {settings : Settings η}
  {s s' : Session (Taint.Memory η)}

theorem analyze_eq_ok {r : Results (Taint.Memory η)} :
    analyze body seed settings s = .ok r s' ↔ ∃ r₀, (Taint.mk seed settings).analysis.solve
      settings.toLimits body { s with memory := { s.memory with audit := {} } } = .ok r₀ s' ∧
      r = { r₀ with analysis := (Taint.mk seed settings).quiet.analysis } := by
  constructor
  · intro h
    obtain ⟨⟨⟩, _, hmodify, hsolve⟩ := estate_bind_eq_ok.1 h
    cases hmodify
    obtain ⟨r₀, _, hr₀, hquiet⟩ := estate_bind_eq_ok.1 hsolve
    cases hquiet
    exact ⟨r₀, hr₀, rfl⟩
  · rintro ⟨r₀, hr₀, rfl⟩
    exact estate_bind_eq_ok.2 ⟨(), _, rfl, estate_bind_eq_ok.2 ⟨r₀, s', hr₀, rfl⟩⟩

theorem solve_eq_error_of_analyze {f : Fault} (h : analyze body seed settings s = .error f s') :
    (Taint.mk seed settings).analysis.solve settings.toLimits body
      { s with memory := { s.memory with audit := {} } } = .error f s' := by
  rcases estate_bind_eq_error.1 h with hmodify | ⟨⟨⟩, _, hmodify, hsolve⟩
  · cases hmodify
  cases hmodify
  rcases estate_bind_eq_error.1 hsolve with hfails | ⟨r₀, _, _, hquiet⟩
  · exact hfails
  · cases hquiet

theorem analyze_eq_error {f : Fault} :
    analyze body seed settings s = .error f s' ↔ (Taint.mk seed settings).analysis.solve
      settings.toLimits body { s with memory := { s.memory with audit := {} } } = .error f s' :=
  ⟨solve_eq_error_of_analyze, fun h => (estate_bind_of_ok rfl).trans (estate_bind_of_error h)⟩

end

end MayTaint
