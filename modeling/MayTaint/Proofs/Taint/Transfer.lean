import MayTaint.Proofs.Taint.Rules
import MayTaint.Proofs.WellFormed

/-!
What instructions do to a set of tainted locals, said without effects, verdicts or bit patterns. An
instruction with a rule names a target and the locals that its operands read, and makes the target
tainted exactly if one of these is; all other instructions change nothing. Carrying taint through
instructions distributes over unions: each local that is tainted afterwards owes it to a single
local that was tainted before. The effects of the may-taint analysis do just this to the members of
a set, and do not give up as long as the machine sets the bits of the targets and spells out what
has no rule.
-/

namespace MayTaint

/-! ### The meaning of instructions -/

def Operand.locals : Operand → List Datum
  | copy source | move source => [source]
  | constant _ | foreign _ => []

/-- The locals that decide whether the value is tainted, if there is a rule for the rvalue. -/
def Rvalue.sources? : Rvalue → Option (List Datum)
  | use operand => some operand.locals
  | binary _ lhs rhs => some (lhs.locals ++ rhs.locals)
  | unary _ (.copy source) | unary _ (.move source) => some [source]
  | _ => none

namespace Instruction

def flow? : Instruction → Option (Datum × List Datum)
  | statement (.assign target rvalue) => rvalue.sources?.map fun sources => (target, sources)
  | _ => none

def unruled? : Instruction → Option Rvalue
  | statement (.assign _ rvalue) => if rvalue.sources?.isNone then some rvalue else none
  | _ => none

def carry (T : Set Datum) (i : Instruction) : Set Datum :=
  match i.flow? with
  | some (target, sources) => {d | (d = target ∧ ∃ x ∈ sources, x ∈ T) ∨ (d ≠ target ∧ d ∈ T)}
  | none => T

variable {i : Instruction} {T U : Set Datum} {d target : Datum} {sources : List Datum}

theorem carry_of_flow (h : i.flow? = some (target, sources)) :
    d ∈ carry T i ↔ (d = target ∧ ∃ x ∈ sources, x ∈ T) ∨ (d ≠ target ∧ d ∈ T) := by
  rw [carry, h]
  rfl

theorem carry_of_none (h : i.flow? = none) : carry T i = T := by
  rw [carry, h]

theorem exists_assign_of_unruled {rvalue : Rvalue} (h : i.unruled? = some rvalue) :
    ∃ target, i = .statement (.assign target rvalue) ∧ rvalue.sources? = none := by
  obtain (s | t) := i
  · cases s with
    | assign target given =>
      rw [unruled?] at h
      split at h
      · next hnone =>
        cases h
        exact ⟨target, rfl, Option.isNone_iff_eq_none.1 hnone⟩
      · cases h
    | _ => cases h
  · cases h

/-- A local that is tainted after an instruction owes it to one that was tainted before. -/
theorem mem_carry_iff : d ∈ carry T i ↔ ∃ x ∈ T, d ∈ carry {x} i := by
  cases h : i.flow? with
  | none => simp [carry_of_none h]
  | some f =>
    obtain ⟨target, sources⟩ := f
    simp only [carry_of_flow h, Set.mem_singleton_iff, exists_eq_right]
    constructor
    · rintro (⟨hd, x, hx, hT⟩ | ⟨hd, hT⟩)
      · exact ⟨x, hT, .inl ⟨hd, hx⟩⟩
      · exact ⟨d, hT, .inr ⟨hd, rfl⟩⟩
    · rintro ⟨x, hT, ⟨hd, hx⟩ | ⟨hd, rfl⟩⟩
      · exact .inl ⟨hd, x, hx, hT⟩
      · exact .inr ⟨hd, hT⟩

theorem mem_foldl_carry {is : List Instruction} :
    d ∈ is.foldl carry T ↔ ∃ x ∈ T, d ∈ is.foldl carry {x} := by
  induction is generalizing T with
  | nil => simp
  | cons i is ih =>
    simp only [List.foldl_cons]
    rw [ih]
    constructor
    · rintro ⟨y, hy, hd⟩
      obtain ⟨x, hx, hxy⟩ := mem_carry_iff.1 hy
      exact ⟨x, hx, ih.2 ⟨y, hxy, hd⟩⟩
    · rintro ⟨x, hx, hd⟩
      obtain ⟨y, hxy, hd⟩ := ih.1 hd
      exact ⟨y, mem_carry_iff.2 ⟨x, hx, hxy⟩, hd⟩

theorem foldl_carry_union {is : List Instruction} :
    is.foldl carry (T ∪ U) = is.foldl carry T ∪ is.foldl carry U := by
  ext d
  rw [Set.mem_union, mem_foldl_carry, mem_foldl_carry (T := T), mem_foldl_carry (T := U)]
  simp only [Set.mem_union, or_and_right, exists_or]

theorem foldl_carry_empty (is : List Instruction) : is.foldl carry ∅ = ∅ := by
  ext d
  rw [mem_foldl_carry]
  simp

theorem foldl_carry_mono {is : List Instruction} (h : T ⊆ U) :
    is.foldl carry T ⊆ is.foldl carry U := by
  intro d hd
  obtain ⟨x, hx, hd⟩ := mem_foldl_carry.1 hd
  exact mem_foldl_carry.2 ⟨x, h hx, hd⟩

end Instruction

/-! ### Verdicts of typed statements -/

def Datum.isWhole : Datum → Bool
  | int _ => true
  | _ => false

theorem Datum.isWhole_iff {d : Datum} : d.isWhole = true ↔ ∃ i, d = .int i := by
  cases d <;> simp [isWhole]

theorem Datum.isWhole_of_isLocal {n : Int} {d : Datum} (h : d.isLocal n = true) :
    d.isWhole = true := by
  obtain ⟨i, rfl, _⟩ := Datum.isLocal_iff.1 h
  rfl

def Operand.isTyped : Operand → Bool
  | constant _ => true
  | copy source | move source => source.isWhole
  | foreign _ => false

def Rvalue.operands : Rvalue → List Operand
  | use operand | unary _ operand => [operand]
  | binary _ lhs rhs => [lhs, rhs]
  | _ => []

def Rvalue.isTyped : Rvalue → Bool
  | foreign _ => false
  | rvalue => rvalue.operands.all (·.isTyped)

def Statement.isTyped : Statement → Bool
  | assign target rvalue => target.isWhole && rvalue.isTyped
  | foreign _ => false
  | _ => true

def Terminator.isTyped : Terminator → Bool
  | statement _ | foreign _ => false
  | _ => true

theorem Terminator.exists_edges {t : Terminator} (h : t.isTyped = true) :
    ∃ edges, t.edges = .ok edges := by
  cases t with
  | statement s => cases h
  | foreign thing => cases h
  | _ => exact ⟨_, rfl⟩

/-- Whether the rules can make sense of the instruction. What they do not look at may be
anything. -/
def Instruction.isTyped : Instruction → Bool
  | statement s => s.isTyped
  | terminator t => t.isTyped

namespace Operand

variable {n : Int} {o : Operand} {d : Datum}

theorem isTyped_of_isWellFormed (h : o.isWellFormed n = true) : o.isTyped = true := by
  cases o with
  | copy source => exact Datum.isWhole_of_isLocal h
  | move source => exact Datum.isWhole_of_isLocal h
  | constant value => rfl
  | foreign thing => cases h

theorem isLocal_of_mem_locals (h : o.isWellFormed n = true) (hd : d ∈ o.locals) :
    d.isLocal n = true := by
  cases o with
  | copy source => exact List.mem_singleton.1 hd ▸ h
  | move source => exact List.mem_singleton.1 hd ▸ h
  | constant value => cases hd
  | foreign thing => cases hd

theorem isWhole_of_mem_locals (h : o.isTyped = true) (hd : d ∈ o.locals) : d.isWhole = true := by
  cases o with
  | copy source => exact List.mem_singleton.1 hd ▸ h
  | move source => exact List.mem_singleton.1 hd ▸ h
  | constant value => cases hd
  | foreign thing => cases hd

theorem source?_eq (h : o.isTyped = true) :
    ∃ source, o.source? = .ok source ∧ source.toList = o.locals := by
  cases o with
  | constant value => exact ⟨none, rfl, rfl⟩
  | copy source =>
    obtain ⟨i, rfl⟩ := Datum.isWhole_iff.1 h
    exact ⟨some (.int i), rfl, rfl⟩
  | move source =>
    obtain ⟨i, rfl⟩ := Datum.isWhole_iff.1 h
    exact ⟨some (.int i), rfl, rfl⟩
  | foreign thing => cases h

end Operand

namespace Rvalue

variable {n : Int} {rvalue : Rvalue} {o : Operand}

theorem isWellFormed_of_mem_operands (h : rvalue.isWellFormed n = true) (ho : o ∈ rvalue.operands) :
    o.isWellFormed n = true := by
  cases rvalue with
  | use operand => exact List.mem_singleton.1 ho ▸ h
  | unary op operand => exact List.mem_singleton.1 ho ▸ h
  | binary op lhs rhs =>
    obtain ⟨hlhs, hrhs⟩ := Bool.and_eq_true_iff.1 h
    rcases List.mem_pair.1 ho with rfl | rfl
    · exact hlhs
    · exact hrhs
  | _ => cases ho

theorem isTyped_of_isWellFormed (h : rvalue.isWellFormed n = true) : rvalue.isTyped = true := by
  have hall : rvalue.operands.all (·.isTyped) = true := List.all_eq_true.2 fun o ho =>
    o.isTyped_of_isWellFormed (isWellFormed_of_mem_operands h ho)
  cases rvalue with
  | foreign thing => cases h
  | _ => exact hall

theorem isTyped_of_mem_operands (h : rvalue.isTyped = true) (ho : o ∈ rvalue.operands) :
    o.isTyped = true := by
  cases rvalue with
  | foreign thing => cases ho
  | _ => exact List.all_eq_true.1 h o ho

/-- What decides whether a value is tainted is read by an operand that the rules look at. -/
theorem exists_operand_of_mem_sources {sources : List Datum} (h : rvalue.sources? = some sources)
    {d : Datum} (hd : d ∈ sources) : ∃ o ∈ rvalue.operands, d ∈ o.locals := by
  cases rvalue with
  | use operand =>
    cases h
    exact ⟨operand, List.mem_singleton_self _, hd⟩
  | binary op lhs rhs =>
    cases h
    rcases List.mem_append.1 hd with hd | hd
    · exact ⟨lhs, List.mem_cons_self, hd⟩
    · exact ⟨rhs, List.mem_cons_of_mem _ List.mem_cons_self, hd⟩
  | unary op operand =>
    cases operand with
    | copy source =>
      cases h
      exact ⟨_, List.mem_singleton_self _, hd⟩
    | move source =>
      cases h
      exact ⟨_, List.mem_singleton_self _, hd⟩
    | _ => cases h
  | _ => cases h

end Rvalue

theorem Statement.isTyped_of_isWellFormed {n : Int} {s : Statement} (h : s.isWellFormed n = true) :
    s.isTyped = true := by
  cases s with
  | assign target rvalue =>
    obtain ⟨htarget, hrvalue⟩ := Bool.and_eq_true_iff.1 h
    exact Bool.and_eq_true_iff.2
      ⟨Datum.isWhole_of_isLocal htarget, Rvalue.isTyped_of_isWellFormed hrvalue⟩
  | foreign thing => cases h
  | _ => rfl

namespace Instruction

variable {n : Int} {i : Instruction} {target : Datum} {sources : List Datum}

theorem isTyped_of_isWellFormed (h : i.isWellFormed n = true) : i.isTyped = true := by
  obtain (s | t) := i
  · exact s.isTyped_of_isWellFormed h
  · cases t with
    | statement s => cases h
    | foreign thing => cases h
    | _ => rfl

theorem exists_assign_of_flow (hf : i.flow? = some (target, sources)) :
    ∃ rvalue, i = .statement (.assign target rvalue) ∧ rvalue.sources? = some sources := by
  obtain (s | t) := i
  · cases s with
    | assign place rvalue =>
      obtain ⟨xs, hxs, hpair⟩ := Option.map_eq_some_iff.1 hf
      cases hpair
      exact ⟨rvalue, rfl, hxs⟩
    | _ => cases hf
  · cases hf

theorem isLocal_of_flow (h : i.isWellFormed n = true) (hf : i.flow? = some (target, sources)) :
    target.isLocal n = true ∧ ∀ d ∈ sources, d.isLocal n = true := by
  obtain ⟨rvalue, rfl, hsources⟩ := exists_assign_of_flow hf
  obtain ⟨htarget, hrvalue⟩ := Bool.and_eq_true_iff.1 h
  refine ⟨htarget, fun d hd => ?_⟩
  obtain ⟨o, ho, hd⟩ := Rvalue.exists_operand_of_mem_sources hsources hd
  exact o.isLocal_of_mem_locals (Rvalue.isWellFormed_of_mem_operands hrvalue ho) hd

theorem isWhole_of_flow (h : i.isTyped = true) (hf : i.flow? = some (target, sources)) :
    target.isWhole = true ∧ ∀ d ∈ sources, d.isWhole = true := by
  obtain ⟨rvalue, rfl, hsources⟩ := exists_assign_of_flow hf
  obtain ⟨htarget, hrvalue⟩ := Bool.and_eq_true_iff.1 h
  refine ⟨htarget, fun d hd => ?_⟩
  obtain ⟨o, ho, hd⟩ := Rvalue.exists_operand_of_mem_sources hsources hd
  exact o.isWhole_of_mem_locals (Rvalue.isTyped_of_mem_operands hrvalue ho) hd

end Instruction

namespace Rules

variable [Machine] {s : Statement}

/-- A typed assignment has the verdict that its rule gives, or that of an assignment without one. -/
theorem verdictOfAssign_eq {target : Datum} {rvalue : Rvalue} (h : rvalue.isTyped = true)
    (l : Location) : verdictOfAssign target rvalue l = match rvalue.sources? with
      | some sources => .flow target sources
      | none => verdictOfUnruled rvalue l := by
  have hoperands := fun {o} ho => Rvalue.isTyped_of_mem_operands (o := o) h ho
  cases rvalue with
  | use operand =>
    obtain ⟨source, hsource, hlocals⟩ := operand.source?_eq (hoperands (List.mem_singleton_self _))
    simp only [verdictOfAssign, Rvalue.sources?, hsource, hlocals]
  | binary op lhs rhs =>
    obtain ⟨left, hleft, hl⟩ := lhs.source?_eq (hoperands List.mem_cons_self)
    obtain ⟨right, hright, hr⟩ :=
      rhs.source?_eq (hoperands (List.mem_cons_of_mem _ List.mem_cons_self))
    simp only [verdictOfAssign, Rvalue.sources?, hleft, hright, hl, hr]
  | unary op operand =>
    have hoperand : operand.isTyped = true := hoperands (List.mem_singleton_self _)
    cases operand with
    | constant value => rfl
    | copy source =>
      obtain ⟨i, rfl⟩ := Datum.isWhole_iff.1 hoperand
      rfl
    | move source =>
      obtain ⟨i, rfl⟩ := Datum.isWhole_iff.1 hoperand
      rfl
    | foreign thing => cases hoperand
  | foreign thing => cases h
  | _ => rfl

theorem verdict_of_flow (h : s.isTyped = true) {target : Datum} {sources : List Datum}
    (hf : (Instruction.statement s).flow? = some (target, sources)) (l : Location) :
    verdict s l = .flow target sources := by
  obtain ⟨rvalue, heq, hsources⟩ := Instruction.exists_assign_of_flow hf
  cases heq
  rw [verdict, verdictOfAssign_eq (Bool.and_eq_true_iff.1 h).2, hsources]

theorem verdict_of_unruled (h : s.isTyped = true) {rvalue : Rvalue}
    (hr : (Instruction.statement s).unruled? = some rvalue) (l : Location) :
    verdict s l = verdictOfUnruled rvalue l := by
  obtain ⟨target, heq, hsources⟩ := Instruction.exists_assign_of_unruled hr
  cases heq
  rw [verdict, verdictOfAssign_eq (Bool.and_eq_true_iff.1 h).2, hsources]

theorem verdictOfUnruled_of_isWritten {rvalue : Rvalue} (h : rvalue.spelling.isWritten = true)
    (l : Location) : verdictOfUnruled rvalue l = .report (unsupported rvalue l) := by
  rw [verdictOfUnruled, Spelling.written_of_isWritten h]

theorem verdictOfUnruled_of_not_isWritten {rvalue : Rvalue}
    (h : rvalue.spelling.isWritten = false) (l : Location) :
    verdictOfUnruled rvalue l = .refuse (.numeralTooLong (Machine.digits.getD 0)) := by
  rw [verdictOfUnruled, Spelling.written_of_not_isWritten h]

theorem verdict_of_neither (h : s.isTyped = true)
    (hf : (Instruction.statement s).flow? = none)
    (hr : (Instruction.statement s).unruled? = none) (l : Location) : verdict s l = .keep := by
  cases s with
  | assign place rvalue =>
    have hnone := Option.map_eq_none_iff.1 hf
    rw [Instruction.unruled?, hnone] at hr
    cases hr
  | foreign thing => cases h
  | _ => rfl

end Rules

/-! ### Effects carry taint -/

namespace LocalSet

variable {S : LocalSet} {d : Datum}

theorem exists_contains (h : d.isLocal S.size = true) : ∃ b, S.contains d = .ok b := by
  obtain ⟨i, rfl, hnonneg, hlt⟩ := Datum.isLocal_iff.1 h
  refine ⟨S.has i.toNat, contains_eq_ok_iff.2 ⟨⟨i.toNat, by omega⟩, ?_, rfl⟩⟩
  rw [Int.toNat_of_nonneg hnonneg]

theorem exists_place [Machine] (h : d.isLocal S.size = true)
    (hsets : ∀ i : Nat, d = .int i → Machine.sets i = true) : ∃ i, S.place d = .ok i := by
  obtain ⟨i, rfl, hnonneg, hlt⟩ := Datum.isLocal_iff.1 h
  obtain ⟨k, rfl⟩ := Int.eq_ofNat_of_zero_le hnonneg
  exact ⟨⟨k, by omega⟩, place_eq_ok_iff.2 ⟨rfl, hsets k rfl⟩⟩

end LocalSet

/-- The machine can carry the instruction out: it sets the bit of the target of a rule, and spells
out what has no rule. -/
structure Instruction.Feasible [Machine] (i : Instruction) : Prop where
  sets : ∀ (j : Nat) (sources), i.flow? = some (.int j, sources) → Machine.sets j = true
  writes : ∀ rvalue, i.unruled? = some rvalue → rvalue.spelling.isWritten = true

namespace Taint

variable {η : Type} {t : Taint η} {n : Int} {i : Instruction} {l : Location} {S T : LocalSet}
  {s s' : Session (Memory η)}

/-- The analysis records what it has no rule for, and has no model of calls. -/
structure Lenient (t : Taint η) : Prop where
  strict : t.settings.isStrict = false
  callModel : t.settings.callModel = none
  callReturn : t.settings.callReturn = .noEffect

theorem reporter_eq (hstrict : t.settings.isStrict = false) (c : Construct) :
    t.reporter c = record c := by
  simp [reporter, hstrict]

theorem Lenient.reporter_eq (ht : t.Lenient) (c : Construct) : t.reporter c = record c :=
  Taint.reporter_eq ht.strict c

variable [Machine]

theorem Lenient.callReturn_eq (ht : t.Lenient) {c : Call} (hc : c.spelling.isWritten = true)
    (l : Location) : t.callReturn c l = record (unmodelled c l) := by
  rw [Taint.callReturn, ht.callModel, ht.callReturn, Spelling.written_of_isWritten hc]
  rfl

/-- A call that returns is left to the model, refused or recorded. -/
theorem callReturn_cases (t : Taint η) (c : Call) (l : Location) :
    (∃ model, t.settings.callModel = some model ∧
      t.callReturn c l = (model c l).within Memory.model fun h m => { m with model := h }) ∨
    (∃ f, t.callReturn c l = .raise f) ∨ t.callReturn c l = record (unmodelled c l) := by
  unfold callReturn
  split
  · next model hsome => exact .inl ⟨model, hsome, rfl⟩
  · right
    left
    cases c.spelling.written with
    | ok text => exact ⟨_, rfl⟩
    | error f => exact ⟨f, rfl⟩
  · right
    cases c.spelling.written with
    | ok text => exact .inr rfl
    | error f => exact .inl ⟨f, rfl⟩

/-- A call that cannot be spelled out is neither recorded nor reported. -/
theorem callReturn_of_not_isWritten (hmodel : t.settings.callModel = none) {c : Call}
    (hc : c.spelling.isWritten = false) (l : Location) :
    t.callReturn c l = Effect.raise (.numeralTooLong (Machine.digits.getD 0)) := by
  rw [callReturn, hmodel, Spelling.written_of_not_isWritten hc]
  cases t.settings.callReturn <;> rfl

/-- What an instruction does to a set is what it does to the tainted locals. -/
theorem members_of_run (hwf : i.isWellFormed n = true)
    (h : (t.analysis.instruction i l).run (S, s) = .ok () (T, s')) :
    T.members = Instruction.carry S.members i := by
  obtain (st | tm) := i
  · have htyped := st.isTyped_of_isWellFormed hwf
    change (Rules.statement t.reporter st l).run (S, s) = _ at h
    rw [Rules.statement_eq] at h
    cases hf : (Instruction.statement st).flow? with
    | some f =>
      obtain ⟨target, sources⟩ := f
      rw [Rules.verdict_of_flow htyped hf] at h
      obtain ⟨j, hj, hT⟩ := Effect.run_setTaint_eq_ok.1 (Rules.run_setTaint_of_flow h)
      obtain ⟨rfl, _⟩ := LocalSet.place_eq_ok_iff.1 hj
      cases hT
      ext d
      rw [Instruction.carry_of_flow hf, LocalSet.members_put, List.any_eq_true]
      rfl
    | none =>
      rw [Instruction.carry_of_none hf]
      cases hr : (Instruction.statement st).unruled? with
      | some rvalue =>
        rw [Rules.verdict_of_unruled htyped hr] at h
        cases hw : rvalue.spelling.isWritten with
        | true =>
          rw [Rules.verdictOfUnruled_of_isWritten hw] at h
          rw [t.reporter_inert _ h]
        | false =>
          rw [Rules.verdictOfUnruled_of_not_isWritten hw] at h
          cases h
      | none =>
        rw [Rules.verdict_of_neither htyped hf hr] at h
        cases h
        rfl
  · rw [Instruction.carry_of_none rfl, terminator_inert tm h]

theorem exists_run (hstrict : t.settings.isStrict = false) (hwf : i.isWellFormed n = true)
    (hsize : S.size = n) (hfeasible : i.Feasible) :
    ∃ T, Turns (t.analysis.instruction i l).run S T := by
  obtain (st | tm) := i
  · have htyped := st.isTyped_of_isWellFormed hwf
    change ∃ T, Turns (Rules.statement t.reporter st l).run S T
    rw [Rules.statement_eq]
    cases hf : (Instruction.statement st).flow? with
    | some f =>
      obtain ⟨target, sources⟩ := f
      obtain ⟨htarget, hsources⟩ := Instruction.isLocal_of_flow hwf hf
      rw [Rules.verdict_of_flow htyped hf]
      have hcontains : ∀ d ∈ sources, ∃ b, S.contains d = .ok b := fun d hd =>
        LocalSet.exists_contains (hsize ▸ hsources d hd)
      obtain ⟨j, hj⟩ := LocalSet.exists_place (S := S) (hsize ▸ htarget) fun k hk =>
        hfeasible.sets k sources (hk ▸ hf)
      exact ⟨_, fun s => ⟨s, Rules.run_flow hcontains hj⟩⟩
    | none =>
      cases hr : (Instruction.statement st).unruled? with
      | some rvalue =>
        rw [Rules.verdict_of_unruled htyped hr,
          Rules.verdictOfUnruled_of_isWritten (hfeasible.writes rvalue hr),
          Rules.Verdict.effect, reporter_eq hstrict]
        exact ⟨S, turns_record _ S⟩
      | none =>
        rw [Rules.verdict_of_neither htyped hf hr]
        exact ⟨S, Turns.pure S⟩
  · refine ⟨S, ?_⟩
    cases tm with
    | statement st => cases hwf
    | foreign thing => cases hwf
    | _ => exact Turns.pure S

/-- An instruction that has been carried out was feasible. -/
theorem feasible_of_run {T : LocalSet} (hi : i.isTyped = true)
    (h : (t.analysis.instruction i l).run (S, s) = .ok () (T, s')) : i.Feasible := by
  obtain (st | tm) := i
  · change (Rules.statement t.reporter st l).run (S, s) = _ at h
    rw [Rules.statement_eq] at h
    constructor
    · intro j sources hf
      rw [Rules.verdict_of_flow hi hf] at h
      obtain ⟨k, hk, _⟩ := Effect.run_setTaint_eq_ok.1 (Rules.run_setTaint_of_flow h)
      obtain ⟨hj, hsets⟩ := LocalSet.place_eq_ok_iff.1 hk
      rw [Datum.int.injEq, Int.natCast_inj] at hj
      rw [hj, hsets]
    · intro rvalue hr
      rw [Rules.verdict_of_unruled hi hr] at h
      cases hw : rvalue.spelling.isWritten with
      | true => rfl
      | false =>
        rw [Rules.verdictOfUnruled_of_not_isWritten hw] at h
        cases h
  · exact ⟨nofun, nofun⟩

/-! ### Blocks, edges and the entry -/

section

variable {body : Body} {bb succ : BlockId} {b : Block} {count j : Nat}

theorem members_of_replayFrom (hb : body.block bb = .ok b)
    (hwf : ∀ i ∈ b.instructions, i.isWellFormed n = true) (hj : j + count ≤ b.instructions.length)
    (h : t.analysis.replayFrom body bb count j (S, s) = .ok () (T, s')) :
    T.members = ((b.instructions.drop j).take count).foldl Instruction.carry S.members := by
  induction count generalizing j S s with
  | zero =>
    cases h
    rfl
  | succ count ih =>
    have hlt : j < b.instructions.length := by omega
    have hat : b.instructions[j]? = some b.instructions[j] := List.getElem?_eq_getElem hlt
    rw [Analysis.replayFrom_succ (Body.instructionAt_eq hb hat)] at h
    obtain ⟨⟨⟩, ⟨U, t₁⟩, hU, hT⟩ := estate_bind_eq_ok.1 h
    have hnext : (j : Int) + 1 = ((j + 1 : Nat) : Int) := by omega
    rw [hnext] at hT
    rw [List.drop_eq_getElem_cons hlt, List.take_succ_cons, List.foldl_cons,
      ← members_of_run (hwf _ (List.getElem_mem hlt)) hU]
    exact ih (by omega) hT

theorem exists_replayFrom (s : Session (Memory η)) (hstrict : t.settings.isStrict = false)
    (hb : body.block bb = .ok b) (hwf : ∀ i ∈ b.instructions, i.isWellFormed n = true)
    (hfeasible : ∀ i ∈ (b.instructions.drop j).take count, i.Feasible)
    (hj : j + count ≤ b.instructions.length) (hsize : S.size = n) :
    ∃ T, Turns (t.analysis.replayFrom body bb count j) S T := by
  induction count generalizing j S with
  | zero => exact ⟨S, Turns.pure S⟩
  | succ count ih =>
    have hlt : j < b.instructions.length := by omega
    have hat : b.instructions[j]? = some b.instructions[j] := List.getElem?_eq_getElem hlt
    have hmem : b.instructions[j] ∈ b.instructions := List.getElem_mem hlt
    have hnext : (j : Int) + 1 = ((j + 1 : Nat) : Int) := by omega
    rw [List.drop_eq_getElem_cons hlt, List.take_succ_cons, List.forall_mem_cons] at hfeasible
    obtain ⟨hfirst, hrest⟩ := hfeasible
    obtain ⟨U, hU⟩ := exists_run (l := ⟨bb, j⟩) hstrict (hwf _ hmem) hsize hfirst
    have hUsize : U.size = S.size := Effect.size_run (hU s).choose_spec
    obtain ⟨T, hT⟩ := ih (S := U) (j := j + 1) hrest (by omega) (by rw [hUsize, hsize])
    refine ⟨T, ?_⟩
    rw [Analysis.replayFrom_succ (Body.instructionAt_eq hb hat), hnext]
    exact hU.seq hT

/-- A replay that returns has carried out all instructions. -/
theorem feasible_of_replayFrom (hb : body.block bb = .ok b)
    (htyped : ∀ i ∈ b.instructions, i.isTyped = true) (hj : j + count ≤ b.instructions.length)
    (h : t.analysis.replayFrom body bb count j (S, s) = .ok () (T, s')) :
    ∀ i ∈ (b.instructions.drop j).take count, i.Feasible := by
  induction count generalizing j S s with
  | zero => simp
  | succ count ih =>
    have hlt : j < b.instructions.length := by omega
    have hat : b.instructions[j]? = some b.instructions[j] := List.getElem?_eq_getElem hlt
    have hnext : (j : Int) + 1 = ((j + 1 : Nat) : Int) := by omega
    rw [Analysis.replayFrom_succ (Body.instructionAt_eq hb hat), hnext] at h
    obtain ⟨⟨⟩, ⟨U, s₁⟩, hU, hT⟩ := estate_bind_eq_ok.1 h
    rw [List.drop_eq_getElem_cons hlt, List.take_succ_cons, List.forall_mem_cons]
    exact ⟨feasible_of_run (htyped _ (List.getElem_mem hlt)) hU, ih (by omega) hT⟩

/-- Replaying a block does to the members of a set what its instructions do one after the other. -/
theorem members_of_replay (hbody : body.WellFormed) (hbb : body.hasBlock bb = true)
    (h : Turns (t.analysis.replay body bb 0 none) S T) (s : Session (Memory η)) :
    T.members = (body.instructionsOf bb).foldl Instruction.carry S.members := by
  obtain ⟨b, hb⟩ := (Body.valid_of_validate hbody.validate).exists_block hbb
  obtain ⟨s', hrun⟩ := h s
  rw [Analysis.replay_zero_none hb] at hrun
  have hmembers := members_of_replayFrom (j := 0) hb
    (fun i hi => hbody.isWellFormed hbb hb hi) (by omega) hrun
  rw [hmembers, List.drop_zero, List.take_length, Body.instructionsOf_eq hb]

/-- Without a model of calls every edge passes the exit state on, if a call that returns can be
spelled out. -/
theorem edgeState_yields (ht : t.Lenient) (hb : body.block bb = .ok b)
    (hcall : ∀ c, Analysis.ReturnsTo b succ c → c.spelling.isWritten = true) (exit : LocalSet) :
    Run.Yields (t.analysis.edgeState body bb succ exit) exit := by
  intro s
  by_cases hc : ∃ c, Analysis.ReturnsTo b succ c
  · obtain ⟨c, hc⟩ := hc
    obtain ⟨s', hs'⟩ := turns_record (unmodelled c ⟨bb, b.terminatorIndex⟩) exit s
    rw [Analysis.edgeState_of_returnsTo hb hc]
    refine ⟨s', estate_bind_eq_ok.2 ⟨((), exit), s', Run.onto_eq_ok.2 ?_, rfl⟩⟩
    change (t.callReturn c _).run (exit, s) = _
    rw [ht.callReturn_eq (hcall c hc), hs']
  · rw [Analysis.edgeState_of_not_returnsTo hb (not_exists.1 hc)]
    exact ⟨s, rfl⟩

/-- A call whose return edge has passed a state on has been spelled out. -/
theorem isWritten_of_edgeState (hmodel : t.settings.callModel = none)
    (hb : body.block bb = .ok b) {c : Call} (hc : Analysis.ReturnsTo b succ c)
    {exit flow : LocalSet}
    (h : t.analysis.edgeState body bb succ exit s = .ok flow s') :
    c.spelling.isWritten = true := by
  rw [Analysis.edgeState_of_returnsTo hb hc] at h
  obtain ⟨⟨⟨⟩, T⟩, s₁, hrun, _⟩ := estate_bind_eq_ok.1 h
  have hrun := Run.onto_eq_ok.1 hrun
  change (t.callReturn c _).run (exit, s) = _ at hrun
  cases hw : c.spelling.isWritten with
  | true => rfl
  | false =>
    rw [callReturn_of_not_isWritten hmodel hw] at hrun
    cases hrun

theorem eq_of_edgeState (ht : t.Lenient) (hb : body.block bb = .ok b) {exit flow : LocalSet}
    (h : t.analysis.edgeState body bb succ exit s = .ok flow s') : exit = flow :=
  (edgeState_yields ht hb (fun _ hc => isWritten_of_edgeState ht.callModel hb hc h) exit).eq_of_ok h

theorem bottom_eq {k : Nat} (hk : body.localCount = k) :
    t.analysis.bottom body = .ok (.empty k) := by
  change LocalSet.bottom body.localCount = _
  rw [hk, LocalSet.bottom_natCast]

theorem members_of_taintAll {seed : List Datum}
    (h : (seed.forM Effect.taint : Effect (Memory η) Unit).run (S, s) = .ok () (T, s')) :
    T.members = S.members ∪ {d | d ∈ seed} := by
  induction seed generalizing S s with
  | nil =>
    cases h
    simp
  | cons d seed ih =>
    obtain ⟨i, hi, hrest⟩ := Effect.run_gen_eq_ok.1 h
    obtain ⟨rfl, _⟩ := LocalSet.place_eq_ok_iff.1 hi
    rw [ih hrest]
    ext e
    have hput := LocalSet.members_put S i true e
    simp only [LocalSet.put, if_true] at hput
    simp only [Set.mem_union, hput, Set.mem_ofPred_eq, List.mem_cons, and_true]
    by_cases he : e = .int i.val
    · simp [he]
    · simp [he]

/-- At the entry exactly the locals of the seed are tainted. -/
theorem members_of_start (h : (t.start body).run (S, s) = .ok () (T, s'))
    (hS : S.members = ∅) : T.members = {d | d ∈ t.seed} := by
  rw [members_of_taintAll (S := S) (s := ⟨_, _⟩) h, hS, Set.empty_union]

end

end Taint

end MayTaint
