import MayTaint.Proofs.Cause
import MayTaint.Proofs.Taint.Audit

/-!
Runs that refuse what others record. A strict run gives up on an rvalue without a rule, and a run
with the failing policy on a call that is not modelled; a lenient run records both and goes on.
Until something is refused the two do the same, visit by visit and in the same session. A run that
refuses follows a lenient one that returns: it returns with the same tables, or it gives up at a
construct that the lenient run has recorded. Records are never dropped, so that this is carried
through binds, from effects to blocks, joins, visits and whole runs.
-/

namespace MayTaint

def UnsupportedKind.code : UnsupportedKind → Code
  | .rvalue => .unsupportedRvalue
  | .callReturn => .unsupportedCallReturn

def Fault.Refuses [Machine] (f : Fault) (code : Code) (l : Location) : Prop :=
  ∃ report, f.report? = some report ∧ report.kind = .unsupportedConstruct ∧ report.code = code ∧
    report.location = some l

theorem Fault.Refuses.kind_eq [Machine] {f : Fault} {code : Code} {l : Location}
    (h : f.Refuses code l) :
    f.kind? = some .unsupportedConstruct := by
  obtain ⟨report, hreport, hkind, -⟩ := h
  rw [kind?, hreport, Option.map_some, hkind]

theorem AuditLog.entries_subset_record (log : AuditLog) (c : Construct) :
    log.entries ⊆ (log.record c).entries := by
  cases h : log.covers c with
  | true =>
    rw [record_of_covers h]
    exact List.Subset.refl _
  | false => exact fun d hd => (perm_record h).mem_iff.2 (List.mem_cons_of_mem c hd)

theorem AuditLog.mem_record {log : AuditLog} {c d : Construct} (h : d ∈ (log.record c).entries) :
    d = c ∨ d ∈ log.entries := by
  cases hc : log.covers c with
  | true =>
    rw [record_of_covers hc] at h
    exact .inr h
  | false => exact List.mem_cons.1 ((perm_record hc).mem_iff.1 h)

namespace Taint

variable [Machine] {η α β : Type} {t t₀ : Taint η}

def refuses (t : Taint η) : UnsupportedKind → Bool
  | .rvalue => t.settings.isStrict
  | .callReturn => t.settings.callReturn == .fail

def Clean (t : Taint η) (s : Session (Memory η)) : Prop :=
  ∀ c ∈ s.memory.audit.entries, t.refuses c.kind = false

/-- The computation `y`, which refuses what the settings say, follows `x`, which records it: if `x`
returns then `y` returns with it, or gives up at a construct that `x` has recorded. -/
structure Follows (t : Taint η) (x y : Run (Memory η) α) : Prop where
  grows : ∀ {s a s'}, x s = .ok a s' → s.memory.audit.entries ⊆ s'.memory.audit.entries
  ok : ∀ {s a s'}, t.Clean s → x s = .ok a s' → (t.Clean s' ∧ y s = .ok a s') ∨
    ∃ c ∈ s'.memory.audit.entries, t.refuses c.kind = true ∧
      ∃ f s'', y s = .error f s'' ∧ f.Refuses c.kind.code c.location

namespace Follows

/-- What leaves the memory as it is follows itself. -/
theorem same {x : Run (Memory η) α} (h : ∀ {s a s'}, x s = .ok a s' → s'.memory = s.memory) :
    t.Follows x x where
  grows hx := by
    rw [h hx]
    exact List.Subset.refl _
  ok hclean hx := by
    refine .inl ⟨fun c hc => hclean c ?_, hx⟩
    rw [← h hx]
    exact hc

theorem pure (a : α) : t.Follows (Pure.pure a) (Pure.pure a) :=
  same fun h => by
    cases h
    rfl

theorem ofExcept (o : Except Fault α) : t.Follows (Run.ofExcept o) (Run.ofExcept o) :=
  same fun h => by rw [(Run.ofExcept_eq_ok.1 h).2]

theorem tell (e : Event) : t.Follows (Run.tell e) (Run.tell e) :=
  same fun h => by
    cases h
    rfl

theorem bind {x y : Run (Memory η) α} {f g : α → Run (Memory η) β} (hx : t.Follows x y)
    (hf : ∀ a, t.Follows (f a) (g a)) : t.Follows (x >>= f) (y >>= g) where
  grows h := by
    obtain ⟨a, s₁, hxs, hfs⟩ := estate_bind_eq_ok.1 h
    exact List.Subset.trans (hx.grows hxs) ((hf a).grows hfs)
  ok hclean h := by
    obtain ⟨a, s₁, hxs, hfs⟩ := estate_bind_eq_ok.1 h
    rcases hx.ok hclean hxs with ⟨hclean₁, hys⟩ | ⟨c, hc, hrefused, e, s₂, hys, he⟩
    · rw [estate_bind_of_ok hys]
      exact (hf a).ok hclean₁ hfs
    · -- the rest of the run keeps the record of what was refused
      exact .inr ⟨c, (hf a).grows hfs hc, hrefused, e, s₂, estate_bind_of_error hys, he⟩

end Follows

/-! ### Effects -/

theorem follows_of_plain {x : Effect (Memory η) α} (hx : x.Plain) (S : LocalSet) :
    t.Follows (Run.onto S x.run) (Run.onto S x.run) := by
  let k : Contract (Memory η) :=
    ⟨fun s s' => s'.memory = s.memory, fun _ => True, fun _ => rfl, fun h h' => h'.trans h⟩
  have hk : Run.Keeps k (Run.onto S x.run) := hx.keeps (fun _ => trivial) S
  exact Follows.same fun h => hk.ok h

/-- Recording a construct is followed by refusing it if the settings say so, and else by recording
it. -/
theorem follows_record {c : Construct} {y : Effect (Memory η) Unit}
    (hrefused : t.refuses c.kind = true → ∃ f, y = .raise f ∧ f.Refuses c.kind.code c.location)
    (hrecorded : t.refuses c.kind = false → y = record c) (S : LocalSet) :
    t.Follows (Run.onto S (record c).run) (Run.onto S y.run) := by
  have hrun : ∀ s : Session (Memory η), Run.onto S (record c).run s = .ok ((), S) (note c s) := by
    intro s
    rw [Run.onto, run_record]
  constructor
  · intro s a s' h
    rw [hrun] at h
    cases h
    rw [audit_note]
    exact AuditLog.entries_subset_record _ c
  · intro s a s' hclean h
    have hs := (hrun s).symm.trans h
    cases hs
    cases hkind : t.refuses c.kind with
    | false =>
      refine .inl ⟨fun d hd => ?_, hrecorded hkind ▸ h⟩
      rw [audit_note] at hd
      rcases AuditLog.mem_record hd with rfl | hd
      · exact hkind
      · exact hclean d hd
    | true =>
      obtain ⟨f, rfl, hf⟩ := hrefused hkind
      obtain ⟨d, hd, hkey⟩ := AuditLog.covers_iff.1 (covers_note c s)
      obtain ⟨hlocation, hsame⟩ := Construct.sameKey_iff.1 hkey
      exact .inr ⟨d, hd, hsame ▸ hkind, f, s, rfl, hsame ▸ hlocation ▸ hf⟩

section

variable (h₀ : t₀.Lenient)

include h₀

theorem Lenient.follows_instruction (t : Taint η) (i : Instruction) (l : Location) (S : LocalSet) :
    t.Follows (Run.onto S (t₀.analysis.instruction i l).run)
      (Run.onto S (t.analysis.instruction i l).run) := by
  obtain (st | tm) := i
  · show t.Follows (Run.onto S (Rules.statement t₀.reporter st l).run)
      (Run.onto S (Rules.statement t.reporter st l).run)
    rw [Rules.statement_eq, Rules.statement_eq]
    by_cases hverdict : ∃ c, Rules.verdict st l = .report c
    · obtain ⟨c, hverdict⟩ := hverdict
      obtain ⟨target, rvalue, _, _, rfl⟩ := Rules.exists_of_verdict_eq_report hverdict
      rw [hverdict, Rules.Verdict.effect, Rules.Verdict.effect, h₀.reporter_eq]
      refine follows_record (fun hstrict => ?_) (fun hstrict => ?_) S
      · have hstrict : t.settings.isStrict = true := hstrict
        exact ⟨_, if_pos hstrict, _, rfl, rfl, rfl, rfl⟩
      · have hstrict : t.settings.isStrict = false := hstrict
        simp [reporter, hstrict]
    · have hsame : (Rules.verdict st l).effect t₀.reporter =
          (Rules.verdict st l).effect t.reporter := by
        cases hv : Rules.verdict st l with
        | report c => exact absurd ⟨c, hv⟩ hverdict
        | _ => rfl
      rw [hsame]
      exact follows_of_plain (Rules.Verdict.plain t.reporter (not_exists.1 hverdict)) S
  · exact follows_of_plain (terminator_plain tm) S

theorem Lenient.follows_callReturn (hmodel : t.settings.callModel = none) (c : Call) (l : Location)
    (S : LocalSet) :
    t.Follows (Run.onto S (t₀.callReturn c l).run) (Run.onto S (t.callReturn c l).run) := by
  cases hw : c.spelling.isWritten with
  | false =>
    rw [callReturn_of_not_isWritten h₀.callModel hw, callReturn_of_not_isWritten hmodel hw]
    exact follows_of_plain (x := .raise _) trivial S
  | true =>
    rw [h₀.callReturn_eq hw, Taint.callReturn, hmodel, Spelling.written_of_isWritten hw]
    refine follows_record (fun hfail => ?_) (fun hfail => ?_) S
    · have hfail : t.settings.callReturn = .fail := beq_iff_eq.1 hfail
      rw [hfail]
      exact ⟨_, rfl, _, rfl, rfl, rfl, rfl⟩
    · have hfail : t.settings.callReturn ≠ .fail := beq_eq_false_iff_ne.1 hfail
      cases hpolicy : t.settings.callReturn with
      | fail => exact absurd hpolicy hfail
      | noEffect => rfl

end

/-! ### Blocks, joins and visits -/

section

variable (h₀ : t₀.Lenient) (hmodel : t.settings.callModel = none) (body : Body)

include h₀

theorem Lenient.follows_replayFrom (bb : BlockId) (count : Nat) (index : Int) (S : LocalSet) :
    t.Follows (Run.onto S (t₀.analysis.replayFrom body bb count index))
      (Run.onto S (t.analysis.replayFrom body bb count index)) := by
  induction count generalizing index S with
  | zero => exact Follows.pure ((), S)
  | succ count ih =>
    cases hi : body.instructionAt ⟨bb, index⟩ with
    | ok i =>
      rw [Analysis.replayFrom_succ hi, Analysis.replayFrom_succ hi, Run.onto_bind, Run.onto_bind]
      exact (h₀.follows_instruction t i _ S).bind fun r => ih (index + 1) r.2
    | error f =>
      rw [Analysis.replayFrom_succ_error hi, Analysis.replayFrom_succ_error hi]
      exact Follows.ofExcept (.error f)

theorem Lenient.follows_replay (bb : BlockId) (S : LocalSet) :
    t.Follows (Run.onto S (t₀.analysis.replay body bb 0 none))
      (Run.onto S (t.analysis.replay body bb 0 none)) := by
  cases hb : body.block bb with
  | ok b =>
    rw [Analysis.replay_of_block hb, Analysis.replay_of_block hb]
    exact h₀.follows_replayFrom body bb _ _ S
  | error f =>
    rw [Analysis.replay, Analysis.replay, hb]
    exact Follows.ofExcept (.error f)

include hmodel

theorem Lenient.follows_edgeState (pred succ : BlockId) (exit : LocalSet) :
    t.Follows (t₀.analysis.edgeState body pred succ exit)
      (t.analysis.edgeState body pred succ exit) := by
  cases hb : body.block pred with
  | ok b =>
    by_cases hc : ∃ c, Analysis.ReturnsTo b succ c
    · obtain ⟨c, hc⟩ := hc
      rw [Analysis.edgeState_of_returnsTo hb hc, Analysis.edgeState_of_returnsTo hb hc]
      exact (h₀.follows_callReturn hmodel c _ exit).bind fun r => Follows.pure r.2
    · rw [Analysis.edgeState_of_not_returnsTo hb (not_exists.1 hc),
        Analysis.edgeState_of_not_returnsTo hb (not_exists.1 hc)]
      exact Follows.pure exit
  | error f =>
    rw [Analysis.edgeState, Analysis.edgeState, hb]
    exact Follows.ofExcept (.error f)

variable (limits : Limits) (start : LocalSet) (table : List (List BlockId))

theorem Lenient.follows_joinFlows (exits : Table LocalSet) (bb : BlockId) (preds : List BlockId)
    (state : LocalSet) :
    t.Follows ((t₀.analysis.solver limits body start table).joinFlows exits bb preds state)
      ((t.analysis.solver limits body start table).joinFlows exits bb preds state) := by
  induction preds generalizing state with
  | nil => exact Follows.pure state
  | cons pred preds ih =>
    cases hexit : exits.get? pred with
    | none =>
      rw [Solver.joinFlows_cons_none hexit, Solver.joinFlows_cons_none hexit]
      exact ih state
    | some exit =>
      rw [Solver.joinFlows_cons_some hexit, Solver.joinFlows_cons_some hexit]
      exact (h₀.follows_edgeState hmodel body pred bb exit).bind fun flow =>
        (Follows.ofExcept _).bind ih

theorem Lenient.follows_visit (bb : BlockId) (p : Progress) :
    t.Follows ((t₀.analysis.solver limits body start table).visit bb p)
      ((t.analysis.solver limits body start table).visit bb p) := by
  have hjoin : t.Follows ((t₀.analysis.solver limits body start table).joinIncoming p.exits bb)
      ((t.analysis.solver limits body start table).joinIncoming p.exits bb) :=
    (Follows.ofExcept _).bind fun state => (Follows.ofExcept _).bind fun preds =>
      h₀.follows_joinFlows hmodel body limits start table p.exits bb preds state
  refine hjoin.bind fun entry => (h₀.follows_replay body bb entry).bind fun r => ?_
  exact (Follows.ofExcept _).bind fun _ => (Follows.tell _).bind fun _ => Follows.ofExcept _

theorem Lenient.follows_iterate (limit : Datum) (allowed : Nat) (p : Progress) :
    t.Follows ((t₀.analysis.solver limits body start table).iterate limit allowed p)
      ((t.analysis.solver limits body start table).iterate limit allowed p) := by
  induction allowed generalizing p with
  | zero =>
    cases hw : p.waiting with
    | nil =>
      rw [Solver.iterate_of_nil hw, Solver.iterate_of_nil hw]
      exact Follows.pure p
    | cons bb rest =>
      rw [Solver.iterate_zero_of_cons hw, Solver.iterate_zero_of_cons hw]
      exact Follows.ofExcept (.error _)
  | succ allowed ih =>
    cases hw : p.waiting with
    | nil =>
      rw [Solver.iterate_of_nil hw, Solver.iterate_of_nil hw]
      exact Follows.pure p
    | cons bb rest =>
      rw [Solver.iterate_succ_of_cons hw, Solver.iterate_succ_of_cons hw]
      exact (h₀.follows_visit hmodel body limits start table bb _).bind ih

end

end Taint

/-! ### Whole runs -/

structure Results.Agrees {σ : Type} (r r' : Results σ) : Prop where
  entries : r.entries = r'.entries
  exits : r.exits = r'.exits
  iterations : r.iterations = r'.iterations
  unsupported : r.unsupported = r'.unsupported

namespace Taint

variable [Machine] {η : Type} {t t₀ : Taint η} {body : Body} {r : Results (Memory η)}
  {s s' : Session (Memory η)}

/-- How a run that refuses ends where a lenient one has returned `r` in the session `s'`. -/
inductive Echoes (t : Taint η) (r : Results (Memory η)) (s' : Session (Memory η)) :
    EStateM.Result Fault (Session (Memory η)) (Results (Memory η)) → Prop
  | returns {r'} (clean : ∀ c ∈ r.unsupported, t.refuses c.kind = false) (agrees : r'.Agrees r) :
    t.Echoes r s' (.ok r' s')
  | refuses {c f s''} (recorded : c ∈ r.unsupported) (refused : t.refuses c.kind = true)
    (fault : f.Refuses c.kind.code c.location) : t.Echoes r s' (.error f s'')

namespace Echoes

variable {x : EStateM.Result Fault (Session (Memory η)) (Results (Memory η))}
  {kind : UnsupportedKind}

/-- A run that refuses one kind gives up at a record of that kind, if there is one. -/
theorem of_recorded (h : t.Echoes r s' x) (hkind : ∀ k, t.refuses k = true ↔ k = kind)
    (hrecorded : ∃ c ∈ r.unsupported, c.kind = kind) :
    ∃ f s'', x = .error f s'' ∧
      ∃ c ∈ r.unsupported, c.kind = kind ∧ f.Refuses kind.code c.location := by
  cases h with
  | returns hclean =>
    obtain ⟨c, hc, hk⟩ := hrecorded
    exact absurd ((hkind c.kind).2 hk) (by simp [hclean c hc])
  | @refuses c f s'' hc hrefused hf =>
    have hk := (hkind c.kind).1 hrefused
    exact ⟨f, s'', rfl, c, hc, hk, hk ▸ hf⟩

/-- A run returns with the lenient one if nothing that it refuses is recorded. -/
theorem of_not_recorded (h : t.Echoes r s' x)
    (hnone : ∀ c ∈ r.unsupported, t.refuses c.kind = false) :
    ∃ r', x = .ok r' s' ∧ r'.Agrees r := by
  cases h with
  | returns _ hagrees => exact ⟨_, rfl, hagrees⟩
  | refuses hc hrefused => exact absurd hrefused (by simp [hnone _ hc])

/-- A run that refuses everything gives up exactly if something is recorded. -/
theorem raises_iff (h : t.Echoes r s' x) (hall : ∀ k, t.refuses k = true) :
    (∃ f s'', x = .error f s'' ∧ f.kind? = some .unsupportedConstruct) ↔ r.unsupported ≠ [] := by
  cases h with
  | returns hclean =>
    have hnil : r.unsupported = [] :=
      List.eq_nil_iff_forall_not_mem.2 fun c hc => by simpa [hall] using hclean c hc
    simp [hnil]
  | refuses hc _ hf =>
    exact ⟨fun _ => List.ne_nil_of_mem hc, fun _ => ⟨_, _, rfl, hf.kind_eq⟩⟩

end Echoes

/-- Before its first visit a run has recorded nothing, whatever it refuses. -/
theorem Lenient.echoes_solve (h₀ : t₀.Lenient) (hmodel : t.settings.callModel = none)
    (hseed : t.seed = t₀.seed) {limits : Limits}
    (h : t₀.analysis.solve limits body s = .ok r s') :
    t.Echoes r s' (t.analysis.solve limits body s) := by
  obtain ⟨bottom, _, _, table, _, _, hrun, -⟩ := Analysis.solved_of_solve h
  have hvalid := hrun.valid.validate
  have hsame : t.analysis.start body = t₀.analysis.start body := by
    show t.start body = t₀.start body
    rw [start, start, hseed]
  rw [Analysis.solve_eq hvalid hrun.bottom_eq hrun.table_eq] at h
  rw [Analysis.solve_eq hvalid (show t.analysis.bottom body = .ok bottom from hrun.bottom_eq)
    hrun.table_eq, hsame]
  obtain ⟨⟨⟨⟩, start⟩, s₁, hstart, h₁⟩ := estate_bind_eq_ok.1 h
  obtain ⟨p, s₂, hiterate, h₂⟩ := estate_bind_eq_ok.1 h₁
  cases h₂
  have hclean : t.Clean s₁ := by
    rw [(run_start (Run.onto_eq_ok.1 hstart)).2]
    intro c hc
    cases hc
  rw [estate_bind_of_ok hstart]
  dsimp only
  rcases (h₀.follows_iterate hmodel body limits start table _ _ _).ok hclean hiterate with
    ⟨hclean₂, hfollowed⟩ | ⟨c, hc, hrefused, f, s₃, hfollowed, hf⟩
  · rw [estate_bind_of_ok hfollowed]
    exact .returns hclean₂ ⟨rfl, rfl, rfl, rfl⟩
  · rw [estate_bind_of_error hfollowed]
    exact .refuses hc hrefused hf

end Taint

section

variable [Machine] {η : Type} {body : Body} {seed : List Datum} {settings : Settings η}
  {s s' : Session (Taint.Memory η)} {r : Results (Taint.Memory η)}

theorem Taint.echoes_analyze (h₀ : (Taint.mk seed settings).Lenient) (settings' : Settings η)
    (hmodel : settings'.callModel = none) (hlimits : settings'.toLimits = settings.toLimits)
    (h : analyze body seed settings s = .ok r s') :
    (Taint.mk seed settings').Echoes r s' (analyze body seed settings' s) := by
  obtain ⟨r₀, hr₀, rfl⟩ := analyze_eq_ok.1 h
  have hsolve := h₀.echoes_solve (t := ⟨seed, settings'⟩) hmodel rfl hr₀
  rw [← hlimits] at hsolve
  generalize hrun : (Taint.mk seed settings').analysis.solve settings'.toLimits body
    { s with memory := { s.memory with audit := {} } } = run at hsolve
  cases hsolve with
  | returns hclean hagrees =>
    rw [analyze_eq_ok.2 ⟨_, hrun, rfl⟩]
    exact .returns hclean ⟨hagrees.entries, hagrees.exits, hagrees.iterations, hagrees.unsupported⟩
  | refuses hc hrefused hf =>
    have hraises : analyze body seed settings' s = .error _ _ :=
      (estate_bind_of_ok rfl).trans (estate_bind_of_error hrun)
    rw [hraises]
    exact .refuses hc hrefused hf

/-- Refusing agrees with recording. Where a lenient analysis returns, a strict one gives up at one
of the recorded rvalues, and one with the failing policy at one of the recorded calls; if there is
no such record they return the same. With both set an analysis gives up exactly if anything is
recorded, and else returns the same. -/
theorem analyze_refuses_recorded {strict : Datum} (hlenient : (Taint.mk seed settings).Lenient)
    (hstrict : strict.truth = true) (h : analyze body seed settings s = .ok r s') :
    ((∃ c ∈ r.unsupported, c.kind = .rvalue) →
      ∃ f s'', analyze body seed { settings with strict } s = .error f s'' ∧
        ∃ c ∈ r.unsupported, c.kind = .rvalue ∧ f.Refuses .unsupportedRvalue c.location) ∧
    ((∀ c ∈ r.unsupported, c.kind ≠ .rvalue) →
      ∃ r', analyze body seed { settings with strict } s = .ok r' s' ∧ r'.Agrees r) ∧
    ((∃ c ∈ r.unsupported, c.kind = .callReturn) →
      ∃ f s'', analyze body seed { settings with callReturn := .fail } s = .error f s'' ∧
        ∃ c ∈ r.unsupported, c.kind = .callReturn ∧
          f.Refuses .unsupportedCallReturn c.location) ∧
    ((∀ c ∈ r.unsupported, c.kind ≠ .callReturn) →
      ∃ r', analyze body seed { settings with callReturn := .fail } s = .ok r' s' ∧
        r'.Agrees r) ∧
    ((∃ f s'', analyze body seed { settings with strict, callReturn := .fail } s = .error f s'' ∧
      f.kind? = some .unsupportedConstruct) ↔ r.unsupported ≠ []) ∧
    (r.unsupported = [] →
      ∃ r', analyze body seed { settings with strict, callReturn := .fail } s = .ok r' s' ∧
        r'.Agrees r) := by
  have hmodel := hlenient.callModel
  have hpolicy : settings.callReturn = .noEffect := hlenient.callReturn
  have honlyStrict : ∀ k, (Taint.mk seed { settings with strict }).refuses k = true ↔
      k = .rvalue := by
    intro k
    cases k with
    | rvalue => simpa [Taint.refuses, Settings.isStrict] using hstrict
    | callReturn => simp [Taint.refuses, hpolicy]
  have honlyFail : ∀ k, (Taint.mk seed { settings with callReturn := .fail }).refuses k = true ↔
      k = .callReturn := by
    intro k
    cases k with
    | rvalue => simpa [Taint.refuses, Settings.isStrict] using hlenient.strict
    | callReturn => simp [Taint.refuses]
  have hall : ∀ k, (Taint.mk seed { settings with strict, callReturn := .fail }).refuses k =
      true := by
    intro k
    cases k with
    | rvalue => exact hstrict
    | callReturn => rfl
  have hechoStrict := Taint.echoes_analyze hlenient { settings with strict } hmodel rfl h
  have hechoFail := Taint.echoes_analyze hlenient { settings with callReturn := .fail } hmodel rfl h
  have hechoBoth := Taint.echoes_analyze hlenient { settings with strict, callReturn := .fail }
    hmodel rfl h
  refine ⟨hechoStrict.of_recorded honlyStrict, fun hnone => ?_, hechoFail.of_recorded honlyFail,
    fun hnone => ?_, hechoBoth.raises_iff hall, fun hnil => ?_⟩
  · exact hechoStrict.of_not_recorded fun c hc =>
      Bool.eq_false_iff.2 fun hk => hnone c hc ((honlyStrict _).1 hk)
  · exact hechoFail.of_not_recorded fun c hc =>
      Bool.eq_false_iff.2 fun hk => hnone c hc ((honlyFail _).1 hk)
  · exact hechoBoth.of_not_recorded (by simp [hnil])

end

attribute [local instance] Machine.ample in
/-- The length and the call of the laps are refused where they stand. -/
theorem analyze_refuses_laps :
    ∃ r s', analyze laps [.int 0] {} ⟨⟨{}, ()⟩, []⟩ = .ok r s' ∧
      (∃ f s'', analyze laps [.int 0] { strict := .bool true } ⟨⟨{}, ()⟩, []⟩ = .error f s'' ∧
        f.Refuses .unsupportedRvalue ⟨0, 0⟩) ∧
      (∃ f s'', analyze laps [.int 0] { callReturn := .fail } ⟨⟨{}, ()⟩, []⟩ = .error f s'' ∧
        f.Refuses .unsupportedCallReturn ⟨0, 1⟩) ∧
      ∃ f s'', analyze laps [.int 0] { strict := .bool true, callReturn := .fail }
        ⟨⟨{}, ()⟩, []⟩ = .error f s'' ∧ f.kind? = some .unsupportedConstruct := by
  obtain ⟨r, s', h, hrecords⟩ : ∃ r s', analyze laps [.int 0] {} ⟨⟨{}, ()⟩, []⟩ = .ok r s' ∧
      r.unsupported.map (fun c => (c.location, c.kind)) =
        [(⟨0, 0⟩, .rvalue), (⟨0, 1⟩, .callReturn)] := ⟨_, _, by cbv, by cbv⟩
  have hrecord : ∀ l k, (∃ c ∈ r.unsupported, c.location = l ∧ c.kind = k) ↔
      (l, k) ∈ [((⟨0, 0⟩ : Location), UnsupportedKind.rvalue), (⟨0, 1⟩, .callReturn)] := by
    intro l k
    rw [← hrecords]
    simp
  obtain ⟨c, hc, -, hrvalue⟩ := (hrecord ⟨0, 0⟩ .rvalue).2 (by simp)
  obtain ⟨d, hd, -, hcall⟩ := (hrecord ⟨0, 1⟩ .callReturn).2 (by simp)
  have htrue : (Datum.bool true).truth = true := rfl
  obtain ⟨hstrict, -, hfail, -, hboth, -⟩ := analyze_refuses_recorded ⟨rfl, rfl, rfl⟩ htrue h
  obtain ⟨f, s₁, hf, c', hc', hrvalue', hat⟩ := hstrict ⟨c, hc, hrvalue⟩
  obtain ⟨g, s₂, hg, d', hd', hcall', hat'⟩ := hfail ⟨d, hd, hcall⟩
  have hfirst : c'.location = ⟨0, 0⟩ := by
    simpa [hrvalue'] using (hrecord _ _).1 ⟨c', hc', rfl, hrvalue'⟩
  have hsecond : d'.location = ⟨0, 1⟩ := by
    simpa [hcall'] using (hrecord _ _).1 ⟨d', hd', rfl, hcall'⟩
  exact ⟨r, s', h, ⟨f, s₁, hf, hfirst ▸ hat⟩, ⟨g, s₂, hg, hsecond ▸ hat'⟩,
    hboth.2 (List.ne_nil_of_mem hc)⟩

end MayTaint
