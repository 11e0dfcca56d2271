import MayTaint.Proofs.Coupling
import MayTaint.Proofs.Queries
import MayTaint.Proofs.Taint.Audit

/-!
How quiet queries are. Results of the taint analysis are replayed by a copy that goes on recording
in the audit of the run. It stays silent where the run has recorded already what it meets. A run
that returns has done so for every block that it reached, whatever its settings and its model of
calls: an assignment without a rule is recorded at the first visit, or the run gives up there. A
query that replays a block that was not reached may meet assignments that no one has recorded, and
then records them and tells the log. Nothing else ever changes.
-/

namespace MayTaint

inductive Body.Untreated (body : Body) (bb : BlockId) : Construct → Prop
  | assign {b : Block} {i : Nat} {target : Datum} {rvalue : Rvalue}
    (hb : body.block bb = .ok b) (hi : b.statements[i]? = some (.assign target rvalue))
    (h : rvalue.isUnmodelled = true) : Untreated body bb (Rules.unsupported rvalue ⟨bb, i⟩)

namespace Taint

variable {η : Type} {t : Taint η} {body : Body} {bb : BlockId} {k : Contract (Memory η)}
  {c : Construct}

/-! ### What the effects keep -/

section

variable {γ : Type} [Accumulator γ]

theorem keeps_onto_record (h : ∀ s, k.moves s (note c s)) (acc : γ) :
    Run.Keeps k (Run.onto acc (record c).run) := by
  constructor
  · intro s a s' hrun
    rw [Run.onto, run_record] at hrun
    cases hrun
    exact h s
  · intro s f s' hrun
    rw [Run.onto, run_record] at hrun
    cases hrun

variable [Machine]

/-- An instruction keeps a contract if recording does, wherever it has to record something. -/
theorem keeps_instruction (hk : k.Tolerant) {i : Instruction} {l : Location}
    (h : ∀ target rvalue, i = .statement (.assign target rvalue) → rvalue.isUnmodelled = true →
      ∀ s, k.moves s (note (Rules.unsupported rvalue l) s)) (acc : γ) :
    Run.Keeps k (Run.onto acc (t.analysis.instruction i l).run) := by
  obtain (st | term) := i
  · show Run.Keeps k (Run.onto acc (Rules.statement t.reporter st l).run)
    rw [Rules.statement_eq]
    by_cases hverdict : ∃ c, Rules.verdict st l = .report c
    · obtain ⟨c, hverdict⟩ := hverdict
      obtain ⟨target, rvalue, rfl, hr, rfl⟩ := Rules.exists_of_verdict_eq_report hverdict
      rw [hverdict, Rules.Verdict.effect, reporter]
      split
      · refine Effect.Plain.keeps hk ?_ acc
        trivial
      · exact keeps_onto_record (h target rvalue rfl hr) acc
    · exact (Rules.Verdict.plain t.reporter (not_exists.1 hverdict)).keeps hk acc
  · exact (terminator_plain term).keeps hk acc

end

variable [Machine]

/-! ### What a run has recorded -/

def recording : Contract (Memory η) where
  moves s s' := AuditGrows s s' ∧ s'.memory.audit.body = s.memory.audit.body
  faults _ := True
  refl _ := ⟨fun _ h => h, rfl⟩
  trans h h' := ⟨fun _ hc => h'.1 (h.1 hc), h'.2.trans h.2⟩

omit [Machine] in
theorem recording_note (c : Construct) (s : Session (Memory η)) :
    recording.moves s (note c s) :=
  ⟨auditGrows_note c s, by rw [audit_note, AuditLog.body_record]⟩

/-- A model of calls cannot get at the audit. -/
theorem keeps_model (x : Effect η Unit) (S : LocalSet) :
    Run.Keeps recording
      (Run.onto S (x.within Memory.model fun h (m : Memory η) => { m with model := h }).run) := by
  have hmoves : ∀ {s s' : Session (Memory η)}, s'.memory.audit = s.memory.audit →
      recording.moves s s' := by
    intro s s' haudit
    refine ⟨fun c hc => ?_, by rw [haudit]⟩
    rw [haudit]
    exact hc
  have halike : ∀ s : Session (Memory η),
      (Coupling.part (fun h (m : Memory η) => { m with model := h }) s.memory).Alike
        (Run.onto S (x.within Memory.model fun h (m : Memory η) => { m with model := h }).run s)
        (Run.onto S x.run ⟨s.memory.model, s.told⟩) := by
    intro s
    refine Effect.pairs_within ?_ ?_ s.memory x S ?_
    · exact fun _ _ => rfl
    · exact fun _ _ _ => rfl
    · exact ⟨rfl, rfl⟩
  constructor
  · intro s a s' hrun
    have hends := halike s
    rw [hrun] at hends
    generalize Run.onto S x.run _ = y at hends
    cases hends with
    | ok h => exact hmoves (by rw [h.1])
  · intro s f s' hrun
    have hends := halike s
    rw [hrun] at hends
    generalize Run.onto S x.run _ = y at hends
    cases hends with
    | error h => exact ⟨hmoves (by rw [h.1]), trivial⟩

theorem keeps_recording (t : Taint η) (body : Body) : t.analysis.Keeps body recording where
  bottom _ := trivial
  join := trivial
  instruction _ _ _ S :=
    keeps_instruction (fun _ => trivial) (fun _ _ _ _ => recording_note _) S
  callReturn {bb b c target} _ _ _ _ S := by
    show Run.Keeps recording (Run.onto S (t.callReturn c ⟨bb, b.terminatorIndex⟩).run)
    rcases t.callReturn_cases c ⟨bb, b.terminatorIndex⟩ with ⟨_, _, hcall⟩ | ⟨f, hcall⟩ | hcall
    · rw [hcall]
      exact keeps_model _ S
    · rw [hcall]
      exact Effect.Plain.keeps (x := .raise f) (fun _ => trivial) trivial S
    · rw [hcall]
      exact keeps_onto_record (recording_note _) S

def Recorded (body : Body) (p : Progress) (s : Session (Memory η)) : Prop :=
  ∀ bb c, (p.exits.get? bb).isSome = true → body.Untreated bb c → s.memory.audit.covers c = true

/-- After a run the audit has the name of the body, and holds what the visited blocks have no rules
for. -/
theorem recorded_of_solved {limits : Limits} {s₀ s₁ s₂ : Session (Memory η)}
    {bottom start : LocalSet} {table : List (List BlockId)} {p : Progress}
    (hrun : t.analysis.Solved limits body s₀ bottom start s₁ table p s₂) :
    s₂.memory.audit.body = body.name ∧ Recorded body p s₂ := by
  have hready := hrun.ready
  have hkeeps := t.keeps_recording body
  obtain ⟨limit, allowed, hiterate⟩ := hrun.iterate_eq
  have hnamed : s₁.memory.audit.body = body.name := by
    rw [(run_start hrun.start_eq).2]
  obtain ⟨⟨-, hrecorded⟩, -⟩ := Solver.iterate_induct
    (fun p s => (t.analysis.solver limits body start table).Explored p ∧
      s.memory.audit.body = body.name ∧ Recorded body p s)
    (fun {bb rest entry exit p s p' s'} hs hinv => by
      obtain ⟨he, hname, hrecorded⟩ := hinv
      refine ⟨he.step hs, ?_, ?_⟩
      · obtain ⟨s₃, hmoves, rfl⟩ := hs.moves hready hkeeps he
        exact hmoves.2.trans hname
      · intro x c hx hc
        -- a visit that returns has met all of its block: to refuse is a fault
        cases hc with
        | assign hb hi hr =>
          exact covers_of_step hkeeps (fun hmoves => hmoves.1) hready he hs hx hb hi hr
            fun hx => hrecorded x _ hx (.assign hb hi hr))
    hiterate ⟨Solver.explored_init _, hnamed, fun _ _ h => by cases h⟩
  exact hrecorded

/-! ### What replays record -/

def noteAll (met : List Construct) (s : Session (Memory η)) : Session (Memory η) :=
  met.foldl (fun s c => note c s) s

def noting (P : Construct → Prop) : Contract (Memory η) where
  moves s s' := ∃ met, (∀ c ∈ met, P c) ∧ s' = noteAll met s
  faults _ := True
  refl _ := ⟨[], by simp, rfl⟩
  trans := by
    rintro s s' s'' ⟨met, hmet, rfl⟩ ⟨met', hmet', rfl⟩
    refine ⟨met ++ met', fun c hc => ?_, (List.foldl_append ..).symm⟩
    exact (List.mem_append.1 hc).elim (hmet c) (hmet' c)

theorem keepsUpTo_noting {P : Construct → Prop} {n : Nat}
    (h : ∀ c, body.Untreated bb c → c.location.index < n → P c) :
    t.analysis.KeepsUpTo (noting P) body bb n := by
  intro b j i hb hj hi γ _ acc
  refine keeps_instruction (fun _ => trivial) (fun target rvalue hassign hr s => ?_) acc
  subst hassign
  have hc : body.Untreated bb (Rules.unsupported rvalue ⟨bb, j⟩) :=
    .assign hb (Block.instructions_eq_statement_iff.1 hi) hr
  refine ⟨[Rules.unsupported rvalue ⟨bb, j⟩], ?_, rfl⟩
  simpa using h _ hc (Int.ofNat_lt.2 hj)

omit [Machine] in
theorem noteAll_of_covers {met : List Construct} {s : Session (Memory η)}
    (h : ∀ c ∈ met, s.memory.audit.covers c = true) : noteAll met s = s := by
  induction met with
  | nil => rfl
  | cons c met ih =>
    rw [noteAll, List.foldl_cons, note_of_covers (h c List.mem_cons_self)]
    exact ih fun d hd => h d (List.mem_cons_of_mem _ hd)

/-- A session comes from another by records that are new, one for each location and kind, and a
warning for each of them. -/
structure Adds (s : Session (Memory η)) (new : List Construct) (s' : Session (Memory η)) :
    Prop where
  log : s'.log = s.log ++ new.map (.unsupported s.memory.audit.body)
  entries : s'.memory.audit.entries.Perm (s.memory.audit.entries ++ new)
  model : s'.memory.model = s.memory.model
  distinct : new.Pairwise fun c d => d.sameKey c = false
  uncovered : ∀ c ∈ new, s.memory.audit.covers c = false

omit [Machine] in
theorem Adds.refl (s : Session (Memory η)) : Adds s [] s where
  log := by simp
  entries := by simp
  model := rfl
  distinct := List.Pairwise.nil
  uncovered := by simp

omit [Machine] in
theorem Adds.cons {s s' : Session (Memory η)} {new : List Construct}
    (hc : s.memory.audit.covers c = false) (h : Adds (note c s) new s') :
    Adds s (c :: new) s' := by
  -- from here on `c` is covered, so it is not among those that are new later
  have hother : ∀ d ∈ new, d.sameKey c = false ∧ s.memory.audit.covers d = false := by
    intro d hd
    have huncovered := h.uncovered d hd
    rw [audit_note, ← Bool.not_eq_true, AuditLog.covers_record, not_or] at huncovered
    simpa using huncovered
  have hrecord : (note c s).memory.audit.entries.Perm (c :: s.memory.audit.entries) := by
    rw [audit_note]
    exact AuditLog.perm_record hc
  constructor
  · rw [h.log, audit_note, AuditLog.body_record, note_of_not_covers hc, Session.log_tell,
      List.append_assoc]
    rfl
  · exact (h.entries.trans (hrecord.append_right new)).trans List.perm_middle.symm
  · rw [h.model, note_of_not_covers hc]
    rfl
  · exact List.pairwise_cons.2 ⟨fun d hd => (hother d hd).1, h.distinct⟩
  · exact List.forall_mem_cons.2 ⟨hc, fun d hd => (hother d hd).2⟩

omit [Machine] in
/-- Of the constructs that are met those are added that are new. -/
theorem exists_adds_noteAll (met : List Construct) (s : Session (Memory η)) :
    ∃ new, Adds s new (noteAll met s) ∧ ∀ c ∈ new, c ∈ met := by
  induction met generalizing s with
  | nil => exact ⟨[], Adds.refl s, by simp⟩
  | cons c met ih =>
    obtain ⟨new, hadds, hnew⟩ := ih (note c s)
    cases hc : s.memory.audit.covers c with
    | true =>
      rw [note_of_covers hc] at hadds
      refine ⟨new, ?_, fun d hd => List.mem_cons_of_mem c (hnew d hd)⟩
      rwa [noteAll, List.foldl_cons, note_of_covers hc]
    | false =>
      refine ⟨c :: new, hadds.cons hc, fun d hd => ?_⟩
      exact List.mem_cons.2 ((List.mem_cons.1 hd).imp_right (hnew d))

end Taint

/-! ### Queries after an analysis -/

/-- Queries replay an assignment without a rule in a block that was not reached. -/
def Query.Meets {σ : Type} (r : Results σ) (queries : List Query) (c : Construct) : Prop :=
  ∃ q ∈ queries, ∃ bb n, q.Replays r.body bb n ∧ r.wasReached bb = false ∧
    r.body.Untreated bb c ∧ c.location.index < n

section

variable [Machine] {η : Type} {body : Body} {seed : List Datum} {settings : Settings η}
  {s s' : Session (Taint.Memory η)} {r : Results (Taint.Memory η)}

/-- The audit that an analysis leaves is the one of its results, and holds what the reached blocks
have no rules for. -/
theorem recorded_of_analyze (h : analyze body seed settings s = .ok r s') :
    r.unsupported = s'.memory.audit.entries ∧ s'.memory.audit.body = body.name ∧
      ∀ bb c, r.wasReached bb = true → body.Untreated bb c → s'.memory.audit.covers c = true := by
  obtain ⟨r₀, hr₀, rfl⟩ := analyze_eq_ok.1 h
  obtain ⟨bottom, start, s₁, table, p, s₂, hrun, -, -, -, hexits, hunsupported, -, rfl⟩ :=
    Analysis.solved_of_solve hr₀
  obtain ⟨hnamed, hrecorded⟩ := Taint.recorded_of_solved hrun
  refine ⟨hunsupported, hnamed, fun bb c hbb => hrecorded bb c ?_⟩
  rwa [Results.wasReached, hexits] at hbb

theorem body_of_analyze (h : analyze body seed settings s = .ok r s') :
    r.body = body ∧ r.analysis = (Taint.mk seed settings).quiet.analysis ∧
      ∃ bottom, r.analysis.bottom r.body = .ok bottom := by
  obtain ⟨r₀, hr₀, rfl⟩ := analyze_eq_ok.1 h
  obtain ⟨bottom, start, s₁, table, p, s₂, hrun, hbody, -⟩ := Analysis.solved_of_solve hr₀
  refine ⟨hbody, rfl, bottom, ?_⟩
  rw [hbody]
  exact hrun.bottom_eq

/-- All that queries do to the session is to record what the run has recorded or what they meet. -/
theorem exists_noteAll_of_queries (h : analyze body seed settings s = .ok r s')
    (queries : List Query) :
    ∃ met : List Construct, (∀ c ∈ met, s'.memory.audit.covers c = true ∨ Query.Meets r queries c) ∧
      (Query.askAll r s' queries).session = Taint.noteAll met s' := by
  obtain ⟨hbody, hanalysis, bottom, hbottom⟩ := body_of_analyze h
  obtain ⟨-, -, hrecorded⟩ := recorded_of_analyze h
  subst hbody
  show (Taint.noting fun c => s'.memory.audit.covers c = true ∨ Query.Meets r queries c).moves s'
    (Query.askAll r s' queries).session
  refine Query.keeps_askAll (fun _ => trivial) hbottom (fun bb hbb n => ?_)
    (fun q hq bb n hn => ?_) s'
  · rw [hanalysis]
    exact Taint.keepsUpTo_noting fun c hc _ => .inl (hrecorded bb c hbb hc)
  · rw [hanalysis]
    refine Taint.keepsUpTo_noting fun c hc hlt => ?_
    cases hbb : r.wasReached bb with
    | true => exact .inl (hrecorded bb c hbb hc)
    | false => exact .inr ⟨q, hq, bb, n, hn, hbb, hc, hlt⟩

/-- How quiet queries are after an analysis that returns. They record only what they meet in blocks
that were not reached, once for each location and kind and with one warning for each record; records
stay, and nothing else changes. Queries that meet nothing there leave the session as it is. -/
theorem analyze_queries (h : analyze body seed settings s = .ok r s') (queries : List Query) :
    r.unsupported = s'.memory.audit.entries ∧
    (∃ new : List Construct,
      (Query.askAll r s' queries).session.log = s'.log ++ new.map (.unsupported body.name) ∧
      (Query.askAll r s' queries).session.memory.audit.entries.Perm (r.unsupported ++ new) ∧
      (Query.askAll r s' queries).session.memory.model = s'.memory.model ∧
      (new.Pairwise fun c d => d.sameKey c = false) ∧
      ∀ c ∈ new, s'.memory.audit.covers c = false ∧ Query.Meets r queries c) ∧
    ((∀ c, ¬Query.Meets r queries c) → (Query.askAll r s' queries).session = s') := by
  obtain ⟨met, hmet, hsession⟩ := exists_noteAll_of_queries h queries
  obtain ⟨hunsupported, hnamed, -⟩ := recorded_of_analyze h
  obtain ⟨new, hadds, hnew⟩ := Taint.exists_adds_noteAll met s'
  rw [hsession]
  refine ⟨hunsupported, ⟨new, ?_, ?_, hadds.model, hadds.distinct, fun c hc => ?_⟩,
    fun hquiet => ?_⟩
  · rw [hadds.log, hnamed]
  · rw [hunsupported]
    exact hadds.entries
  · have huncovered := hadds.uncovered c hc
    refine ⟨huncovered, (hmet c (hnew c hc)).resolve_left ?_⟩
    rw [huncovered]
    exact Bool.false_ne_true
  · exact Taint.noteAll_of_covers fun c hc => (hmet c hc).resolve_right (hquiet c)

end

attribute [local instance] Machine.ample

/-- These queries replay the recorded assignment and call, and go to the block that was not reached
only to see what holds before its first statement. -/
theorem analyze_queries_laps :
    ∃ r s', analyze laps [.int 0] {} ⟨⟨{}, ()⟩, []⟩ = .ok r s' ∧
      s'.memory.audit.entries.map Construct.location = [⟨0, 0⟩, ⟨0, 1⟩] ∧
      (Query.askAll r s' [.stateAfter ⟨0, 1⟩, .seek 0 (.blockEnd 1), .dump,
        .stateBefore ⟨3, 0⟩]).session = s' := by
  obtain ⟨r, s', h, hbody, hfirst, hsecond, hlocations⟩ : ∃ r s',
      analyze laps [.int 0] {} ⟨⟨{}, ()⟩, []⟩ = .ok r s' ∧ r.body = laps ∧ r.wasReached 0 = true ∧
      r.wasReached 1 = true ∧ r.unsupported.map Construct.location = [⟨0, 0⟩, ⟨0, 1⟩] :=
    ⟨_, _, by cbv, by cbv, by cbv, by cbv, by cbv⟩
  obtain ⟨hunsupported, -, hquiet⟩ := analyze_queries h
    [.stateAfter ⟨0, 1⟩, .seek 0 (.blockEnd 1), .dump, .stateBefore ⟨3, 0⟩]
  refine ⟨r, s', h, hunsupported ▸ hlocations, hquiet ?_⟩
  rintro c ⟨q, hq, bb, n, ⟨goal, hseek, hgoal⟩, hbb, ⟨hb, hi, hr⟩, hlt⟩
  rw [hbody] at hgoal
  simp only [List.mem_cons, List.not_mem_nil, or_false] at hq
  rcases hq with rfl | rfl | rfl | rfl <;> cases hseek
  · have hplace : (Seek.after ⟨0, 1⟩).goal laps = .ok (0, 2) := by cbv
    rw [hplace, Except.ok.injEq, Prod.mk.injEq] at hgoal
    rw [← hgoal.1, hfirst] at hbb
    cases hbb
  · have hplace : (Seek.blockEnd 1).goal laps = .ok (1, 2) := by cbv
    rw [hplace, Except.ok.injEq, Prod.mk.injEq] at hgoal
    rw [← hgoal.1, hsecond] at hbb
    cases hbb
  · have hplace : (Seek.before ⟨3, 0⟩).goal laps = .ok (3, 0) := by cbv
    rw [hplace, Except.ok.injEq, Prod.mk.injEq] at hgoal
    rw [← hgoal.2] at hlt
    exact absurd hlt (Int.not_lt.2 (Int.natCast_nonneg _))

def sidetrack : Body :=
  ⟨1, [⟨[], .ret⟩, ⟨[.assign (.int 0) (.len (.int 0))], .ret⟩], "sidetrack"⟩

/-- Asked what holds in a block that was not reached, results record an assignment that the run has
not met, and there is a warning. -/
theorem stateBefore_records_sidetrack :
    ∃ r s' S s'', analyze sidetrack [] {} ⟨⟨{}, ()⟩, []⟩ = .ok r s' ∧ r.unsupported = [] ∧
      s'.memory.audit.entries = [] ∧ r.stateBefore ⟨1, 1⟩ s' = .ok S s'' ∧
      s''.memory.audit.entries.map Construct.location = [⟨1, 0⟩] ∧
      (Log.warnings s''.log).length = (Log.warnings s'.log).length + 1 :=
  ⟨_, _, _, _, by cbv, by cbv, by cbv, by cbv, by cbv, by cbv⟩

end MayTaint
