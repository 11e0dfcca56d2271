import MayTaint.Taint.Archive
import MayTaint.Proofs.Coupling
import MayTaint.Proofs.Taint.Audit

/-!
One instance, many runs. A run of an instance that has been used before is compared with the run of
a new one. The audit log of the run is new in both; the logs of earlier runs are out of its reach,
and the memory of a model of calls that is steady makes no difference. Whatever happened before, the
outcome is that of a new instance, and what earlier results refer to stays as it is.
-/

namespace MayTaint

namespace Taint.Archive

variable {η : Type}

theorem current_setCurrent (m : Memory η) (a : Archive η) : (a.setCurrent m).current = m :=
  rfl

theorem setCurrent_setCurrent (m m' : Memory η) (a : Archive η) :
    (a.setCurrent m').setCurrent m = a.setCurrent m :=
  rfl

theorem log_length (a : Archive η) : a.log a.earlier.length = a.audit := by
  simp [log]

/-- Putting the current log aside leaves every log under its number. -/
theorem log_putAside (a : Archive η) {k : Nat} (hk : k ≤ a.earlier.length) (audit : AuditLog) :
    log { a.putAside with audit } k = a.log k := by
  show (a.earlier ++ [a.audit]).getD k audit = a.earlier.getD k a.audit
  rcases Nat.lt_or_eq_of_le hk with hlt | rfl
  · rw [List.getD_append _ _ _ _ hlt, List.getD_eq_getElem _ _ hlt, List.getD_eq_getElem _ _ hlt]
  · simp

end Taint.Archive

section

variable {σ τ : Type}

theorem Run.Leaves.eq_of_ok {α : Type} {x : Run σ α} {a : α} {s s₁ s' : Session σ}
    (h : Run.Leaves x s s') (hx : x s = .ok a s₁) : s' = s₁ := by
  rcases h with ⟨_, h⟩ | ⟨_, h⟩
  · rw [hx] at h
    cases h
    rfl
  · rw [hx] at h
    cases h

theorem Run.Leaves.eq_of_error {α : Type} {x : Run σ α} {f : Fault} {s s₁ s' : Session σ}
    (h : Run.Leaves x s s') (hx : x s = .error f s₁) : s' = s₁ := by
  rcases h with ⟨_, h⟩ | ⟨_, h⟩
  · rw [hx] at h
    cases h
  · rw [hx] at h
    cases h
    rfl

def Effect.Steady [Machine] (x : Effect σ Unit) : Prop :=
  ∀ S : LocalSet, ∃ (o : Except Fault (Unit × LocalSet)) (events : List Event),
    ∀ s : Session σ, ∃ m, Run.onto S x.run s = Run.ofExcept o ⟨m, events ++ s.told⟩

theorem Coupling.Alike.eq_ofExcept {k : Coupling σ τ} {α : Type} {o : Except Fault α}
    {x : EStateM.Result Fault (Session σ) α} {t : Session τ} (h : k.Alike x (Run.ofExcept o t)) :
    ∃ s, x = Run.ofExcept o s ∧ k.rel s t := by
  cases o with
  | ok a =>
    obtain ⟨⟩ | ⟨⟩ := h
    exact ⟨_, rfl, by assumption⟩
  | error f =>
    obtain ⟨⟩ | ⟨⟩ := h
    exact ⟨_, rfl, by assumption⟩

variable [Machine]

/-- An effect that neither uses its memory nor tells the log is steady. -/
theorem Effect.Plain.steady {x : Effect σ Unit} (hx : x.Plain) : x.Steady := by
  have hends : ∀ S : LocalSet, ∃ o, ∀ s : Session σ, Run.onto S x.run s = Run.ofExcept o s := by
    intro S
    induction x generalizing S with
    | done a => exact ⟨.ok (a, S), fun _ => rfl⟩
    | raise f => exact ⟨.error f, fun _ => rfl⟩
    | gen d next ih =>
      simp only [onto_gen]
      cases Accumulator.gen S d with
      | ok T => exact ih hx T
      | error f => exact ⟨.error f, fun _ => rfl⟩
    | kill d next ih =>
      simp only [onto_kill]
      cases Accumulator.kill S d with
      | ok T => exact ih hx T
      | error f => exact ⟨.error f, fun _ => rfl⟩
    | ask d next ih =>
      simp only [onto_ask]
      cases Accumulator.contains S d with
      | ok b => exact ih b (hx b) S
      | error f => exact ⟨.error f, fun _ => rfl⟩
    | read => exact hx.elim
    | write => exact hx.elim
    | report => exact hx.elim
  intro S
  obtain ⟨o, ho⟩ := hends S
  exact ⟨o, [], fun s => ⟨s.memory, ho s⟩⟩

/-- On a part of a larger memory a steady effect is steady, and keeps to the part. -/
theorem Effect.Steady.within {get : τ → σ} {set : σ → τ → τ} (hget : ∀ m t, get (set m t) = m)
    (hset : ∀ m m' t, set m (set m' t) = set m t) (hsame : ∀ t, set (get t) t = t)
    {x : Effect σ Unit} (hx : x.Steady) (S : LocalSet) :
    ∃ (o : Except Fault (Unit × LocalSet)) (events : List Event), ∀ t : Session τ, ∃ m,
      Run.onto S (x.within get set).run t = Run.ofExcept o ⟨set m t.memory, events ++ t.told⟩ := by
  obtain ⟨o, events, h⟩ := hx S
  refine ⟨o, events, fun t => ?_⟩
  obtain ⟨m, hm⟩ := h ⟨get t.memory, t.told⟩
  have hstart : (Coupling.part set t.memory).rel t ⟨get t.memory, t.told⟩ :=
    ⟨(hsame t.memory).symm, rfl⟩
  have halike := x.pairs_within hget hset t.memory S hstart
  rw [hm] at halike
  obtain ⟨⟨memory, told⟩, ht', hmemory, htold⟩ := halike.eq_ofExcept
  cases hmemory
  cases htold
  exact ⟨m, ht'⟩

namespace Taint

variable {η : Type}

variable {t : Taint η} {body : Body} {before : List Event} {earlier : List AuditLog}

/-! ### Side by side with a new instance -/

def beside (before : List Event) : Coupling (Memory η) (Memory η) where
  rel s t := s.memory.audit = t.memory.audit ∧ s.told = t.told ++ before
  tell e h := ⟨h.1, congrArg (e :: ·) h.2⟩

def sharing (earlier : List AuditLog) (before : List Event) : Coupling (Archive η) (Memory η) where
  rel s t :=
    s.memory.earlier = earlier ∧ s.memory.audit = t.memory.audit ∧ s.told = t.told ++ before
  tell e h := ⟨h.1, h.2.1, congrArg (e :: ·) h.2.2⟩

/-- What may record in a new log may record in the current one of an archive. -/
theorem pairs_current {x : Effect (Memory η) Unit} {S : LocalSet}
    (hx : (beside before).Pairs (Run.onto S x.run) (Run.onto S x.run)) :
    (sharing earlier before).Pairs
      (Run.onto S (x.within Archive.current Archive.setCurrent).run) (Run.onto S x.run) := by
  intro s t h
  obtain ⟨rfl, haudit, htold⟩ := h
  have hpart : (Coupling.part Archive.setCurrent s.memory).rel s ⟨s.memory.current, s.told⟩ :=
    ⟨rfl, rfl⟩
  have hwithin : (Coupling.part Archive.setCurrent s.memory).Alike
      (Run.onto S (x.within Archive.current Archive.setCurrent).run s)
      (Run.onto S x.run ⟨s.memory.current, s.told⟩) :=
    x.pairs_within Archive.current_setCurrent Archive.setCurrent_setCurrent s.memory S hpart
  have hbeside : (beside before).rel ⟨s.memory.current, s.told⟩ t := ⟨haudit, htold⟩
  refine hwithin.trans ?_ (hx hbeside)
  rintro s' m t' ⟨hmemory, htold⟩ ⟨haudit, hbefore⟩
  refine ⟨?_, ?_, htold.trans hbefore⟩
  · rw [hmemory]
    rfl
  · rw [hmemory]
    exact haudit

theorem pairs_record (c : Construct) (S : LocalSet) :
    (beside (η := η) before).Pairs (Run.onto S (record c).run) (Run.onto S (record c).run) := by
  intro s t h
  obtain ⟨haudit, htold⟩ := h
  rw [Run.onto, Run.onto, run_record, run_record]
  refine .ok ⟨?_, ?_⟩
  · rw [audit_note, audit_note, haudit]
  · cases hc : t.memory.audit.covers c with
    | true => rw [note_of_covers hc, note_of_covers (haudit ▸ hc), htold]
    | false =>
      rw [note_of_not_covers hc, note_of_not_covers (haudit ▸ hc), haudit]
      exact congrArg (Event.unsupported t.memory.audit.body c :: ·) htold

/-- Where records end alike, so do all instructions. -/
theorem pairs_instruction {k : Coupling (Memory η) (Memory η)}
    (hrecord : ∀ c (S : LocalSet), k.Pairs (Run.onto S (record c).run) (Run.onto S (record c).run))
    (t : Taint η) (i : Instruction) (l : Location) (S : LocalSet) :
    k.Pairs (Run.onto S (t.analysis.instruction i l).run)
      (Run.onto S (t.analysis.instruction i l).run) := by
  cases i with
  | terminator i => exact (terminator_plain i).pairs S
  | statement i =>
    show k.Pairs (Run.onto S (Rules.statement t.reporter i l).run)
      (Run.onto S (Rules.statement t.reporter i l).run)
    rw [Rules.statement_eq]
    by_cases hverdict : ∃ c, Rules.verdict i l = .report c
    · obtain ⟨c, hc⟩ := hverdict
      rw [hc, Rules.Verdict.effect, reporter]
      split
      · exact Coupling.Pairs.ofExcept (.error _)
      · exact hrecord c S
    · exact (Rules.Verdict.plain t.reporter (not_exists.1 hverdict)).pairs S

/-- A steady model of calls does the same with whatever memory. -/
theorem pairs_callReturn
    (hmodel : ∀ model, t.settings.callModel = some model → ∀ c l, (model c l).Steady) (c : Call)
    (l : Location) (S : LocalSet) :
    (beside before).Pairs (Run.onto S (t.callReturn c l).run)
      (Run.onto S (t.callReturn c l).run) := by
  rcases t.callReturn_cases c l with ⟨model, hsome, hcall⟩ | ⟨f, hcall⟩ | hcall
  · have hget : ∀ (h : η) (m : Memory η), Memory.model { m with model := h } = h := fun _ _ => rfl
    obtain ⟨o, events, h⟩ :=
      (hmodel model hsome c l).within hget (fun _ _ _ => rfl) (fun _ => rfl) S
    rw [hcall]
    intro s t hrel
    obtain ⟨haudit, htold⟩ := hrel
    obtain ⟨m, hs⟩ := h s
    obtain ⟨m', ht⟩ := h t
    rw [hs, ht]
    refine Coupling.Pairs.ofExcept o ⟨haudit, ?_⟩
    rw [htold, List.append_assoc]
  · rw [hcall]
    exact Coupling.Pairs.ofExcept (.error f)
  · rw [hcall]
    exact pairs_record _ S

theorem pairs_lasting
    (hmodel : ∀ model, t.settings.callModel = some model → ∀ c l, (model c l).Steady) :
    Analysis.Pairs (sharing earlier before) t.lasting t.analysis where
  name := rfl
  bottom := rfl
  instruction i l S := by
    have h : (sharing earlier before).Pairs
        (Run.onto S ((t.analysis.instruction i l).within Archive.current Archive.setCurrent).run)
        (Run.onto S (t.analysis.instruction i l).run) :=
      pairs_current (pairs_instruction pairs_record t i l S)
    cases i with
    | statement i => exact h
    | terminator i => exact h
  callReturn bb c l S := pairs_current (pairs_callReturn hmodel c l S)

omit [Machine] in
theorem plain_taintAll (seed : List Datum) :
    (seed.forM (Effect.taint (σ := Memory η))).Plain := by
  induction seed with
  | nil => trivial
  | cons d seed ih => exact ih

/-- Both runs begin with a new log, and the log before is put aside. -/
theorem alike_start (t : Taint η) (body : Body) (S : LocalSet) (s : Session (Archive η)) (m : η) :
    (sharing s.memory.putAside.earlier s.told).Alike (Run.onto S (t.lasting.start body).run s)
      (Run.onto S (t.analysis.start body).run ⟨⟨{}, m⟩, []⟩) := by
  have hrel : (sharing s.memory.putAside.earlier s.told).rel
      ⟨{ s.memory.putAside with audit := { body := body.name } }, s.told⟩
      ⟨⟨{ body := body.name }, m⟩, []⟩ := ⟨rfl, rfl, rfl⟩
  exact pairs_current ((plain_taintAll t.seed).pairs S) hrel

/-! ### Whole runs -/

/-- A run of an instance that has told of `before` ended as a run of a new one did: with the same
fault, or with the same tables, as many visits and the same records; and it told of the same. -/
inductive Reproduces (before : List Event) :
    EStateM.Result Fault (Session (Memory η)) (Results (Memory η)) →
      EStateM.Result Fault (Session (Archive η)) (Results (Archive η)) → Prop
  | error {f s₀ s} (told : s.told = s₀.told ++ before) :
    Reproduces before (.error f s₀) (.error f s)
  | ok {r₀ s₀ r s} (told : s.told = s₀.told ++ before) (body : r.body = r₀.body)
    (entries : r.entries = r₀.entries) (exits : r.exits = r₀.exits)
    (sets : ∀ bb, r.entrySet bb = r₀.entrySet bb ∧ r.exitSet bb = r₀.exitSet bb)
    (iterations : r.iterations = r₀.iterations) (unsupported : r.unsupported = r₀.unsupported) :
    Reproduces before (.ok r₀ s₀) (.ok r s)

/-- How a run changes an archive: the logs that were there keep their numbers and records. -/
structure Archive.Extends (a a' : Archive η) : Prop where
  length_le : a.earlier.length ≤ a'.earlier.length
  log : ∀ k ≤ a.earlier.length, a'.log k = a.log k

omit [Machine] in
theorem Archive.Extends.refl (a : Archive η) : a.Extends a :=
  ⟨le_rfl, fun _ _ => rfl⟩

omit [Machine] in
theorem Archive.Extends.of_earlier_eq {a a' : Archive η}
    (h : a'.earlier = a.putAside.earlier) : a.Extends a' where
  length_le := by
    rw [h, putAside]
    simp
  log k hk := by
    rw [← a.log_putAside hk a'.audit, Archive.log, Archive.log, h]

section

variable (hmodel : ∀ model, t.settings.callModel = some model → ∀ c l, (model c l).Steady)

include hmodel

theorem reproduces_of_solveAgain (limits : Limits) (body : Body) (s : Session (Archive η)) (m : η) :
    Reproduces s.told (t.solve limits body ⟨⟨{}, m⟩, []⟩) (t.solveAgain limits body s) ∧
      ∀ s', Run.Leaves (t.solveAgain limits body) s s' → s.memory.Extends s'.memory := by
  cases hvalid : body.validate with
  | error f =>
    have hsolve : ∀ {σ : Type} (a : Analysis σ) (s : Session σ),
        a.solve limits body s = .error f s := fun a s =>
      estate_bind_of_error (Run.ofExcept_eq_error.2 ⟨hvalid, rfl⟩)
    have hnew : t.solve limits body ⟨⟨{}, m⟩, []⟩ = .error f ⟨⟨{}, m⟩, []⟩ :=
      estate_bind_of_error (hsolve t.analysis _)
    have hagain : t.solveAgain limits body s = .error f s :=
      estate_bind_of_error (hsolve t.lasting s)
    rw [hnew, hagain]
    refine ⟨.error rfl, fun s' h => ?_⟩
    rw [h.eq_of_error hagain]
    exact .refl s.memory
  | ok _ =>
    obtain ⟨n, hn⟩ := Int.eq_ofNat_of_zero_le (Body.valid_of_validate hvalid).localCount_nonneg
    have hpairs : Analysis.Pairs (sharing s.memory.putAside.earlier s.told) t.lasting t.analysis :=
      pairs_lasting hmodel
    rcases hpairs.solve hvalid (bottom_eq (t := t) hn) (alike_start t body _ s m) limits with
      ⟨f, s', t', hagain, hnew, hearlier, haudit, htold⟩ |
      ⟨p, s', t', hagain, hnew, hearlier, haudit, htold⟩
    · have hnew : t.solve limits body ⟨⟨{}, m⟩, []⟩ = .error f t' := estate_bind_of_error hnew
      have hagain : t.solveAgain limits body s = .error f s' := estate_bind_of_error hagain
      rw [hnew, hagain]
      refine ⟨.error htold, fun s'' h => ?_⟩
      rw [h.eq_of_error hagain]
      exact .of_earlier_eq hearlier
    · have hnew : t.solve limits body ⟨⟨{}, m⟩, []⟩ = .ok _ t' := estate_bind_of_ok hnew
      have hagain : t.solveAgain limits body s = .ok _ s' := estate_bind_of_ok hagain
      rw [hnew, hagain]
      refine ⟨.ok htold rfl rfl rfl (fun bb => ⟨rfl, rfl⟩) rfl ?_, fun s'' h => ?_⟩
      · exact congrArg AuditLog.entries haudit
      · rw [h.eq_of_ok hagain]
        exact .of_earlier_eq hearlier

end

/-- Results keep hold of the log of their run, which has their records when the run returns. -/
theorem keeper_of_solveAgain {limits : Limits} {s s' : Session (Archive η)}
    {r : Results (Archive η)} (h : t.solveAgain limits body s = .ok r s') :
    r.analysis = t.keeper s'.memory.earlier.length ∧
      r.analysis.unsupported s'.memory = r.unsupported := by
  obtain ⟨r₀, s₁, hr₀, h⟩ := estate_bind_eq_ok.1 h
  cases h
  obtain ⟨_, _, _, _, _, s₂, _, _, _, _, _, hunsupported, _, rfl⟩ := Analysis.solved_of_solve hr₀
  refine ⟨rfl, ?_⟩
  show (s₂.memory.log s₂.memory.earlier.length).entries = r₀.unsupported
  rw [Archive.log_length, hunsupported]
  rfl

/-- The results that an instance has returned so far, and the session that it has come to. The
instance has been run over one body after another, whatever became of the runs. In between there may
be queries, which record in the logs and tell of it, but neither add nor remove a log. -/
inductive History (t : Taint η) : List (Results (Archive η)) → Session (Archive η) → Prop
  | new (m : η) (told : List Event) : History t [] ⟨{ model := m }, told⟩
  | returned {rs s limits body r s'} (h : History t rs s)
    (hrun : t.solveAgain limits body s = .ok r s') : History t (r :: rs) s'
  | failed {rs s limits body f s'} (h : History t rs s)
    (hrun : t.solveAgain limits body s = .error f s') : History t rs s'
  | queried {rs s s'} (h : History t rs s)
    (hlogs : s'.memory.earlier.length = s.memory.earlier.length) : History t rs s'

section

variable (hmodel : ∀ model, t.settings.callModel = some model → ∀ c l, (model c l).Steady)
  {rs : List (Results (Archive η))} {s : Session (Archive η)}

include hmodel

theorem History.exists_keeper (h : t.History rs s) :
    ∀ r ∈ rs, ∃ k ≤ s.memory.earlier.length, r.analysis = t.keeper k := by
  have hgrows : ∀ {limits body s s'}, Run.Leaves (t.solveAgain limits body) s s' →
      s.memory.earlier.length ≤ s'.memory.earlier.length := fun {limits body s s'} hleaves =>
    ((reproduces_of_solveAgain hmodel limits body s s.memory.model).2 s' hleaves).length_le
  induction h with
  | new => simp
  | returned _ hrun ih =>
    intro r hr
    rcases List.mem_cons.1 hr with rfl | hr
    · exact ⟨_, le_rfl, (keeper_of_solveAgain hrun).1⟩
    · obtain ⟨k, hk, hkeeper⟩ := ih r hr
      exact ⟨k, hk.trans (hgrows (.inl ⟨_, hrun⟩)), hkeeper⟩
  | failed _ hrun ih =>
    intro r hr
    obtain ⟨k, hk, hkeeper⟩ := ih r hr
    exact ⟨k, hk.trans (hgrows (.inr ⟨_, hrun⟩)), hkeeper⟩
  | queried _ hlogs ih =>
    rw [hlogs]
    exact ih

/-- Nothing leaks from run to run. Whatever an instance has been used for, its next run ends as that
of a new instance does, its results have hold of their own records, and the records that earlier
results have hold of stay as they are, whether or not the run returns. -/
theorem solveAgain_as_new (h : t.History rs s) (limits : Limits) (body : Body) (m : η) :
    Reproduces s.told (t.solve limits body ⟨⟨{}, m⟩, []⟩) (t.solveAgain limits body s) ∧
    (∀ r s', t.solveAgain limits body s = .ok r s' →
      r.analysis.unsupported s'.memory = r.unsupported) ∧
    ∀ s', Run.Leaves (t.solveAgain limits body) s s' →
      ∀ r ∈ rs, r.analysis.unsupported s'.memory = r.analysis.unsupported s.memory := by
  obtain ⟨hreproduces, hextends⟩ := reproduces_of_solveAgain hmodel limits body s m
  refine ⟨hreproduces, fun r s' hr => (keeper_of_solveAgain hr).2, fun s' hleaves r hr => ?_⟩
  obtain ⟨k, hk, hkeeper⟩ := h.exists_keeper hmodel r hr
  rw [hkeeper]
  exact congrArg AuditLog.entries ((hextends s' hleaves).log k hk)

end

def mopping : Taint Unit :=
  ⟨[.int 0], { callModel := some fun _ _ => Effect.clean (.int 0) }⟩

def void : Body :=
  ⟨0, [], "void"⟩

end Taint

end

namespace Taint

attribute [local instance] Machine.ample

/-- The instance returns from one body and fails on another. The results of the first run keep their
record through a third, which tells of the same construct again. -/
theorem solveAgain_as_new_mopping :
    ∃ r s₁ s₂, mopping.solveAgain {} laps ⟨{ model := () }, []⟩ = .ok r s₁ ∧
      mopping.solveAgain {} void s₁ = .error (.noBlocks "void") s₂ ∧
      r.unsupported.map Construct.location = [⟨0, 0⟩] ∧
      Reproduces s₂.told (mopping.solve {} laps ⟨⟨{}, ()⟩, []⟩) (mopping.solveAgain {} laps s₂) ∧
      ∀ s₃, Run.Leaves (mopping.solveAgain {} laps) s₂ s₃ →
        r.analysis.unsupported s₃.memory = r.analysis.unsupported s₂.memory := by
  obtain ⟨r, s₁, s₂, hreturns, hfails, hrecords⟩ : ∃ r s₁ s₂,
      mopping.solveAgain {} laps ⟨{ model := () }, []⟩ = .ok r s₁ ∧
      mopping.solveAgain {} void s₁ = .error (.noBlocks "void") s₂ ∧
      r.unsupported.map Construct.location = [⟨0, 0⟩] := ⟨_, _, _, by cbv, by cbv, by cbv⟩
  have hmodel : ∀ model, mopping.settings.callModel = some model → ∀ c l, (model c l).Steady := by
    intro model h c l
    cases h
    exact Effect.Plain.steady trivial
  have hhistory : mopping.History [r] s₂ := .failed (.returned (.new () []) hreturns) hfails
  obtain ⟨hreproduces, _, hkept⟩ := solveAgain_as_new hmodel hhistory {} laps ()
  exact ⟨r, s₁, s₂, hreturns, hfails, hrecords, hreproduces, fun s₃ hleaves =>
    hkept s₃ hleaves r List.mem_cons_self⟩

end Taint

end MayTaint
