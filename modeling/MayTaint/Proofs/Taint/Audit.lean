import MayTaint.Proofs.Contract
import MayTaint.Proofs.Taint.Transfer

/-!
The audit is complete, exact and free of repetitions. It is made by the way: a record is written
when an effect meets something without a rule, blocks are replayed any number of times, and the
record of a call is written only when its continuation is entered. Nothing is recorded that does not
stand in a reachable block, no record is ever dropped, and each one is written and told of once;
that is a contract of all effects. Conversely a visit records what its block has no rules for, and
the calls out of visited blocks are recorded or their continuations still wait, so that at the end
nothing is missing.
-/

namespace MayTaint

/-- Whether there is no rule for an rvalue. There is one for a unary operation only if its operand
reads a local. -/
def Rvalue.isUnmodelled : Rvalue → Bool
  | checkedBinary _ _ _ | ref _ _ | addressOf _ _ | cast _ _ | aggregate _ _ | replicate _ _ | len _
  | discriminant _ | nullary _ => true
  | unary _ (.constant _) | unary _ (.copy .null) | unary _ (.move .null) => true
  | _ => false

theorem Rvalue.isUnmodelled_of_sources {rvalue : Rvalue} (htyped : rvalue.isTyped = true)
    (h : rvalue.sources? = none) : rvalue.isUnmodelled = true := by
  cases rvalue with
  | unary op operand =>
    cases operand with
    | foreign thing => simp [isTyped, operands, Operand.isTyped] at htyped
    | constant => rfl
    | _ => cases h
  | use => cases h
  | binary => cases h
  | foreign thing => cases htyped
  | _ => rfl

namespace Rules

variable [Machine] {i : Statement} {target : Datum} {rvalue : Rvalue} {l : Location} {c : Construct}

theorem verdictOfAssign_of_isUnmodelled (h : rvalue.isUnmodelled = true) :
    verdictOfAssign target rvalue l = verdictOfUnruled rvalue l := by
  unfold Rvalue.isUnmodelled at h
  split at h <;> first | rfl | cases h

theorem eq_of_verdictOfUnruled (h : verdictOfUnruled rvalue l = .report c) :
    c = unsupported rvalue l := by
  unfold verdictOfUnruled at h
  split at h <;> cases h
  rfl

/-- Only assignments without a rule are reported. -/
theorem exists_of_verdict_eq_report (h : verdict i l = .report c) :
    ∃ target rvalue, i = .assign target rvalue ∧ rvalue.isUnmodelled = true ∧
      c = unsupported rvalue l := by
  cases i with
  | assign target rvalue =>
    refine ⟨target, rvalue, rfl, ?_⟩
    change verdictOfAssign target rvalue l = .report c at h
    unfold verdictOfAssign Operand.source? at h
    unfold Rvalue.isUnmodelled
    cases rvalue <;> grind [eq_of_verdictOfUnruled]
  | _ => cases h

end Rules

namespace Body

/-- The records that an audit of the body has to hold: one for every assignment without a rule, and
one for every call that returns, in the blocks that can be reached. -/
inductive Unmodelled (body : Body) : Construct → Prop
  | rvalue {bb : BlockId} {b : Block} {i : Nat} {target : Datum} {rvalue : Rvalue}
    (hbb : body.Reachable bb) (hb : body.block bb = .ok b)
    (hi : b.statements[i]? = some (.assign target rvalue)) (h : rvalue.isUnmodelled = true) :
    Unmodelled body (Rules.unsupported rvalue ⟨bb, i⟩)
  | call {bb : BlockId} {b : Block} {c : Call} {target : BlockId} (hbb : body.Reachable bb)
    (hb : body.block bb = .ok b) (hc : b.terminator = .call c) (ht : c.target = some target) :
    Unmodelled body (Taint.unmodelled c ⟨bb, b.terminatorIndex⟩)

/-- No two of them are about the same location. -/
theorem Unmodelled.eq_of_location {body : Body} {c d : Construct} (hc : body.Unmodelled c)
    (hd : body.Unmodelled d) (h : c.location = d.location) : c = d := by
  cases hc with
  | @rvalue bb b i target rvalue _ hb hi _ =>
    have hlt : i < b.statements.length := (List.getElem?_eq_some_iff.1 hi).1
    cases hd with
    | @rvalue bb' b' i' _ _ _ hb' hi' _ =>
      obtain ⟨rfl, hindex⟩ := Location.mk.inj h
      cases hb.symm.trans hb'
      obtain rfl : i = i' := Int.ofNat.inj hindex
      cases hi.symm.trans hi'
      rfl
    | @call bb' b' _ _ _ hb' _ _ =>
      -- statements and terminators stand at different places
      obtain ⟨rfl, hindex⟩ := Location.mk.inj h
      cases hb.symm.trans hb'
      rw [Block.terminatorIndex] at hindex
      omega
  | @call bb b _ _ _ hb hcall _ =>
    cases hd with
    | @rvalue bb' b' i' _ _ _ hb' hi' _ =>
      have hlt : i' < b'.statements.length := (List.getElem?_eq_some_iff.1 hi').1
      obtain ⟨rfl, hindex⟩ := Location.mk.inj h
      cases hb.symm.trans hb'
      rw [Block.terminatorIndex] at hindex
      omega
    | @call bb' b' _ _ _ hb' hcall' _ =>
      obtain ⟨rfl, _⟩ := Location.mk.inj h
      cases hb.symm.trans hb'
      cases hcall.symm.trans hcall'
      rfl

end Body

namespace Taint

variable {η : Type} {t : Taint η} {body : Body} {before : List Event} {c : Construct}
  {s s' s'' : Session (Memory η)}

/-! ### What every effect keeps -/

def AuditGrows (s s' : Session (Memory η)) : Prop :=
  ∀ ⦃c⦄, s.memory.audit.covers c = true → s'.memory.audit.covers c = true

theorem auditGrows_note (c : Construct) (s : Session (Memory η)) : AuditGrows s (note c s) := by
  intro d hd
  rw [audit_note]
  exact AuditLog.covers_record.2 (.inr hd)

theorem covers_note (c : Construct) (s : Session (Memory η)) :
    (note c s).memory.audit.covers c = true := by
  rw [audit_note]
  exact AuditLog.covers_record.2 (.inl (Construct.sameKey_iff.2 ⟨rfl, rfl⟩))

/-- The audit of a run over a body whose log was `before` when it began: every record belongs there,
they are in the order of their locations, and there has been one warning for each of them. -/
structure Faithful (body : Body) (before : List Event) (s : Session (Memory η)) : Prop where
  named : s.memory.audit.body = body.name
  sound : ∀ c ∈ s.memory.audit.entries, body.Unmodelled c
  ordered : s.memory.audit.entries.Pairwise fun c d => c.location.precedes d.location = true
  told : ∃ events, s.log = before ++ events ∧
    (Log.warnings events).Perm (s.memory.audit.entries.map (.unsupported body.name))

theorem Faithful.mem_of_covers (h : Faithful body before s) (hc : body.Unmodelled c)
    (hcovers : s.memory.audit.covers c = true) : c ∈ s.memory.audit.entries := by
  obtain ⟨d, hd, hkey⟩ := AuditLog.covers_iff.1 hcovers
  have hcd : c = d := hc.eq_of_location (h.sound d hd) (Construct.sameKey_iff.1 hkey).1
  rw [hcd]
  exact hd

theorem Faithful.note (h : Faithful body before s) (hc : body.Unmodelled c) :
    Faithful body before (note c s) := by
  cases hcovers : s.memory.audit.covers c with
  | true =>
    rw [note_of_covers hcovers]
    exact h
  | false =>
    have hperm := AuditLog.perm_record hcovers
    have hnew : ∀ d ∈ s.memory.audit.entries, c.location ≠ d.location := by
      intro d hd hlocation
      have hcd : c = d := hc.eq_of_location (h.sound d hd) hlocation
      have hcovered : s.memory.audit.covers c = true :=
        AuditLog.covers_iff.2 ⟨d, hd, Construct.sameKey_iff.2 (by simp [hcd])⟩
      rw [hcovers] at hcovered
      cases hcovered
    rw [note_of_not_covers hcovers]
    constructor
    · show (s.memory.audit.record c).body = body.name
      rw [AuditLog.body_record]
      exact h.named
    · intro d hd
      rcases List.mem_cons.1 (hperm.mem_iff.1 hd) with rfl | hd
      · exact hc
      · exact h.sound d hd
    · exact AuditLog.pairwise_record h.ordered hnew
    · obtain ⟨events, hlog, hwarnings⟩ := h.told
      refine ⟨events ++ [.unsupported body.name c], ?_, ?_⟩
      · rw [Session.log_tell, h.named]
        show s.log ++ _ = _
        rw [hlog, List.append_assoc]
      · have htold : Log.warnings (events ++ [.unsupported body.name c]) =
            Log.warnings events ++ [.unsupported body.name c] := by
          simp [Log.warnings, Event.level]
        have hentries : ((s.memory.audit.record c).entries.map (Event.unsupported body.name)).Perm
            (.unsupported body.name c ::
              s.memory.audit.entries.map (Event.unsupported body.name)) := hperm.map _
        rw [htold]
        exact ((List.perm_append_singleton _ _).trans (hwarnings.cons _)).trans hentries.symm

theorem Faithful.tell (h : Faithful body before s) {e : Event} (he : e.level ≠ .warning) :
    Faithful body before (s.tell e) := by
  obtain ⟨events, hlog, hwarnings⟩ := h.told
  refine ⟨h.named, h.sound, h.ordered, events ++ [e], ?_, ?_⟩
  · rw [Session.log_tell, hlog, List.append_assoc]
  · have htold : Log.warnings (events ++ [e]) = Log.warnings events := by
      simp [Log.warnings, he]
    rw [htold]
    exact hwarnings

def auditing (body : Body) (before : List Event) : Contract (Memory η) where
  moves s s' := (Faithful body before s → Faithful body before s') ∧ AuditGrows s s'
  faults _ := True
  refl _ := ⟨id, fun _ h => h⟩
  trans h h' := ⟨h'.1 ∘ h.1, fun _ hc => h'.2 (h.2 hc)⟩

variable [Machine]

theorem keeps_record (hc : body.Unmodelled c) (S : LocalSet) :
    Run.Keeps (auditing (η := η) body before) (Run.onto S (record c).run) where
  ok {s _ s'} h := by
    rw [Run.onto, run_record] at h
    cases h
    exact ⟨fun hs => hs.note hc, auditGrows_note c s⟩
  error {s _ _} h := by
    rw [Run.onto, run_record] at h
    cases h

theorem Lenient.keeps_auditing (ht : t.Lenient) (body : Body) (before : List Event) :
    t.analysis.Keeps body (auditing body before) where
  bottom _ := trivial
  join := trivial
  instruction {bb b j i} hbb hb hi S := by
    obtain (st | term) := i
    · show Run.Keeps _ (Run.onto S (Rules.statement t.reporter st ⟨bb, j⟩).run)
      rw [Rules.statement_eq]
      by_cases hverdict : ∃ c, Rules.verdict st ⟨bb, j⟩ = .report c
      · obtain ⟨c, hverdict⟩ := hverdict
        obtain ⟨target, rvalue, rfl, hr, rfl⟩ := Rules.exists_of_verdict_eq_report hverdict
        rw [hverdict, Rules.Verdict.effect, ht.reporter_eq]
        exact keeps_record (.rvalue hbb hb (Block.instructions_eq_statement_iff.1 hi) hr) S
      · have hplain := Rules.Verdict.plain t.reporter (not_exists.1 hverdict)
        exact hplain.keeps (fun _ => trivial) S
    · exact (terminator_plain term).keeps (fun _ => trivial) S
  callReturn {bb b c target} hbb hb hc htarget S := by
    show Run.Keeps _ (Run.onto S (t.callReturn c ⟨bb, b.terminatorIndex⟩).run)
    cases hw : c.spelling.isWritten with
    | true =>
      rw [ht.callReturn_eq hw]
      exact keeps_record (.call hbb hb hc htarget) S
    | false =>
      rw [callReturn_of_not_isWritten ht.callModel hw]
      exact Effect.Plain.keeps (x := .raise _) (fun _ => trivial) trivial S

/-! ### What the visits bring about -/

section

variable {limits : Limits} {start entry exit : LocalSet} {table : List (List BlockId)}
  {bb : BlockId} {rest : List BlockId} {p p' : Progress}

/-- The assignments without a rule in the visited blocks are recorded, and so are the calls that
return from them, unless the block where they continue still waits. -/
structure Audited (body : Body) (p : Progress) (s : Session (Memory η)) : Prop where
  rvalues : ∀ {bb b target rvalue} {i : Nat}, (p.exits.get? bb).isSome = true →
    body.block bb = .ok b → b.statements[i]? = some (.assign target rvalue) →
    rvalue.isUnmodelled = true → s.memory.audit.covers (Rules.unsupported rvalue ⟨bb, i⟩) = true
  calls : ∀ {bb b c target}, (p.exits.get? bb).isSome = true → body.block bb = .ok b →
    b.terminator = .call c → c.target = some target → target ∈ p.waiting ∨
      s.memory.audit.covers (unmodelled c ⟨bb, b.terminatorIndex⟩) = true

omit [Machine] in
theorem audited_init (body : Body) (s : Session (Memory η)) :
    Audited body { waiting := [Body.entry] } s where
  rvalues h := by cases h
  calls h := by cases h

/-- Replaying a block records what it has no rules for. -/
theorem covers_of_replay {k : Contract (Memory η)} (hk : t.analysis.Keeps body k)
    (hgrows : ∀ {s s'}, k.moves s s' → AuditGrows s s') (hbb : body.Reachable bb) {b : Block}
    (hb : body.block bb = .ok b) {i : Nat} {target : Datum} {rvalue : Rvalue}
    (hi : b.statements[i]? = some (.assign target rvalue)) (hr : rvalue.isUnmodelled = true)
    (h : t.analysis.replay body bb 0 none (entry, s) = .ok () (exit, s')) :
    s'.memory.audit.covers (Rules.unsupported rvalue ⟨bb, i⟩) = true := by
  have hat := Block.instructions_eq_statement_iff.2 hi
  have hlt : i < b.instructions.length := (List.getElem?_eq_some_iff.1 hat).1
  rw [Analysis.replay_zero_none hb] at h
  refine hk.of_replayFrom
    (P := fun s => s.memory.audit.covers (Rules.unsupported rvalue ⟨bb, i⟩) = true)
    (fun hmoves hc => hgrows hmoves hc) hbb hb hat ?_ (Nat.zero_add _).le (Nat.zero_le i)
    (by omega) h
  intro S T s s' hrun
  change (Rules.statement t.reporter (.assign target rvalue) ⟨bb, i⟩).run (S, s) = _ at hrun
  rw [Rules.statement_eq, Rules.verdict, Rules.verdictOfAssign_of_isUnmodelled hr] at hrun
  cases hw : rvalue.spelling.isWritten with
  | true =>
    rw [Rules.verdictOfUnruled_of_isWritten hw, Rules.Verdict.effect, reporter] at hrun
    -- a strict instance would not have returned
    split at hrun
    · cases hrun
    · rw [run_record] at hrun
      cases hrun
      exact covers_note _ s
  | false =>
    rw [Rules.verdictOfUnruled_of_not_isWritten hw] at hrun
    cases hrun

/-- Once a block has been visited, what it has no rules for is recorded. -/
theorem covers_of_step {k : Contract (Memory η)} (hk : t.analysis.Keeps body k)
    (hgrows : ∀ {s s'}, k.moves s s' → AuditGrows s s')
    (hready : (t.analysis.solver limits body start table).Ready)
    (he : (t.analysis.solver limits body start table).Explored p)
    (hs : (t.analysis.solver limits body start table).Step bb rest entry exit p s p' s')
    {x : BlockId} (hx : (p'.exits.get? x).isSome = true) {b : Block} (hb : body.block x = .ok b)
    {i : Nat} {target : Datum} {rvalue : Rvalue}
    (hi : b.statements[i]? = some (.assign target rvalue)) (hr : rvalue.isUnmodelled = true)
    (h : (p.exits.get? x).isSome = true →
      s.memory.audit.covers (Rules.unsupported rvalue ⟨x, i⟩) = true) :
    s'.memory.audit.covers (Rules.unsupported rvalue ⟨x, i⟩) = true := by
  rcases hs.visited_iff.1 hx with rfl | hx
  · have hreach : body.Reachable x := he.reachable_of_waiting (by simp [hs.waiting])
    obtain ⟨s₁, s₂, _, hreplay, rfl⟩ := hs.runs
    -- telling of the visit leaves the audit alone
    have hcovers := covers_of_replay hk hgrows hreach hb hi hr hreplay
    exact hcovers
  · obtain ⟨s₂, hmoves, rfl⟩ := hs.moves hready hk he
    exact hgrows hmoves (h hx)

/-- Entering the block where a call continues records the call. -/
theorem covers_of_joinIncoming (ht : t.Lenient)
    (hready : (t.analysis.solver limits body start table).Ready)
    (he : (t.analysis.solver limits body start table).Explored p) {pred : BlockId}
    (hpred : (p.exits.get? pred).isSome = true) {b : Block} (hb : body.block pred = .ok b)
    {c : Call} (hc : b.terminator = .call c) (htarget : c.target = some bb)
    (hedge : body.Edge pred bb)
    (h : (t.analysis.solver limits body start table).joinIncoming p.exits bb s = .ok entry s') :
    s'.memory.audit.covers (unmodelled c ⟨pred, b.terminatorIndex⟩) = true := by
  have hreach := he.reachable_of_visited hpred
  obtain ⟨x, hx⟩ := Option.isSome_iff_exists.1 hpred
  obtain ⟨preds, base, hpreds, _, hflows⟩ := Solver.exists_of_joinIncoming h
  obtain ⟨preds', hpreds', hmem⟩ := Body.exists_predecessorsIn hready.table
    (hready.valid.hasBlock_of_reachable (hreach.step hedge))
  cases hpreds.symm.trans hpreds'
  refine Solver.of_joinFlows (v := t.analysis.solver limits body start table)
    (P := fun s => s.memory.audit.covers (unmodelled c ⟨pred, b.terminatorIndex⟩) = true)
    hready.valid (ht.keeps_auditing body s.log)
    (fun hexit => he.reachable_of_visited (by simp [hexit])) (fun hmoves hc => hmoves.2 hc)
    (hmem.2 ⟨hready.valid.hasBlock_of_reachable hreach, hedge⟩) hx ?_ hflows
  intro s flow s' hflow
  change t.analysis.edgeState body pred bb x s = _ at hflow
  have hw := isWritten_of_edgeState ht.callModel hb ⟨hc, htarget⟩ hflow
  rw [Analysis.edgeState_of_returnsTo hb ⟨hc, htarget⟩] at hflow
  obtain ⟨⟨⟨⟩, T⟩, s₁, hT, hr⟩ := estate_bind_eq_ok.1 hflow
  cases hr
  have hcall := Run.onto_eq_ok.1 hT
  change (t.callReturn c _).run (x, s) = _ at hcall
  rw [ht.callReturn_eq hw, run_record] at hcall
  cases hcall
  exact covers_note _ s

theorem Audited.step (ht : t.Lenient)
    (hready : (t.analysis.solver limits body start table).Ready)
    (he : (t.analysis.solver limits body start table).Explored p)
    (hs : (t.analysis.solver limits body start table).Step bb rest entry exit p s p' s')
    (h : Audited body p s) : Audited body p' s' := by
  have hbb : body.Reachable bb := he.reachable_of_waiting (by simp [hs.waiting])
  obtain ⟨b₀, hb₀⟩ := hready.valid.exists_block (hready.valid.hasBlock_of_reachable hbb)
  have hkeeps := ht.keeps_auditing body s.log
  obtain ⟨s₁, s₂, hjoin, hreplay, rfl⟩ := hs.runs
  -- telling of the visit leaves the audit alone
  have hafter : AuditGrows s₁ s₂ := ((hkeeps.replay hbb hb₀ entry).ok (Run.onto_eq_ok.2 hreplay)).2
  have hbefore : AuditGrows s s₁ := ((Solver.keeps_joinIncoming hready hkeeps he hbb).ok hjoin).2
  constructor
  · intro x b target rvalue i hx hb hi hr
    exact covers_of_step hkeeps (fun hmoves => hmoves.2) hready he hs hx hb hi hr
      fun hx => h.rvalues hx hb hi hr
  · intro x b c target hx hb hc htarget
    have hedge : body.Edge x target := Body.edge_of_call hb hc htarget
    by_cases hvisited : (p.exits.get? x).isSome = true
    · rcases h.calls hvisited hb hc htarget with hwaits | hcovers
      · rcases hs.waiting_or_eq hwaits with hwaits | rfl
        · exact .inl hwaits
        · exact .inr
            (hafter (covers_of_joinIncoming ht hready he hvisited hb hc htarget hedge hjoin))
      · exact .inr (hafter (hbefore hcovers))
    · -- after its first visit the successors of a block wait
      obtain rfl := (hs.visited_iff.1 hx).resolve_right hvisited
      rcases hs.queued with ⟨hsame, _⟩ | ⟨_, succs, hsuccs, hw⟩
      · exact absurd (by simp [hsame]) hvisited
      · left
        rw [hw]
        exact mem_enqueue.2 (.inr ((Body.mem_successors hsuccs).2 hedge))

/-- After a run the audit holds what it has to hold, and nothing else. -/
theorem audit_of_solved {bottom : LocalSet} {s₀ s₁ s₂ : Session (Memory η)} (ht : t.Lenient)
    (hrun : t.analysis.Solved limits body s₀ bottom start s₁ table p s₂) :
    Faithful body s₀.log s₂ ∧ ∀ c, body.Unmodelled c → c ∈ s₂.memory.audit.entries := by
  have hready := hrun.ready
  obtain ⟨limit, allowed, hiterate⟩ := hrun.iterate_eq
  have hinit : Faithful body s₀.log s₁ := by
    rw [(run_start hrun.start_eq).2]
    refine ⟨rfl, by simp, List.Pairwise.nil, [], ?_, List.Perm.refl _⟩
    simp [Session.log]
  obtain ⟨⟨hexplored, hfaithful, haudited⟩, hw⟩ := Solver.iterate_induct
    (fun p s => (t.analysis.solver limits body start table).Explored p ∧
      Faithful body s₀.log s ∧ Audited body p s)
    (fun {bb rest entry exit p s p' s'} hs hinv => by
      obtain ⟨he, hf, ha⟩ := hinv
      obtain ⟨s₃, hmoves, htold⟩ := hs.moves hready (ht.keeps_auditing body s₀.log) he
      refine ⟨he.step hs, ?_, ha.step ht hready he hs⟩
      rw [htold]
      exact (hmoves.1 hf).tell (by simp [Event.level]))
    hiterate ⟨Solver.explored_init _, hinit, audited_init body s₁⟩
  have hvisited : ∀ {bb}, body.Reachable bb → (p.exits.get? bb).isSome = true := fun hbb =>
    (hexplored.visited_iff_reachable hw).2 hbb
  refine ⟨hfaithful, fun c hc => hfaithful.mem_of_covers hc ?_⟩
  cases hc with
  | rvalue hbb hb hi hr => exact haudited.rvalues (hvisited hbb) hb hi hr
  | call hbb hb hc htarget =>
    exact (haudited.calls (hvisited hbb) hb hc htarget).resolve_left (by simp [hw])

/-- If the audit of a run is empty, everything in the reachable blocks has a rule or assigns
nothing. -/
theorem unruled_eq_none {i : Instruction} {bottom : LocalSet} {s₀ s₁ s₂ : Session (Memory η)}
    (ht : t.Lenient) (hbody : body.WellFormed)
    (hrun : t.analysis.Solved limits body s₀ bottom start s₁ table p s₂)
    (haudit : s₂.memory.audit.entries = []) (hbb : body.Reachable bb)
    (hi : i ∈ body.instructionsOf bb) : i.unruled? = none := by
  have hblock := hrun.valid.hasBlock_of_reachable hbb
  obtain ⟨b, hb⟩ := hrun.valid.exists_block hblock
  rw [Body.instructionsOf_eq hb] at hi
  have htyped := i.isTyped_of_isWellFormed (hbody.isWellFormed hblock hb hi)
  obtain ⟨k, hk⟩ := List.getElem?_of_mem hi
  cases hr : i.unruled? with
  | none => rfl
  | some rvalue =>
    obtain ⟨target, rfl, hsources⟩ := Instruction.exists_assign_of_unruled hr
    have hunmodelled := Rvalue.isUnmodelled_of_sources (Bool.and_eq_true_iff.1 htyped).2 hsources
    have hstatement := Block.instructions_eq_statement_iff.1 hk
    have hmem := (audit_of_solved ht hrun).2 _ (.rvalue hbb hb hstatement hunmodelled)
    rw [haudit] at hmem
    cases hmem

end

end Taint

section

variable [Machine] {η : Type} {body : Body} {seed : List Datum} {settings : Settings η}
  {s s' : Session (Taint.Memory η)} {r : Results (Taint.Memory η)}

/-- Where nothing is refused and calls are not modelled, the audit of an analysis that returns holds
exactly one record for every assignment without a rule and for every call that returns in the blocks
that can be reached. The records are in strictly increasing order of their locations, and there has
been one warning for each of them, however often its block was replayed. -/
theorem analyze_audit (ht : (Taint.mk seed settings).Lenient)
    (h : analyze body seed settings s = .ok r s') :
    (∀ c, c ∈ r.unsupported ↔ body.Unmodelled c) ∧
    (r.unsupported.Pairwise fun c d => c.location.precedes d.location = true) ∧
    ∃ events, s'.log = s.log ++ events ∧
      (Log.warnings events).Perm (r.unsupported.map (.unsupported body.name)) := by
  obtain ⟨r₀, hr₀, rfl⟩ := analyze_eq_ok.1 h
  obtain ⟨bottom, start, s₁, table, p, s₂, hrun, -, -, -, -, hunsupported, -, rfl⟩ :=
    Analysis.solved_of_solve hr₀
  obtain ⟨hfaithful, hcomplete⟩ := Taint.audit_of_solved ht hrun
  have hentries : r₀.unsupported = s₂.memory.audit.entries := hunsupported
  simp only [hentries]
  refine ⟨fun c => ⟨hfaithful.sound c, hcomplete c⟩, hfaithful.ordered, ?_⟩
  exact (hfaithful.tell (by simp [Event.level])).told

def laps : Body :=
  ⟨2, [⟨[.assign (.int 1) (.len (.int 0))], .call ⟨.constant .null, [], none, some 1, none⟩⟩,
    ⟨[.assign (.int 1) (.use (.copy (.int 0)))], .switchInt (.copy (.int 0)) [(.int 0, 0)] 2⟩,
    ⟨[], .ret⟩, ⟨[.assign (.int 1) (.cast .null (.copy (.int 0)))], .goto 0⟩], "laps"⟩

end

attribute [local instance] Machine.ample in
theorem analyze_audit_laps :
    ∃ r s', analyze laps [.int 0] {} ⟨⟨{}, ()⟩, []⟩ = .ok r s' ∧ r.iterations = 5 ∧
      r.unsupported.map Construct.location = [⟨0, 0⟩, ⟨0, 1⟩] ∧
      (∀ c, c ∈ r.unsupported ↔ laps.Unmodelled c) ∧
      (Log.warnings s'.log).Perm (r.unsupported.map (.unsupported "laps")) := by
  obtain ⟨r, s', h, hiterations, hlocations⟩ : ∃ r s', analyze laps [.int 0] {} ⟨⟨{}, ()⟩, []⟩ =
      .ok r s' ∧ r.iterations = 5 ∧ r.unsupported.map Construct.location = [⟨0, 0⟩, ⟨0, 1⟩] :=
    ⟨_, _, by cbv, by cbv, by cbv⟩
  obtain ⟨hexact, _, events, hlog, hwarnings⟩ := analyze_audit ⟨rfl, rfl, rfl⟩ h
  have hall : s'.log = events := hlog
  exact ⟨r, s', h, hiterations, hlocations, hexact, hall ▸ hwarnings⟩

def readsNothing : Body :=
  ⟨1, [⟨[.assign (.int 0) (.unary (.text "Neg") (.copy .null))], .ret⟩], "readsNothing"⟩

attribute [local instance] Machine.ample in
/-- Not every unary operation that is recorded has a constant operand. -/
theorem analyze_records_null_operand :
    ∃ r s', analyze readsNothing [] {} ⟨⟨{}, ()⟩, []⟩ = .ok r s' ∧
      ¬∀ c ∈ r.unsupported, ∀ target op operand, readsNothing.instructionAt c.location =
        .ok (.statement (.assign target (.unary op operand))) → ∃ k, operand = .constant k := by
  obtain ⟨r, s', h, hlocations⟩ : ∃ r s', analyze readsNothing [] {} ⟨⟨{}, ()⟩, []⟩ = .ok r s' ∧
      r.unsupported.map Construct.location = [⟨0, 0⟩] := ⟨_, _, by cbv, by cbv⟩
  refine ⟨r, s', h, fun hall => ?_⟩
  have hmem : (⟨0, 0⟩ : Location) ∈ r.unsupported.map Construct.location := by
    simp [hlocations]
  obtain ⟨c, hc, hlocation⟩ := List.mem_map.1 hmem
  have hat : readsNothing.instructionAt ⟨0, 0⟩ =
      .ok (.statement (.assign (.int 0) (.unary (.text "Neg") (.copy .null)))) := by cbv
  obtain ⟨k, hk⟩ := hall c hc _ _ _ (hlocation ▸ hat)
  cases hk

end MayTaint
