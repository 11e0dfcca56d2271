import MayTaint.Proofs.Taint.Quiet

/-!
An audit log keeps the first record about each location and kind. Whatever is recorded one after
another on a fresh log, the calls that count are those without an earlier call about the same
location and kind: each of them is entered where it belongs and told of at once, and the other calls
leave no trace. So the warnings stand in call order, the entries in strictly increasing order, and
the entries depend on nothing but the first calls.
-/

namespace MayTaint

namespace Construct

/-! ### The order of an audit -/

section

variable {c d : Construct}

def key (c : Construct) : Location × UnsupportedKind :=
  (c.location, c.kind)

/-- What an audit is sorted by: the block, the index in it and the value of the kind. -/
def rank (c : Construct) : ℤ ×ₗ ℤ ×ₗ String :=
  toLex (c.location.block, toLex (c.location.index, Family.value c.kind))

theorem sameKey_iff_key_eq : c.sameKey d = true ↔ c.key = d.key := by
  rw [sameKey_iff, key, key, Prod.mk.injEq]

/-- Records are listed by rank. -/
theorem listedBefore_iff : c.listedBefore d = true ↔ c.rank < d.rank := by
  obtain ⟨⟨bb, i⟩, kind, _⟩ := c
  obtain ⟨⟨bb', i'⟩, kind', _⟩ := d
  rw [listedBefore, Bool.or_eq_true, Bool.and_eq_true, beq_iff_eq, decide_eq_true_iff,
    Location.precedes_iff, Location.mk.injEq, rank, rank, Prod.Lex.toLex_lt_toLex,
    Prod.Lex.toLex_lt_toLex]
  grind

/-- Different kinds have different values, so that the rank separates all records of an audit. -/
theorem key_eq_iff_rank_eq : c.key = d.key ↔ c.rank = d.rank := by
  obtain ⟨⟨bb, i⟩, kind, _⟩ := c
  obtain ⟨⟨bb', i'⟩, kind', _⟩ := d
  have hvalue : Family.value kind = Family.value kind' ↔ kind = kind' := by
    cases kind <;> cases kind' <;> decide
  simp [key, rank, hvalue, and_assoc]

/-- In a list in strict order each record is the only one about its location and kind. -/
theorem filter_key_of_mem {entries : List Construct}
    (h : entries.Pairwise fun c d => c.rank < d.rank) (hc : c ∈ entries) :
    entries.filter (fun d => d.key = c.key) = [c] := by
  have hother {d : Construct} (hd : d.rank ≠ c.rank) : ¬decide (d.key = c.key) = true := by
    rwa [decide_eq_true_iff, key_eq_iff_rank_eq]
  obtain ⟨before, after, rfl⟩ := List.append_of_mem hc
  obtain ⟨-, hafter, hbefore⟩ := List.pairwise_append.1 h
  have hnone : before.filter (fun d => d.key = c.key) = [] :=
    List.filter_eq_nil_iff.2 fun d hd => hother (hbefore d hd c List.mem_cons_self).ne
  have hnone' : after.filter (fun d => d.key = c.key) = [] :=
    List.filter_eq_nil_iff.2 fun d hd => hother ((List.pairwise_cons.1 hafter).1 d hd).ne'
  rw [List.filter_append, hnone, List.nil_append, List.filter_cons_of_pos (by simp), hnone']

end

/-! ### First calls -/

section

variable {n : Nat} {calls : Fin n → Construct} {i j : Fin n} {c : Construct}

def IsFirst (calls : Fin n → Construct) (i : Fin n) : Prop :=
  ∀ j < i, (calls j).key ≠ (calls i).key

instance (calls : Fin n → Construct) : DecidablePred (IsFirst calls) := fun i =>
  inferInstanceAs (Decidable (∀ j < i, (calls j).key ≠ (calls i).key))

def firsts (calls : Fin n → Construct) : List Construct :=
  ((List.finRange n).filter (IsFirst calls ·)).map calls

theorem mem_firsts : c ∈ firsts calls ↔ ∃ i, IsFirst calls i ∧ calls i = c := by
  simp [firsts]

/-- Every call has a first one about its location and kind. -/
theorem exists_isFirst (calls : Fin n → Construct) (i : Fin n) :
    ∃ j, IsFirst calls j ∧ (calls j).key = (calls i).key := by
  induction i using WellFoundedLT.induction with
  | ind i ih =>
    by_cases hi : IsFirst calls i
    · exact ⟨i, hi, rfl⟩
    · obtain ⟨j, hj, hkey⟩ : ∃ j < i, (calls j).key = (calls i).key := by
        simpa [IsFirst] using hi
      obtain ⟨k, hk, hkey'⟩ := ih j hj
      exact ⟨k, hk, hkey'.trans hkey⟩

theorem exists_mem_firsts_iff {k : Location × UnsupportedKind} :
    (∃ c ∈ firsts calls, c.key = k) ↔ ∃ i, (calls i).key = k := by
  constructor
  · rintro ⟨c, hc, hkey⟩
    obtain ⟨i, -, rfl⟩ := mem_firsts.1 hc
    exact ⟨i, hkey⟩
  · rintro ⟨i, hkey⟩
    obtain ⟨j, hj, hkey'⟩ := exists_isFirst calls i
    exact ⟨calls j, mem_firsts.2 ⟨j, hj, rfl⟩, hkey'.trans hkey⟩

theorem IsFirst.eq_of_key_eq (hi : IsFirst calls i) (hj : IsFirst calls j)
    (hkey : (calls i).key = (calls j).key) : i = j := by
  rcases lt_trichotomy i j with hlt | heq | hgt
  · exact absurd hkey (hj i hlt)
  · exact heq
  · exact absurd hkey.symm (hi j hgt)

/-- A search from the front for the location and kind of a first call finds that call. -/
theorem IsFirst.find?_eq (h : IsFirst calls i) :
    (List.ofFn calls).find? (fun c => c.key = (calls i).key) = some (calls i) := by
  refine List.find?_eq_some_iff_getElem.2 ⟨decide_eq_true rfl, i, ?_, ?_, fun j hj => ?_⟩
  · rw [List.length_ofFn]
    exact i.isLt
  · rw [List.getElem_ofFn]
  · have hearlier := h ⟨j, hj.trans i.isLt⟩ hj
    simpa using hearlier

/-- Whether a call is a first one does not depend on the calls after it. -/
theorem isFirst_castSucc {calls : Fin (n + 1) → Construct} :
    IsFirst calls i.castSucc ↔ IsFirst (fun j => calls j.castSucc) i := by
  constructor
  · intro h j hj
    exact h j.castSucc (Fin.castSucc_lt_castSucc_iff.2 hj)
  · intro h j hj
    induction j using Fin.lastCases with
    | last => exact absurd hj (Fin.castSucc_lt_last i).not_gt
    | cast j => exact h j (Fin.castSucc_lt_castSucc_iff.1 hj)

theorem isFirst_last {calls : Fin (n + 1) → Construct} : IsFirst calls (Fin.last n) ↔
    ∀ i : Fin n, (calls i.castSucc).key ≠ (calls (Fin.last n)).key := by
  constructor
  · intro h i
    exact h i.castSucc (Fin.castSucc_lt_last i)
  · intro h j hj
    induction j using Fin.lastCases with
    | last => exact absurd hj (lt_irrefl _)
    | cast j => exact h j

/-- One more call is one more first call, or none. -/
theorem firsts_succ (calls : Fin (n + 1) → Construct) :
    firsts calls = firsts (fun i => calls i.castSucc) ++
      if IsFirst calls (Fin.last n) then [calls (Fin.last n)] else [] := by
  rw [firsts, List.finRange_succ_last, List.filter_append, List.map_append, List.filter_map,
    List.map_map]
  congr 1
  · simp only [firsts, Function.comp_def, isFirst_castSucc]
  · split <;> simp [*]

/-- Calls in another order: if all first calls stay the first ones about their locations and kinds,
there are no other first calls. -/
theorem isFirst_comp_iff {σ : Equiv.Perm (Fin n)}
    (h : ∀ i, IsFirst calls (σ i) → IsFirst (calls ∘ σ) i) :
    IsFirst (calls ∘ σ) i ↔ IsFirst calls (σ i) := by
  refine ⟨fun hi => ?_, h i⟩
  -- the first call about the same location and kind is still first, and so is this one
  obtain ⟨j, hj, hkey⟩ := exists_isFirst calls (σ i)
  obtain ⟨j, rfl⟩ := σ.surjective j
  have heq : j = i := (h j hj).eq_of_key_eq hi hkey
  rwa [← heq]

theorem mem_firsts_comp_iff {σ : Equiv.Perm (Fin n)}
    (h : ∀ i, IsFirst calls (σ i) → IsFirst (calls ∘ σ) i) :
    c ∈ firsts (calls ∘ σ) ↔ c ∈ firsts calls := by
  rw [mem_firsts, mem_firsts, ← σ.exists_congr_right (q := fun i => IsFirst calls i ∧ calls i = c)]
  simp only [isFirst_comp_iff h, Function.comp_apply]

end

end Construct

/-! ### One call after another -/

/-- A record that is new goes between the records that are less and those that are greater. -/
theorem AuditLog.increasing_record {log : AuditLog} {c : Construct}
    (h : log.entries.Pairwise fun d e => d.rank < e.rank) :
    (log.record c).entries.Pairwise fun d e => d.rank < e.rank := by
  cases hc : log.covers c with
  | true => rwa [record_of_covers hc]
  | false =>
    have hnew : ∀ d ∈ log.entries, c.rank ≠ d.rank := by
      intro d hd hrank
      have hkey := Construct.sameKey_iff_key_eq.2 (Construct.key_eq_iff_rank_eq.2 hrank)
      rw [covers_iff.2 ⟨d, hd, hkey⟩] at hc
      cases hc
    rw [record, if_neg (by simp [hc])]
    refine Sorted.pairwise_insert (R := fun d e : Construct => d.rank < e.rank) lt_trans h
      fun d hd => ⟨Construct.listedBefore_iff.1, fun hnot => ?_⟩
    rw [← Bool.not_eq_true, Construct.listedBefore_iff, not_lt] at hnot
    exact lt_of_le_of_ne hnot (hnew d hd).symm

/-- Warnings are written at every verbosity. -/
theorem Log.emit_warning (verbosity : Int) (message : String) :
    (Logger.configure verbosity).emit Logger.root .warning message = line .warning message := by
  have hroot : Logger.covers Logger.root = true := by simp [Logger.covers]
  have hsevere : (Level.ofVerbosity verbosity).severity ≤ Level.warning.severity := by
    unfold Level.ofVerbosity
    split_ifs <;> decide
  simp [Logger.emit, Logger.configure, hroot, hsevere]

theorem Log.text_append_unsupported (verbosity : Int) (events : List Event) (name : String)
    (cs : List Construct) :
    text verbosity (events ++ cs.map (.unsupported name)) = text verbosity events ++
      String.join (cs.map fun c => line .warning (name ++ ": " ++ c.text)) := by
  have hlines : (cs.map (Event.unsupported name)).map
      (fun e => (Logger.configure verbosity).emit Logger.root e.level e.message) =
        cs.map fun c => line .warning (name ++ ": " ++ c.text) := by
    rw [List.map_map]
    exact List.map_congr_left fun c _ => emit_warning verbosity _
  rw [text, text, List.map_append, String.join_append, hlines]

namespace Taint

variable {η : Type} {n : Nat} {s s₀ : Session (Memory η)} {name : String}
  {calls : Fin n → Construct}

theorem run_forM_record {γ : Type} [Accumulator γ] (cs : List Construct) (acc : γ)
    (s : Session (Memory η)) : (cs.forM record).run (acc, s) = .ok () (acc, noteAll cs s) := by
  induction cs generalizing s with
  | nil => rfl
  | cons c cs ih =>
    rw [List.forM_eq_forM, List.forM_cons]
    show ((record c).bind fun _ => cs.forM record).run (acc, s) = _
    rw [Effect.run_bind]
    show EStateM.bind _ _ _ = _
    rw [EStateM.bind, run_record]
    exact ih (note c s)

/-- A session comes from `s₀`, where the audit was fresh, by recording the first calls. -/
structure KeepsFirsts (s₀ : Session (Memory η)) (name : String) (calls : Fin n → Construct)
    (s : Session (Memory η)) : Prop where
  named : s.memory.audit.body = name
  entries : s.memory.audit.entries.Perm (Construct.firsts calls)
  increasing : s.memory.audit.entries.Pairwise fun c d => c.rank < d.rank
  log : s.log = s₀.log ++ (Construct.firsts calls).map (.unsupported name)

theorem KeepsFirsts.exists_mem_iff (h : KeepsFirsts s₀ name calls s)
    {k : Location × UnsupportedKind} :
    (∃ c ∈ s.memory.audit.entries, c.key = k) ↔ ∃ i, (calls i).key = k := by
  simp only [h.entries.mem_iff, Construct.exists_mem_firsts_iff]

theorem KeepsFirsts.covers_iff (h : KeepsFirsts s₀ name calls s) {c : Construct} :
    s.memory.audit.covers c = true ↔ ∃ i, (calls i).key = c.key := by
  rw [AuditLog.covers_iff, ← h.exists_mem_iff]
  simp only [Construct.sameKey_iff_key_eq, eq_comm (a := c.key)]

/-- A first call is recorded and told of, and any other one changes nothing. -/
theorem KeepsFirsts.note {calls : Fin (n + 1) → Construct}
    (h : KeepsFirsts s₀ name (fun i => calls i.castSucc) s) :
    KeepsFirsts s₀ name calls (note (calls (Fin.last n)) s) := by
  have hcovers : s.memory.audit.covers (calls (Fin.last n)) = true ↔
      ¬Construct.IsFirst calls (Fin.last n) := by
    simp [h.covers_iff, Construct.isFirst_last]
  have hfirsts := Construct.firsts_succ calls
  by_cases hfirst : Construct.IsFirst calls (Fin.last n)
  · have hnew : s.memory.audit.covers (calls (Fin.last n)) = false := by
      rw [← Bool.not_eq_true, hcovers, not_not]
      exact hfirst
    rw [if_pos hfirst] at hfirsts
    constructor
    · rw [audit_note, AuditLog.body_record, h.named]
    · have hentries := (AuditLog.perm_record hnew).trans (h.entries.cons _)
      rw [audit_note, hfirsts]
      exact hentries.trans (List.perm_append_singleton _ _).symm
    · rw [audit_note]
      exact AuditLog.increasing_record h.increasing
    · rw [note_of_not_covers hnew, Session.log_tell, h.named, hfirsts, List.map_append,
        ← List.append_assoc, ← h.log]
      rfl
  · rw [if_neg hfirst, List.append_nil] at hfirsts
    rw [note_of_covers (hcovers.2 hfirst)]
    exact ⟨h.named, hfirsts ▸ h.entries, h.increasing, hfirsts ▸ h.log⟩

theorem keepsFirsts_noteAll (h : s.memory.audit = { body := name }) (calls : Fin n → Construct) :
    KeepsFirsts s name calls (noteAll (List.ofFn calls) s) := by
  induction n with
  | zero =>
    have hnone : Construct.firsts calls = [] := rfl
    have hstill : noteAll (List.ofFn calls) s = s := rfl
    rw [hstill]
    constructor <;> simp [h, hnone]
  | succ n ih =>
    rw [List.ofFn_succ_last, noteAll, List.foldl_append]
    exact (ih fun i => calls i.castSucc).note

/-! ### The entries of a sequence of calls -/

theorem KeepsFirsts.length_entries (h : KeepsFirsts s₀ name calls s) :
    s.memory.audit.entries.length = (Finset.univ.image fun i => (calls i).key).card := by
  have hnodup : (s.memory.audit.entries.map Construct.key).Nodup := by
    refine List.pairwise_map.2 (h.increasing.imp fun hlt hkey => ?_)
    exact hlt.ne (Construct.key_eq_iff_rank_eq.1 hkey)
  have hkeys : (s.memory.audit.entries.map Construct.key).toFinset =
      Finset.univ.image fun i => (calls i).key := by
    ext k
    simp [h.exists_mem_iff]
  rw [← hkeys, List.toFinset_card_of_nodup hnodup, List.length_map]

theorem KeepsFirsts.filter_entries (h : KeepsFirsts s₀ name calls s)
    (k : Location × UnsupportedKind) :
    s.memory.audit.entries.filter (fun c => c.key = k) =
      ((List.ofFn calls).find? fun c => c.key = k).toList := by
  by_cases hcalled : ∃ i, (calls i).key = k
  · obtain ⟨i, rfl⟩ := hcalled
    obtain ⟨j, hj, hkey⟩ := Construct.exists_isFirst calls i
    have hmem : calls j ∈ s.memory.audit.entries :=
      h.entries.mem_iff.2 (Construct.mem_firsts.2 ⟨j, hj, rfl⟩)
    rw [← hkey, Construct.filter_key_of_mem h.increasing hmem, hj.find?_eq]
    rfl
  · have hnone : (List.ofFn calls).find? (fun c => c.key = k) = none := by
      simpa [List.find?_eq_none, List.mem_ofFn] using hcalled
    rw [hnone, Option.toList_none, List.filter_eq_nil_iff]
    intro c hc hkey
    exact hcalled (h.exists_mem_iff.1 ⟨c, hc, of_decide_eq_true hkey⟩)

/-- The same calls in another order leave the same entries, if all first calls stay first. -/
theorem KeepsFirsts.entries_eq {s' : Session (Memory η)} {σ : Equiv.Perm (Fin n)}
    (hσ : ∀ i, Construct.IsFirst calls (σ i) → Construct.IsFirst (calls ∘ σ) i)
    (h : KeepsFirsts s₀ name calls s) (h' : KeepsFirsts s₀ name (calls ∘ σ) s') :
    s'.memory.audit.entries = s.memory.audit.entries := by
  have hirrefl : Std.Irrefl fun c d : Construct => c.rank < d.rank := ⟨fun c => lt_irrefl c.rank⟩
  have hantisymm : Std.Antisymm fun c d : Construct => c.rank < d.rank :=
    ⟨fun c d hcd hdc => absurd hdc hcd.not_gt⟩
  refine h'.increasing.eq_of_mem_iff h.increasing fun c => ?_
  rw [h'.entries.mem_iff, h.entries.mem_iff, Construct.mem_firsts_comp_iff hσ]

/-- What a sequence of calls leaves on a fresh audit log. There are as many entries as there are
different locations with kinds in the calls; for each location and kind that a call is about there
is one entry, which is the first such call; and the entries are strictly increasing by block, index
and value of the kind. The warnings are the first calls in call order, which is what is added to the
text of the log at any verbosity. The calls in another order leave the same entries, if the first
call about each location and kind stays the first one about them. -/
theorem record_keeps_first_calls {γ : Type} [Accumulator γ] (acc : γ)
    (hs : s.memory.audit = { body := name }) (calls : Fin n → Construct) :
    ∃ s', ((List.ofFn calls).forM record).run (acc, s) = .ok () (acc, s') ∧
      s'.memory.audit.entries.length = (Finset.univ.image fun i => (calls i).key).card ∧
      (∀ k, s'.memory.audit.entries.filter (fun c => c.key = k) =
        ((List.ofFn calls).find? fun c => c.key = k).toList) ∧
      (s'.memory.audit.entries.Pairwise fun c d => c.rank < d.rank) ∧
      s'.log = s.log ++ (Construct.firsts calls).map (.unsupported name) ∧
      (∀ verbosity, Log.text verbosity s'.log = Log.text verbosity s.log ++
        String.join ((Construct.firsts calls).map fun c =>
          Log.line .warning (name ++ ": " ++ c.text))) ∧
      ∀ σ : Equiv.Perm (Fin n),
        (∀ i, Construct.IsFirst calls (σ i) → Construct.IsFirst (calls ∘ σ) i) →
        ∃ s'', ((List.ofFn (calls ∘ σ)).forM record).run (acc, s) = .ok () (acc, s'') ∧
          s''.memory.audit.entries = s'.memory.audit.entries := by
  have hkeeps := keepsFirsts_noteAll hs calls
  refine ⟨noteAll (List.ofFn calls) s, run_forM_record _ acc s, hkeeps.length_entries,
    hkeeps.filter_entries, hkeeps.increasing, hkeeps.log, fun verbosity => ?_, fun σ hσ => ?_⟩
  · rw [hkeeps.log, Log.text_append_unsupported]
  · exact ⟨noteAll (List.ofFn (calls ∘ σ)) s, run_forM_record _ acc s,
      hkeeps.entries_eq hσ (keepsFirsts_noteAll hs (calls ∘ σ))⟩

def reports : Fin 5 → Construct :=
  ![⟨⟨1, 0⟩, .rvalue, "b"⟩, ⟨⟨0, 2⟩, .rvalue, "a"⟩, ⟨⟨1, 0⟩, .rvalue, "again"⟩,
    ⟨⟨1, 0⟩, .callReturn, "c"⟩, ⟨⟨0, 2⟩, .rvalue, "b"⟩]

def shuffle : Equiv.Perm (Fin 5) :=
  ⟨![3, 1, 0, 4, 2], ![2, 1, 4, 0, 3], by decide, by decide⟩

attribute [local instance] Machine.ample in
theorem record_keeps_first_calls_reports :
    ∃ s' s'' : Session (Memory Unit),
      ((List.ofFn reports).forM record).run (LocalSet.empty 0, ⟨⟨{ body := "f" }, ()⟩, []⟩) =
        .ok () (LocalSet.empty 0, s') ∧
      s'.memory.audit.entries.length = 3 ∧
      s'.memory.audit.entries.filter (fun c => c.key = (⟨0, 2⟩, .rvalue)) = [reports 1] ∧
      s'.log = [reports 0, reports 1, reports 3].map (.unsupported "f") ∧
      (∀ i, Construct.IsFirst reports (shuffle i) → Construct.IsFirst (reports ∘ shuffle) i) ∧
      ((List.ofFn (reports ∘ shuffle)).forM record).run
        (LocalSet.empty 0, ⟨⟨{ body := "f" }, ()⟩, []⟩) = .ok () (LocalSet.empty 0, s'') ∧
      s''.memory.audit.entries = s'.memory.audit.entries := by
  obtain ⟨s', hrun, hlength, hfilter, -, hlog, -, hshuffled⟩ := record_keeps_first_calls
    (s := ⟨⟨{ body := "f" }, ()⟩, []⟩) (LocalSet.empty 0) rfl reports
  have hfirst : ∀ i, Construct.IsFirst reports (shuffle i) →
      Construct.IsFirst (reports ∘ shuffle) i := by
    decide
  obtain ⟨s'', hrun', hentries⟩ := hshuffled shuffle hfirst
  exact ⟨s', s'', hrun, hlength.trans (by decide), (hfilter _).trans (by decide),
    hlog.trans rfl, hfirst, hrun', hentries⟩

end Taint

end MayTaint
