import MayTaint.LocalSet
import Mathlib

/-!
Sets of locals as a lattice. Sets over one domain are ordered by inclusion, sets over different
domains are not comparable, and the Boolean test of the library decides this order. A set is also
seen as a set of data, its members; what the operations do is said once for this view, so that later
proofs never look at bit patterns.
-/

namespace MayTaint

namespace LocalSet

variable {s t u : LocalSet} {d : Datum} {i n : Nat}

instance : PartialOrder LocalSet where
  le s t := s.size = t.size ∧ ∀ i, s.has i = true → t.has i = true
  le_refl s := ⟨rfl, fun _ h => h⟩
  le_trans s t u hst htu := ⟨hst.1.trans htu.1, fun i h => htu.2 i (hst.2 i h)⟩
  le_antisymm s t hst hts :=
    eq_of_has hst.1 fun i => Bool.eq_iff_iff.2 ⟨hst.2 i, hts.2 i⟩

theorem le_iff : s ≤ t ↔ s.size = t.size ∧ ∀ i, s.has i = true → t.has i = true :=
  Iff.rfl

theorem empty_le (h : s.size = n) : empty n ≤ s :=
  ⟨h.symm, fun i hi => by simp at hi⟩

@[simp] theorem size_add (s : LocalSet) (i : Fin s.size) : (s.add i).size = s.size := rfl

@[simp] theorem size_erase (s : LocalSet) (i : Fin s.size) : (s.erase i).size = s.size := rfl

theorem bottom_natCast (n : Nat) : bottom n = .ok (empty n) := by
  have hn : ¬(n : Int) < 0 := by omega
  rw [bottom, ofPattern, if_neg hn, if_pos rfl, Int.toNat_natCast]

/-! ### Joins and differences -/

theorem exists_combine (f : (n : Nat) → BitVec n → BitVec n → BitVec n) (h : t.size = s.size) :
    ∃ u, combine f s t = .ok u := by
  unfold combine
  rw [dif_pos h]
  exact ⟨_, rfl⟩

theorem size_combine {f : (n : Nat) → BitVec n → BitVec n → BitVec n}
    (h : combine f s t = .ok u) : u.size = s.size ∧ t.size = s.size := by
  unfold combine at h
  split at h
  · next hsize =>
    cases h
    exact ⟨rfl, hsize⟩
  · cases h

theorem size_join (h : s.join t = .ok u) : u.size = s.size ∧ t.size = s.size :=
  size_combine h

theorem has_join_iff (h : s.join t = .ok u) :
    u.has i = true ↔ s.has i = true ∨ t.has i = true := by
  rw [has_join h, Bool.or_eq_true]

theorem le_join_left (h : s.join t = .ok u) : s ≤ u :=
  ⟨(size_join h).1.symm, fun _ hi => (has_join_iff h).2 (.inl hi)⟩

theorem le_join_right (h : s.join t = .ok u) : t ≤ u :=
  ⟨(size_join h).2.trans (size_join h).1.symm, fun _ hi => (has_join_iff h).2 (.inr hi)⟩

theorem join_le {w : LocalSet} (h : s.join t = .ok u) (hs : s ≤ w) (ht : t ≤ w) : u ≤ w := by
  refine ⟨(size_join h).1.trans hs.1, fun i hi => ?_⟩
  rcases (has_join_iff h).1 hi with hi | hi
  · exact hs.2 i hi
  · exact ht.2 i hi

theorem isLUB_join (h : s.join t = .ok u) : IsLUB {s, t} u := by
  constructor
  · rintro w (rfl | rfl)
    · exact le_join_left h
    · exact le_join_right h
  · intro w hw
    exact join_le h (hw (.inl rfl)) (hw (.inr rfl))

theorem join_eq_error {f : Fault} (h : s.join t = .error f) :
    f = .domainMismatch s.size t.size := by
  unfold join combine at h
  split at h
  · cases h
  · cases h
    rfl

theorem isEmpty_iff : s.isEmpty = true ↔ ∀ i, s.has i = false := by
  rw [isEmpty, beq_iff_eq]
  constructor
  · intro h i
    rw [has, ← BitVec.testBit_toNat, h, Nat.zero_testBit]
  · intro h
    refine Nat.eq_of_testBit_eq fun i => ?_
    rw [BitVec.testBit_toNat, Nat.zero_testBit]
    exact h i

/-- The test of inclusion decides the order. -/
theorem isSubset_eq_true_iff : s.isSubset t = .ok true ↔ s ≤ t := by
  rw [isSubset, le_iff]
  by_cases hsize : t.size = s.size
  · obtain ⟨d, hd⟩ := exists_combine (fun _ x y => x ^^^ (x &&& y)) hsize
    have hdiff : s.difference t = .ok d := hd
    have hlost : d.isEmpty = true ↔ ∀ i, s.has i = true → t.has i = true := by
      rw [isEmpty_iff]
      refine forall_congr' fun i => ?_
      rw [has_difference hdiff]
      cases s.has i <;> cases t.has i <;> simp
    rw [hdiff, ← hlost]
    change Except.ok d.isEmpty = Except.ok true ↔ _
    simp [hsize]
  · have hdiff : s.difference t = .error (.domainMismatch s.size t.size) := by
      unfold difference combine
      rw [dif_neg hsize]
    rw [hdiff]
    change Except.error _ = Except.ok true ↔ _
    simp [Ne.symm hsize]

/-! ### Counting -/

theorem nodup_toList (s : LocalSet) : s.toList.Nodup :=
  (pairwise_toList s).imp Nat.ne_of_lt

theorem toList_eq_bitIndices (s : LocalSet) : s.toList = s.bits.toNat.bitIndices := by
  refine List.SortedLT.eq_of_mem_iff (pairwise_toList s).sortedLT Nat.bitIndices_sorted fun i => ?_
  rw [mem_toList, Nat.mem_bitIndices, BitVec.testBit_toNat, has]

/-- A binary numeral has as many ones as the number has bits. -/
theorem count_toDigits_two (n : Nat) : (Nat.toDigits 2 n).count '1' = n.bitIndices.length := by
  induction n using Nat.strong_induction_on with
  | _ n ih =>
    by_cases hn : n < 2
    · interval_cases n <;> simp [Nat.toDigits_of_lt_base, Nat.digitChar]
    · -- the last digit is the lowest bit, the others are the numeral of half the number
      have hle : 2 ≤ n := Nat.not_lt.1 hn
      rw [Nat.toDigits_of_base_le (by decide) hle, List.count_append, ih (n / 2) (by omega)]
      obtain ⟨m, rfl | rfl⟩ := n.even_or_odd'
      · have hhalf : 2 * m / 2 = m := by omega
        have hlast : 2 * m % 2 = 0 := by omega
        simp [hhalf, hlast, Nat.digitChar]
      · have hhalf : (2 * m + 1) / 2 = m := by omega
        have hlast : (2 * m + 1) % 2 = 1 := by omega
        simp [hhalf, hlast, Nat.digitChar]

theorem count_eq_length (s : LocalSet) : s.count = s.toList.length := by
  rw [count, count_toDigits_two, toList_eq_bitIndices]

theorem count_le_size (s : LocalSet) : s.count ≤ s.size := by
  have hsub : s.toList ⊆ List.range s.size := fun i hi =>
    List.mem_range.2 (lt_size_of_has (mem_toList.1 hi))
  simpa [count_eq_length] using ((nodup_toList s).subperm hsub).length_le

theorem count_lt_of_lt (h : s < t) : s.count < t.count := by
  rw [count_eq_length, count_eq_length]
  obtain ⟨i, hit, his⟩ : ∃ i, t.has i = true ∧ s.has i = false := by
    by_contra hno
    push Not at hno
    have hts : t ≤ s := ⟨h.le.1.symm, fun i hi => by simpa using hno i hi⟩
    exact absurd (h.trans_le hts) (lt_irrefl s)
  have hnew : i ∉ s.toList := fun hi => by simp [mem_toList.1 hi] at his
  have hsub : i :: s.toList ⊆ t.toList := by
    refine List.cons_subset.2 ⟨mem_toList.2 hit, fun j hj => mem_toList.2 ?_⟩
    exact h.le.2 j (mem_toList.1 hj)
  have hnodup : (i :: s.toList).Nodup := List.nodup_cons.2 ⟨hnew, nodup_toList s⟩
  exact (hnodup.subperm hsub).length_le

/-! ### Members as data -/

def members (s : LocalSet) : Set Datum :=
  {d | s.holds d = true}

theorem index_eq_ok_iff {i : Fin s.size} : s.index d = .ok i ↔ d = .int i.val := by
  constructor
  · intro h
    cases d with
    | int m =>
      rw [index] at h
      split at h
      · cases h
        simp only [Datum.int.injEq]
        omega
      · cases h
    | _ => cases h
  · rintro rfl
    have hi : 0 ≤ (i.val : Int) ∧ (i.val : Int) < s.size := by omega
    rw [index, dif_pos hi]
    simp

theorem contains_eq_ok_iff {b : Bool} :
    s.contains d = .ok b ↔ ∃ i : Fin s.size, d = .int i.val ∧ b = s.has i.val := by
  unfold contains
  cases h : s.index d with
  | error f =>
    change Except.error f = Except.ok b ↔ _
    refine ⟨nofun, fun ⟨i, hd, _⟩ => ?_⟩
    rw [index_eq_ok_iff.2 hd] at h
    cases h
  | ok i =>
    change Except.ok (s.has i.val) = Except.ok b ↔ _
    have hd := index_eq_ok_iff.1 h
    constructor
    · intro hb
      cases hb
      exact ⟨i, hd, rfl⟩
    · rintro ⟨j, hj, rfl⟩
      have hij : i = j := by
        rw [hd, Datum.int.injEq] at hj
        omega
      rw [hij]

theorem holds_of_contains {b : Bool} (h : s.contains d = .ok b) : s.holds d = b := by
  rw [holds, h]

theorem mem_members : d ∈ s.members ↔ ∃ i : Nat, d = .int i ∧ s.has i = true := by
  change s.holds d = true ↔ _
  unfold holds
  split
  · next b hb =>
    obtain ⟨i, rfl, rfl⟩ := contains_eq_ok_iff.1 hb
    refine ⟨fun h => ⟨i.val, rfl, h⟩, fun ⟨j, hj, h⟩ => ?_⟩
    rw [Datum.int.injEq, Int.natCast_inj] at hj
    rw [hj, h]
  · next f hf =>
    refine ⟨nofun, fun ⟨i, hd, hi⟩ => ?_⟩
    have hok : s.contains d = .ok true :=
      contains_eq_ok_iff.2 ⟨⟨i, lt_size_of_has hi⟩, hd, hi.symm⟩
    rw [hok] at hf
    cases hf

theorem int_mem_members : .int i ∈ s.members ↔ s.has i = true := by
  rw [mem_members]
  refine ⟨fun ⟨j, hj, h⟩ => ?_, fun h => ⟨i, rfl, h⟩⟩
  rw [Datum.int.injEq, Int.natCast_inj] at hj
  rw [hj, h]

theorem members_subset_of_le (h : s ≤ t) : s.members ⊆ t.members := by
  intro d hd
  obtain ⟨i, rfl, hi⟩ := mem_members.1 hd
  exact int_mem_members.2 (h.2 i hi)

@[simp] theorem members_empty (n : Nat) : (empty n).members = ∅ := by
  ext d
  simp [mem_members]

theorem eq_of_members (hsize : s.size = t.size) (h : s.members = t.members) : s = t := by
  refine eq_of_has hsize fun i => ?_
  rw [Bool.eq_iff_iff, ← int_mem_members, ← int_mem_members, h]

theorem eq_empty_of_members (h : s.members = ∅) : s = .empty s.size :=
  eq_of_members rfl (h.trans (members_empty s.size).symm)

theorem members_join (h : s.join t = .ok u) : u.members = s.members ∪ t.members := by
  ext d
  simp only [Set.mem_union, mem_members, has_join_iff h, and_or_left, exists_or]

theorem join_of_members (hs : s.size = u.size) (ht : t.size = u.size)
    (h : u.members = s.members ∪ t.members) : s.join t = .ok u := by
  obtain ⟨v, hv⟩ : ∃ v, s.join t = .ok v := exists_combine _ (ht.trans hs.symm)
  have hvu : v = u := eq_of_members ((size_join hv).1.trans hs) ((members_join hv).trans h.symm)
  rw [hv, hvu]

/-- Over every domain some set has exactly those locals as members that a set of data has. -/
theorem exists_members (n : Nat) (T : Set Datum) :
    ∃ s : LocalSet, s.size = n ∧ ∀ i, s.has i = true ↔ i < n ∧ .int i ∈ T := by
  -- the members are added one by one
  suffices h : ∀ k ≤ n, ∃ s : LocalSet, s.size = n ∧ ∀ i, s.has i = true ↔ i < k ∧ .int i ∈ T from
    h n le_rfl
  intro k
  induction k with
  | zero => exact fun _ => ⟨empty n, rfl, by simp⟩
  | succ k ih =>
    intro hk
    obtain ⟨s, rfl, hs⟩ := ih (by omega)
    by_cases hT : .int k ∈ T
    · refine ⟨s.add ⟨k, hk⟩, rfl, fun i => ?_⟩
      rw [has_add, Bool.or_eq_true, decide_eq_true_iff, hs]
      constructor
      · rintro (⟨hi, hmem⟩ | rfl)
        · exact ⟨by omega, hmem⟩
        · exact ⟨by omega, hT⟩
      · rintro ⟨hi, hmem⟩
        by_cases hik : i = k
        · exact .inr hik
        · exact .inl ⟨by omega, hmem⟩
    · refine ⟨s, rfl, fun i => ?_⟩
      rw [hs]
      constructor
      · rintro ⟨hi, hmem⟩
        exact ⟨by omega, hmem⟩
      · rintro ⟨hi, hmem⟩
        have hik : i ≠ k := fun h => hT (h ▸ hmem)
        exact ⟨by omega, hmem⟩

/-! ### Changing one local -/

section

variable [Machine]

theorem place_eq_ok_iff {i : Fin s.size} :
    s.place d = .ok i ↔ d = .int i.val ∧ Machine.sets i.val = true := by
  unfold place
  cases h : s.index d with
  | error f =>
    change Except.error f = Except.ok i ↔ _
    refine ⟨nofun, fun ⟨hd, _⟩ => ?_⟩
    rw [index_eq_ok_iff.2 hd] at h
    cases h
  | ok j =>
    change (if Machine.sets j.val then pure j else throw (refusal j.val) : Except Fault _) = _ ↔ _
    have hj := index_eq_ok_iff.1 h
    split
    · next hsets =>
      constructor
      · intro he
        cases he
        exact ⟨hj, hsets⟩
      · rintro ⟨hd, _⟩
        have hij : j = i := by
          rw [hj, Datum.int.injEq] at hd
          omega
        rw [hij]
        rfl
    · next hsets =>
      refine ⟨nofun, fun ⟨hd, hi⟩ => ?_⟩
      have hij : j.val = i.val := by
        rw [hj, Datum.int.injEq] at hd
        omega
      exact absurd (hij ▸ hi) hsets

theorem place_eq_error {i : Fin s.size} (h : Machine.sets i.val = false) :
    s.place (.int i.val) = .error (refusal i.val) := by
  unfold place
  rw [index_eq_ok_iff.2 rfl]
  exact if_neg (Bool.eq_false_iff.1 h)

theorem insert_of_not_sets (hi : i < s.size) (h : Machine.sets i = false) :
    s.insert (.int i) = .error (refusal i) := by
  rw [insert, place_eq_error (i := ⟨i, hi⟩) h]
  rfl

end

def put (s : LocalSet) (i : Fin s.size) (b : Bool) : LocalSet :=
  if b then s.add i else s.erase i

@[simp] theorem size_put (s : LocalSet) (i : Fin s.size) (b : Bool) :
    (s.put i b).size = s.size := by
  cases b <;> rfl

theorem has_put (s : LocalSet) (i : Fin s.size) (b : Bool) (j : Nat) :
    (s.put i b).has j = if j = i.val then b else s.has j := by
  cases b with
  | true =>
    rw [put, if_pos rfl, has_add]
    split
    · next h => simp [h]
    · next h => simp [h]
  | false =>
    rw [put, if_neg Bool.false_ne_true, has_erase]
    split
    · next h => simp [h]
    · next h => simp [h]

theorem members_put (s : LocalSet) (i : Fin s.size) (b : Bool) (d : Datum) :
    d ∈ (s.put i b).members ↔ (d = .int i.val ∧ b = true) ∨ (d ≠ .int i.val ∧ d ∈ s.members) := by
  simp only [mem_members, has_put]
  constructor
  · rintro ⟨j, rfl, hj⟩
    split at hj
    · next h => exact .inl ⟨by rw [h], hj⟩
    · next h =>
      refine .inr ⟨fun hd => h ?_, j, rfl, hj⟩
      rw [Datum.int.injEq] at hd
      omega
  · rintro (⟨rfl, hb⟩ | ⟨hd, j, rfl, hj⟩)
    · exact ⟨i.val, rfl, by rw [if_pos rfl, hb]⟩
    · refine ⟨j, rfl, ?_⟩
      rw [if_neg fun h => hd (by rw [h]), hj]

theorem put_mono {i : Fin s.size} {j : Fin t.size} {b c : Bool} (hle : s ≤ t)
    (hij : i.val = j.val) (hbc : b = true → c = true) : s.put i b ≤ t.put j c := by
  refine ⟨by rw [size_put, size_put, hle.1], fun k hk => ?_⟩
  rw [has_put] at hk ⊢
  rw [← hij]
  split at hk
  · next h => rw [if_pos h, hbc hk]
  · next h => rw [if_neg h, hle.2 k hk]

end LocalSet

end MayTaint
