import MayTaint.Proofs.Stateless

/-!
The members of a set as a list, and the set with the members of a list. A set is built by inserting
one local after the other, and is listed by taking its pattern apart. Each of the two undoes the
other, up to the order of the list and repetitions in it, as long as the machine sets the bits of
the locals.
-/

namespace MayTaint

namespace LocalSet

variable {s t u : LocalSet} {n : Nat} {ds : List Datum} {xs : List Nat}

/-! ### Listing -/

/-- The numbers of the bits of a pattern, counted from `position`: one bit after the other is looked
at and shifted out, until nothing is left. -/
def scan (position pattern : Nat) : List Nat :=
  if pattern = 0 then []
  else
    let rest := scan (position + 1) (pattern >>> 1)
    if pattern &&& 1 = 0 then rest else position :: rest
termination_by pattern
decreasing_by
  rw [Nat.shiftRight_one]
  omega

theorem scan_eq_bitIndices (position pattern : Nat) :
    scan position pattern = pattern.bitIndices.map (position + ·) := by
  -- what is left after a shift has its bits one position lower
  have hshift (position half : Nat) : half.bitIndices.map (position + 1 + ·) =
      (half.bitIndices.map (· + 1)).map (position + ·) := by
    rw [List.map_map]
    exact List.map_congr_left fun i _ => by simp only [Function.comp_apply]; omega
  fun_induction scan position pattern with
  | case1 => simp
  | case2 position pattern hne rest heven ih =>
    rw [Nat.and_one_is_mod] at heven
    obtain ⟨half, rfl⟩ : ∃ half, pattern = 2 * half := ⟨pattern / 2, by omega⟩
    have hhalf : (2 * half) >>> 1 = half := by rw [Nat.shiftRight_one]; omega
    change scan (position + 1) ((2 * half) >>> 1) = _
    rw [ih, hhalf, hshift, Nat.bitIndices_two_mul]
  | case3 position pattern hne rest hodd ih =>
    rw [Nat.and_one_is_mod] at hodd
    obtain ⟨half, rfl⟩ : ∃ half, pattern = 2 * half + 1 := ⟨pattern / 2, by omega⟩
    have hhalf : (2 * half + 1) >>> 1 = half := by rw [Nat.shiftRight_one]; omega
    change position :: scan (position + 1) ((2 * half + 1) >>> 1) = _
    rw [ih, hhalf, hshift, Nat.bitIndices_two_mul_add_one, List.map_cons, Nat.add_zero]

/-- Halving the pattern and shifting it bit by bit find the same members. -/
theorem toList_eq_scan (s : LocalSet) : s.toList = scan 0 s.bits.toNat := by
  rw [toList_eq_bitIndices, scan_eq_bitIndices]
  simp

/-- A list of members is sorted and free of repetitions. -/
theorem toList_eq_sort (h : ∀ i, s.has i = true ↔ i ∈ xs) : s.toList = xs.toFinset.sort := by
  refine s.pairwise_toList.sortedLT.eq_of_mem_iff (Finset.sortedLT_sort _) fun i => ?_
  rw [mem_toList, h, Finset.mem_sort, List.mem_toFinset]

theorem toList_inj (hsize : t.size = s.size) : t.toList = s.toList ↔ t = s := by
  refine ⟨fun h => eq_of_has hsize fun i => ?_, congrArg toList⟩
  rw [Bool.eq_iff_iff, ← mem_toList, h, mem_toList]

/-! ### Building -/

section

variable [Machine]

/-- Inserting all data of a list succeeds if all of them are locals whose bits can be set; the set
gains exactly these. -/
theorem foldlM_insert_eq_ok_iff :
    (ds.foldlM (fun s d => do return (← s.insert d).2) s : Except Fault LocalSet) = .ok u ↔
      (∀ d ∈ ds, ∃ i : Nat, d = .int i ∧ i < s.size ∧ Machine.sets i = true) ∧ u.size = s.size ∧
        ∀ i : Nat, u.has i = true ↔ s.has i = true ∨ .int i ∈ ds := by
  induction ds generalizing s with
  | nil =>
    change Except.ok s = Except.ok u ↔ _
    rw [Except.ok.injEq]
    constructor
    · rintro rfl
      exact ⟨fun d hd => absurd hd List.not_mem_nil, rfl, fun i => by simp⟩
    · rintro ⟨_, hsize, hhas⟩
      refine eq_of_has hsize.symm fun i => ?_
      rw [Bool.eq_iff_iff, hhas]
      simp
  | cons d ds ih =>
    have hadd (i : Fin s.size) (j : Nat) : (s.add i).has j = true ∨ .int j ∈ ds ↔
        s.has j = true ∨ Datum.int j ∈ Datum.int i.val :: ds := by
      rw [has_add, Bool.or_eq_true, decide_eq_true_iff, List.mem_cons, Datum.int.injEq,
        Int.natCast_inj, or_assoc]
    rw [List.foldlM_cons, except_bind_eq_ok]
    constructor
    · rintro ⟨v, hv, hu⟩
      obtain ⟨i, hi, rfl⟩ := Effect.gen_eq_ok.1 hv
      obtain ⟨rfl, hsets⟩ := place_eq_ok_iff.1 hi
      obtain ⟨hds, hsize, hhas⟩ := ih.1 hu
      refine ⟨List.forall_mem_cons.2 ⟨⟨i, rfl, i.isLt, hsets⟩, hds⟩, hsize, fun j => ?_⟩
      rw [hhas, hadd]
    · rintro ⟨hall, hsize, hhas⟩
      obtain ⟨⟨i, rfl, hi, hsets⟩, hds⟩ := List.forall_mem_cons.1 hall
      have hplace : s.place (.int i) = .ok ⟨i, hi⟩ := place_eq_ok_iff.2 ⟨rfl, hsets⟩
      refine ⟨s.add ⟨i, hi⟩, Effect.gen_eq_ok.2 ⟨⟨i, hi⟩, hplace, rfl⟩, ih.2 ⟨hds, hsize, ?_⟩⟩
      intro j
      rw [hhas, hadd ⟨i, hi⟩]

theorem ofList_eq_ok_iff : ofList n ds = .ok u ↔
    (∀ d ∈ ds, ∃ i : Nat, d = .int i ∧ i < n ∧ Machine.sets i = true) ∧ u.size = n ∧
      ∀ i : Nat, u.has i = true ↔ .int i ∈ ds := by
  unfold ofList
  rw [bottom_natCast]
  change ds.foldlM _ (empty n) = _ ↔ _
  rw [foldlM_insert_eq_ok_iff]
  simp only [has_empty, Bool.false_eq_true, false_or]
  rfl

/-- For a list of numbers. -/
theorem ofList_map_eq_ok_iff : ofList n (xs.map fun i => .int i) = .ok u ↔
    (∀ i ∈ xs, i < n ∧ Machine.sets i = true) ∧ u.size = n ∧ ∀ i, u.has i = true ↔ i ∈ xs := by
  rw [ofList_eq_ok_iff]
  simp

theorem exists_ofList_map_iff : (∃ u, ofList n (xs.map fun i => .int i) = .ok u) ↔
    ∀ i ∈ xs, i < n ∧ Machine.sets i = true := by
  simp only [ofList_map_eq_ok_iff]
  constructor
  · rintro ⟨u, h, _⟩
    exact h
  · intro h
    obtain ⟨u, hsize, hhas⟩ := exists_members n {d | ∃ i ∈ xs, d = .int i}
    refine ⟨u, h, hsize, fun i => ?_⟩
    rw [hhas]
    constructor
    · rintro ⟨_, j, hj, hij⟩
      rw [Datum.int.injEq, Int.natCast_inj] at hij
      rwa [hij]
    · intro hi
      exact ⟨(h i hi).1, i, hi, rfl⟩

/-- Listing and building. The list of a set is found bit by bit, is strictly increasing, has exactly
the members, and is as long as the set is large. A set is built again from its list, and a list of
locals is sorted and rid of repetitions by building a set from it, both exactly if the machine sets
the bits. Sets over one domain are equal if their lists are. -/
theorem toList_inverts_ofList (s : LocalSet) {xs : List Nat} (hxs : ∀ i ∈ xs, i < s.size) :
    s.toList = scan 0 s.bits.toNat ∧ s.toList.Pairwise (· < ·) ∧
    (∀ d, s.holds d = true ↔ ∃ i ∈ s.toList, d = .int i) ∧
    s.toList.length = s.count ∧
    (ofList s.size (s.toList.map fun i => .int i) = .ok s ↔ ∀ i ∈ s.toList, Machine.sets i = true) ∧
    ((∃ u, ofList s.size (xs.map fun i => .int i) = .ok u) ↔ ∀ i ∈ xs, Machine.sets i = true) ∧
    (∀ u, ofList s.size (xs.map fun i => .int i) = .ok u →
      u.size = s.size ∧ u.toList = xs.toFinset.sort) ∧
    ∀ t : LocalSet, t.size = s.size → ((t == s) = true ↔ t.toList = s.toList) := by
  refine ⟨s.toList_eq_scan, s.pairwise_toList, fun d => ?_, s.count_eq_length.symm, ?_, ?_,
    fun u hu => ?_, fun t ht => ?_⟩
  · change d ∈ s.members ↔ _
    simp only [mem_members, mem_toList, and_comm]
  · rw [ofList_map_eq_ok_iff]
    constructor
    · rintro ⟨h, _⟩ i hi
      exact (h i hi).2
    · intro h
      refine ⟨fun i hi => ⟨lt_size_of_has (mem_toList.1 hi), h i hi⟩, rfl, fun i => mem_toList.symm⟩
  · rw [exists_ofList_map_iff]
    exact forall₂_congr fun i hi => and_iff_right (hxs i hi)
  · obtain ⟨_, hsize, hhas⟩ := ofList_map_eq_ok_iff.1 hu
    exact ⟨hsize, toList_eq_sort hhas⟩
  · rw [beq_iff_eq, toList_inj ht]

end

attribute [local instance] Machine.ample in
/-- A list with repetitions, in no order. -/
theorem toList_inverts_ofList_four :
    (∀ i ∈ [3, 0, 3, 2], i < ((empty 4).add ⟨1, by decide⟩).size) ∧
    ∃ u, ofList 4 [.int 3, .int 0, .int 3, .int 2] = .ok u ∧
      u.toList = [0, 2, 3] ∧
      ofList 4 (((empty 4).add ⟨1, by decide⟩).toList.map fun i => .int i) =
        .ok ((empty 4).add ⟨1, by decide⟩) := by
  have hxs : ∀ i ∈ [3, 0, 3, 2], i < ((empty 4).add ⟨1, by decide⟩).size := by decide
  obtain ⟨_, _, _, _, hback, hbuilt, hlist, _⟩ :=
    toList_inverts_ofList ((empty 4).add ⟨1, by decide⟩) hxs
  obtain ⟨u, hu⟩ := hbuilt.2 (by decide)
  exact ⟨hxs, u, hu, (hlist u hu).2.trans (by cbv), hback.2 (by decide)⟩

/-- A local of the domain whose bit cannot be set is the only member of no set that can be built. -/
theorem ofList_of_not_sets [Machine] {i : Nat} (hi : i < n) (h : Machine.sets i = false) :
    ofList n [.int i] = .error (refusal i) := by
  unfold ofList
  rw [bottom_natCast]
  change ((do return (← (empty n).insert (.int i)).2) >>= _ : Except Fault LocalSet) = _
  rw [insert_of_not_sets hi h]
  rfl

/-- No machine addresses the local `2 ^ 70` among `2 ^ 71` locals. -/
theorem ofList_fails_two_pow_seventy :
    (1180591620717411303424 : Nat) < 2361183241434822606848 ∧ ∀ [Machine],
      ofList 2361183241434822606848 [.int 1180591620717411303424] = .error .tooManyDigits := by
  refine ⟨by decide, ?_⟩
  intro _
  exact ofList_of_not_sets (n := 2361183241434822606848) (i := 1180591620717411303424)
    (by decide) (Machine.sets_of_not_addresses (by decide))

end LocalSet

end MayTaint
