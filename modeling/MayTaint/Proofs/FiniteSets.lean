import MayTaint.Proofs.Stateless

/-!
Sets of locals behave as finite sets. Operations on a collection of sets (making sets, changing them
in place, combining them, asking them) are given once for any kind of sets, and two kinds offer
them: the bit patterns of the library, and finite sets of numbers below a bound, for which every
operation is the one of mathematics. Reading a pattern as a finite set commutes with each of the
operations, unless the machine stops one because it does not set the bit of a local. Hence every
sequence of operations, with whatever arguments, answers and fails as the operations of it that the
machine does not stop do on finite sets.
-/

namespace MayTaint

/-! ### Operations on collections -/

class Sets (α : Type) where
  ofPattern : Int → Int → Except Fault α
  ofList : Int → List Datum → Except Fault α
  insert : α → Datum → Except Fault (Bool × α)
  remove : α → Datum → Except Fault (Bool × α)
  clear : α → α
  overwrite : α → α → Except Fault α
  unionWith : α → α → Except Fault (Bool × α)
  join : α → α → Except Fault α
  difference : α → α → Except Fault α
  contains : α → Datum → Except Fault Bool
  holds : α → Datum → Bool
  isEmpty : α → Bool
  count : α → Nat
  isSubset : α → α → Except Fault Bool
  same : α → α → Bool

/-- An operation on a collection. Sets are named by their positions; a set that is made comes
last. -/
inductive Operation where
  | new (size pattern : Int)
  | ofLocals (size : Int) (members : List Datum)
  | copy (x : Nat)
  | insert (x : Nat) (d : Datum)
  | remove (x : Nat) (d : Datum)
  | clear (x : Nat)
  | overwrite (x y : Nat)
  | unionWith (x y : Nat)
  | join (x y : Nat)
  | difference (x y : Nat)
  | contains (x : Nat) (d : Datum)
  | holds (x : Nat) (d : Datum)
  | isEmpty (x : Nat)
  | count (x : Nat)
  | isSubset (x y : Nat)
  | same (x y : Nat)

inductive Answer where
  | done
  | changed (b : Bool)
  | truth (b : Bool)
  | number (n : Nat)

namespace Operation

section

variable {α : Type} [Sets α]

def fetch (x : Nat) : EStateM Fault (List α) α := fun sets =>
  match sets[x]? with
  | some s => .ok s sets
  | none => .error .indexOutOfRange sets

def make (r : Except Fault α) : EStateM Fault (List α) Answer := do
  let s ← ofExcept r
  modify (· ++ [s])
  return .done

def replace (x : Nat) (r : Except Fault α) : EStateM Fault (List α) Answer := do
  let s ← ofExcept r
  modify (·.set x s)
  return .done

def change (x : Nat) (r : Except Fault (Bool × α)) : EStateM Fault (List α) Answer := do
  let (b, s) ← ofExcept r
  modify (·.set x s)
  return .changed b

def ask (r : Except Fault Bool) : EStateM Fault (List α) Answer := do
  return .truth (← ofExcept r)

def perform : Operation → EStateM Fault (List α) Answer
  | new size pattern => make (Sets.ofPattern size pattern)
  | ofLocals size members => make (Sets.ofList size members)
  | copy x => do make (.ok (← fetch x))
  | insert x d => do change x (Sets.insert (← fetch x) d)
  | remove x d => do change x (Sets.remove (← fetch x) d)
  | clear x => do replace x (.ok (Sets.clear (← fetch x)))
  | overwrite x y => do replace x (Sets.overwrite (← fetch x) (← fetch y))
  | unionWith x y => do change x (Sets.unionWith (← fetch x) (← fetch y))
  | join x y => do make (Sets.join (← fetch x) (← fetch y))
  | difference x y => do make (Sets.difference (← fetch x) (← fetch y))
  | contains x d => do ask (Sets.contains (← fetch x) d)
  | holds x d => do return .truth (Sets.holds (← fetch x) d)
  | isEmpty x => do return .truth (Sets.isEmpty (← fetch x))
  | count x => do return .number (Sets.count (← fetch x))
  | isSubset x y => do ask (Sets.isSubset (← fetch x) (← fetch y))
  | same x y => do return .truth (Sets.same (← fetch x) (← fetch y))

def attempt (op : Operation) (sets : List α) : Except Fault Answer × List α :=
  match op.perform sets with
  | .ok a sets => (.ok a, sets)
  | .error f sets => (.error f, sets)

/-- Performs operations in turn, also after failures: the answers, and the sets in the end. -/
def performAll : List Operation → List α → List (Except Fault Answer) × List α
  | [], sets => ([], sets)
  | op :: ops, sets =>
    let (answer, sets) := op.attempt sets
    let (answers, sets) := performAll ops sets
    (answer :: answers, sets)

end

end Operation

/-! ### Bit patterns and finite sets -/

instance [Machine] : Sets LocalSet where
  ofPattern := LocalSet.ofPattern
  ofList := LocalSet.ofList
  insert := LocalSet.insert
  remove := LocalSet.remove
  clear := LocalSet.clear
  overwrite := LocalSet.overwrite
  unionWith := LocalSet.unionWith
  join := LocalSet.join
  difference := LocalSet.difference
  contains := LocalSet.contains
  holds := LocalSet.holds
  isEmpty := LocalSet.isEmpty
  count := LocalSet.count
  isSubset := LocalSet.isSubset
  same s t := s == t

@[ext] structure FiniteSet where
  size : Nat
  members : Finset Nat
  below : ∀ i ∈ members, i < size
  deriving DecidableEq

namespace FiniteSet

def ofRange {size : Nat} {i : Int} (h : 0 ≤ i ∧ i < size) : Fin size :=
  ⟨i.toNat, by omega⟩

def locate (size : Nat) : Datum → Except Fault (Fin size)
  | .int i => if h : 0 ≤ i ∧ i < size then .ok (ofRange h) else .error (.localOutOfRange i size)
  | d => .error (.notAnIndex d)

theorem eq_int_of_locate {size : Nat} {d : Datum} {i : Fin size} (h : locate size d = .ok i) :
    d = .int i.val := by
  cases d with
  | int n =>
    rw [locate] at h
    split at h
    · next hn =>
      cases h
      exact congrArg Datum.int (Int.toNat_of_nonneg hn.1).symm
    · cases h
  | _ => cases h

/-- The first of the data whose bit the machine does not set, if all before it are locals below the
bound as well. -/
def obstacle? [Machine] (size : Nat) : List Datum → Option Nat
  | [] => none
  | d :: rest =>
    match locate size d with
    | .ok i => if Machine.sets i then obstacle? size rest else some i
    | .error _ => none

def ofPattern (size pattern : Int) : Except Fault FiniteSet :=
  if size < 0 then .error (.negativeDomain size)
  else if 0 ≤ pattern ∧ pattern < 2 ^ size.toNat then
    .ok ⟨size.toNat, {i ∈ Finset.range size.toNat | pattern.toNat.testBit i}, by simp; omega⟩
  else .error (.patternTooWide pattern size)

def insert (s : FiniteSet) (d : Datum) : Except Fault (Bool × FiniteSet) := do
  let i ← locate s.size d
  return (decide (i.val ∉ s.members),
    ⟨s.size, Insert.insert i.val s.members, by simpa using s.below⟩)

def remove (s : FiniteSet) (d : Datum) : Except Fault (Bool × FiniteSet) := do
  let i ← locate s.size d
  return (decide (i.val ∈ s.members),
    ⟨s.size, s.members.erase i.val, fun j hj => s.below j (Finset.mem_of_mem_erase hj)⟩)

def ofList (size : Int) (members : List Datum) : Except Fault FiniteSet := do
  members.foldlM (fun s d => do return (← s.insert d).2) (← ofPattern size 0)

def clear (s : FiniteSet) : FiniteSet :=
  ⟨s.size, ∅, by simp⟩

def combine (s t : FiniteSet) (members : Finset Nat)
    (h : t.size = s.size → ∀ i ∈ members, i < s.size) : Except Fault FiniteSet :=
  if hsize : t.size = s.size then .ok ⟨s.size, members, h hsize⟩
  else .error (.domainMismatch s.size t.size)

def join (s t : FiniteSet) : Except Fault FiniteSet :=
  combine s t (s.members ∪ t.members) fun hsize i hi =>
    (Finset.mem_union.1 hi).elim (s.below i) fun hi => hsize ▸ t.below i hi

def difference (s t : FiniteSet) : Except Fault FiniteSet :=
  combine s t (s.members \ t.members) fun _ i hi => s.below i (Finset.mem_sdiff.1 hi).1

def overwrite (s t : FiniteSet) : Except Fault FiniteSet :=
  combine s t t.members fun hsize i hi => hsize ▸ t.below i hi

def unionWith (s t : FiniteSet) : Except Fault (Bool × FiniteSet) := do
  let u ← s.join t
  return (decide (u.members ≠ s.members), u)

def contains (s : FiniteSet) (d : Datum) : Except Fault Bool := do
  let i ← locate s.size d
  return decide (i.val ∈ s.members)

def holds (s : FiniteSet) : Datum → Bool
  | .int i => decide (0 ≤ i ∧ i.toNat ∈ s.members)
  | _ => false

def isSubset (s t : FiniteSet) : Except Fault Bool :=
  if t.size = s.size then .ok (decide (s.members ⊆ t.members))
  else .error (.domainMismatch s.size t.size)

section

variable [Machine]

theorem obstacle?_zero (ds : List Datum) : obstacle? 0 ds = none := by
  cases ds with
  | nil => rfl
  | cons d ds =>
    rw [obstacle?]
    cases locate 0 d with
    | error f => rfl
    | ok i => exact i.elim0

theorem mem_of_obstacle {size i : Nat} {ds : List Datum} (h : obstacle? size ds = some i) :
    .int i ∈ ds ∧ Machine.sets i = false := by
  induction ds with
  | nil => cases h
  | cons d ds ih =>
    rw [obstacle?] at h
    cases hd : locate size d with
    | error f =>
      rw [hd] at h
      cases h
    | ok j =>
      simp only [hd] at h
      split at h
      · exact (ih h).imp_left (List.mem_cons_of_mem d)
      · next hj =>
        cases h
        rw [eq_int_of_locate hd]
        exact ⟨List.mem_cons_self, Bool.eq_false_iff.2 hj⟩

end

instance : Sets FiniteSet where
  ofPattern := ofPattern
  ofList := ofList
  insert := insert
  remove := remove
  clear := clear
  overwrite := overwrite
  unionWith := unionWith
  join := join
  difference := difference
  contains := contains
  holds := holds
  isEmpty s := decide (s.members = ∅)
  count s := s.members.card
  isSubset := isSubset
  same s t := decide (s = t)

end FiniteSet

/-! ### Reading a pattern as a finite set -/

namespace LocalSet

variable {s t : LocalSet} {i : Nat} {d : Datum}

def finite (s : LocalSet) : FiniteSet :=
  ⟨s.size, {i ∈ Finset.range s.size | s.has i = true}, by simp; omega⟩

@[simp] theorem size_finite (s : LocalSet) : s.finite.size = s.size := rfl

@[simp] theorem mem_finite : i ∈ s.finite.members ↔ s.has i = true := by
  simpa [finite] using lt_size_of_has

theorem finite_inj : s.finite = t.finite ↔ s = t := by
  refine ⟨fun h => eq_of_has (congrArg FiniteSet.size h) fun i => ?_, congrArg finite⟩
  rw [Bool.eq_iff_iff, ← mem_finite, h, mem_finite]

theorem toFinset_toList (s : LocalSet) : s.toList.toFinset = s.finite.members := by
  ext i
  rw [List.mem_toFinset, mem_toList, mem_finite]

theorem count_eq_card (s : LocalSet) : s.count = s.finite.members.card := by
  rw [count_eq_length, ← toFinset_toList, List.toFinset_card_of_nodup (nodup_toList s)]

/-- The number whose binary digits are the pattern is the sum of the weights of the members. -/
theorem toNat_bits (s : LocalSet) : s.bits.toNat = ∑ i ∈ s.finite.members, 2 ^ i := by
  rw [← toFinset_toList, List.sum_toFinset _ (nodup_toList s), toList_eq_bitIndices,
    Nat.sum_map_two_pow_bitIndices]

theorem index_eq_locate (s : LocalSet) (d : Datum) :
    s.index d = FiniteSet.locate s.finite.size d := by
  cases d <;> rfl

theorem map_finite_ofPattern (size pattern : Int) :
    (ofPattern size pattern).map finite = FiniteSet.ofPattern size pattern := by
  unfold ofPattern FiniteSet.ofPattern
  by_cases hsize : size < 0
  · rw [if_pos hsize, if_pos hsize]
    rfl
  rw [if_neg hsize, if_neg hsize]
  by_cases hzero : pattern = 0
  · subst hzero
    rw [if_pos rfl, if_pos ⟨le_rfl, by positivity⟩]
    refine congrArg Except.ok (FiniteSet.ext rfl ?_)
    ext i
    simp
  rw [if_neg hzero]
  have hlog (hpos : 0 < pattern) :
      pattern.toNat.log2 < size.toNat ↔ pattern < 2 ^ size.toNat := by
    rw [Nat.log2_lt (by omega), ← Int.ofNat_lt, Int.toNat_of_nonneg hpos.le]
    norm_cast
  by_cases hfits : 0 < pattern ∧ pattern < 2 ^ size.toNat
  · rw [dif_pos ⟨hfits.1, (hlog hfits.1).2 hfits.2⟩, if_pos ⟨hfits.1.le, hfits.2⟩]
    refine congrArg Except.ok (FiniteSet.ext rfl ?_)
    ext i
    simp [finite, has]
  · have hpos (h : 0 ≤ pattern) : 0 < pattern := by omega
    rw [dif_neg fun h => hfits ⟨h.1, (hlog h.1).1 h.2⟩, if_neg fun h => hfits ⟨hpos h.1, h.2⟩]
    rfl

theorem exists_ofPattern_iff {size pattern : Int} :
    (∃ s, ofPattern size pattern = .ok s) ↔ 0 ≤ size ∧ 0 ≤ pattern ∧ pattern < 2 ^ size.toNat := by
  have hmap : (∃ s, ofPattern size pattern = .ok s) ↔
      ∃ u, FiniteSet.ofPattern size pattern = .ok u := by
    rw [← map_finite_ofPattern]
    cases ofPattern size pattern <;> simp [Except.map]
  rw [hmap, FiniteSet.ofPattern]
  by_cases hsize : size < 0
  · simp [hsize, hsize.not_ge]
  · by_cases hfits : 0 ≤ pattern ∧ pattern < 2 ^ size.toNat <;> simp [hsize, hfits, not_lt.1 hsize]

theorem ofPattern_eq_ok {size pattern : Int} (h : ofPattern size pattern = .ok s) :
    s.size = size ∧ s.bits.toNat = pattern := by
  unfold ofPattern at h
  split at h
  · cases h
  · next hsize =>
    split at h
    · next hzero =>
      cases h
      simp [empty, hzero]
      omega
    · split at h
      · next hfits =>
        cases h
        simp
        omega
      · cases h

theorem members_finite_add (s : LocalSet) (i : Fin s.size) :
    (s.add i).finite.members = Insert.insert i.val s.finite.members := by
  ext j
  simp [has_add, or_comm]

theorem members_finite_erase (s : LocalSet) (i : Fin s.size) :
    (s.erase i).finite.members = s.finite.members.erase i.val := by
  ext j
  simp [has_erase, and_comm]

theorem finite_clear (s : LocalSet) : s.clear.finite = s.finite.clear := by
  refine FiniteSet.ext rfl ?_
  ext i
  simp [clear, FiniteSet.clear]

theorem map_finite_combine {f : (n : Nat) → BitVec n → BitVec n → BitVec n}
    {members : Finset Nat} {h : t.finite.size = s.finite.size → ∀ i ∈ members, i < s.finite.size}
    (hf : ∀ u, combine f s t = .ok u → ∀ i, u.has i = true ↔ i ∈ members) :
    (combine f s t).map finite = s.finite.combine t.finite members h := by
  by_cases hsize : t.size = s.size
  · obtain ⟨u, hu⟩ := exists_combine f hsize
    rw [hu, FiniteSet.combine, dif_pos (show t.finite.size = s.finite.size from hsize)]
    refine congrArg Except.ok (FiniteSet.ext (size_combine hu).1 ?_)
    ext i
    rw [mem_finite, hf u hu]
  · rw [combine, dif_neg hsize, FiniteSet.combine,
      dif_neg (show ¬t.finite.size = s.finite.size from hsize)]
    rfl

theorem map_finite_join (s t : LocalSet) : (s.join t).map finite = s.finite.join t.finite :=
  map_finite_combine fun u hu i => by simp [has_join hu]

theorem map_finite_difference (s t : LocalSet) :
    (s.difference t).map finite = s.finite.difference t.finite :=
  map_finite_combine fun u hu i => by simp [has_difference hu]

theorem map_finite_overwrite (s t : LocalSet) :
    (s.overwrite t).map finite = s.finite.overwrite t.finite := by
  refine map_finite_combine fun u hu i => ?_
  have hsize := (size_combine hu).2
  rw [combine, dif_pos hsize] at hu
  cases hu
  rw [mem_finite, has, BitVec.getLsbD_cast, has]

theorem map_finite_unionWith (s t : LocalSet) :
    (s.unionWith t).map (Prod.map id finite) = s.finite.unionWith t.finite := by
  unfold unionWith FiniteSet.unionWith
  rw [← map_finite_join]
  cases hu : s.join t with
  | error f => rfl
  | ok u =>
    refine congrArg Except.ok (Prod.ext ?_ rfl)
    have hsame : u.finite.members = s.finite.members ↔ u = s := by
      rw [← finite_inj, FiniteSet.ext_iff]
      exact (and_iff_right (size_join hu).1).symm
    by_cases h : u = s <;> simp [hsame, h]

theorem contains_finite (s : LocalSet) (d : Datum) : s.contains d = s.finite.contains d := by
  unfold contains FiniteSet.contains
  rw [index_eq_locate]
  cases FiniteSet.locate s.finite.size d with
  | error f => rfl
  | ok i => simp

theorem holds_finite (s : LocalSet) (d : Datum) : s.holds d = s.finite.holds d := by
  have hiff : s.holds d = true ↔ ∃ i : Nat, d = .int i ∧ s.has i = true := mem_members
  rw [Bool.eq_iff_iff, hiff]
  cases d with
  | int i =>
    simp only [Datum.int.injEq, FiniteSet.holds, mem_finite, decide_eq_true_eq]
    constructor
    · rintro ⟨j, rfl, hj⟩
      exact ⟨Int.natCast_nonneg j, hj⟩
    · rintro ⟨hi, hhas⟩
      exact ⟨i.toNat, (Int.toNat_of_nonneg hi).symm, hhas⟩
  | _ => simp [FiniteSet.holds]

theorem isEmpty_finite (s : LocalSet) : s.isEmpty = decide (s.finite.members = ∅) := by
  rw [Bool.eq_iff_iff, isEmpty_iff, decide_eq_true_eq, Finset.eq_empty_iff_forall_notMem]
  simp

theorem isSubset_finite (s t : LocalSet) : s.isSubset t = s.finite.isSubset t.finite := by
  unfold isSubset FiniteSet.isSubset
  by_cases hsize : t.size = s.size
  · obtain ⟨u, hu⟩ : ∃ u, s.difference t = .ok u := exists_combine _ hsize
    rw [hu, if_pos (by simpa using hsize)]
    refine congrArg Except.ok ?_
    rw [Bool.eq_iff_iff, isEmpty_iff, decide_eq_true_eq]
    refine forall_congr' fun i => ?_
    simp [has_difference hu]
  · rw [difference, combine, dif_neg hsize, if_neg (by simpa using hsize)]
    rfl

theorem same_finite (s t : LocalSet) : (s == t) = decide (s.finite = t.finite) := by
  rw [Bool.eq_iff_iff, beq_iff_eq, decide_eq_true_eq, finite_inj]

theorem add_eq_self_iff {i : Fin s.size} : s.add i = s ↔ s.has i = true := by
  refine ⟨fun h => ?_, fun h => eq_of_has rfl fun j => ?_⟩
  · have hi := has_add s i i.val
    rwa [h, decide_eq_true rfl, Bool.or_true] at hi
  · rw [has_add]
    by_cases hj : j = i.val <;> simp [hj, h]

theorem erase_eq_self_iff {i : Fin s.size} : s.erase i = s ↔ s.has i = false := by
  refine ⟨fun h => ?_, fun h => eq_of_has rfl fun j => ?_⟩
  · have hi := has_erase s i i.val
    rwa [h, decide_eq_true rfl, Bool.not_true, Bool.and_false] at hi
  · rw [has_erase]
    by_cases hj : j = i.val <;> simp [hj, h]

theorem size_overwrite {u : LocalSet} (h : s.overwrite t = .ok u) : u.size = s.size :=
  (size_combine h).1

/-- A set is kept over its domain, and a flag tells whether it changed. -/
def Tells (s : LocalSet) (b : Bool) (s' : LocalSet) : Prop :=
  s'.size = s.size ∧ (b = true ↔ s' ≠ s)

theorem tells_unionWith {b : Bool} {s' : LocalSet} (h : s.unionWith t = .ok (b, s')) :
    s.Tells b s' := by
  obtain ⟨u, hu, h⟩ := except_bind_eq_ok.1 h
  cases h
  exact ⟨(size_join hu).1, by simp⟩

/-! ### Changes that the machine can stop -/

variable [Machine] {ds : List Datum}

theorem tells_insert {b : Bool} {s' : LocalSet} (h : s.insert d = .ok (b, s')) : s.Tells b s' := by
  obtain ⟨i, -, h⟩ := except_bind_eq_ok.1 h
  cases h
  exact ⟨rfl, by rw [Ne, add_eq_self_iff, Bool.not_eq_true']; simp⟩

theorem tells_remove {b : Bool} {s' : LocalSet} (h : s.remove d = .ok (b, s')) : s.Tells b s' := by
  obtain ⟨i, -, h⟩ := except_bind_eq_ok.1 h
  cases h
  exact ⟨rfl, by rw [Ne, erase_eq_self_iff]; simp⟩

/-- A request for a local is stopped by the machine, or it is refused because the datum is no local,
or it is met. In the last case only, further requests can be stopped. -/
theorem place_cases (s : LocalSet) (d : Datum) (ds : List Datum) :
    (∃ i, FiniteSet.obstacle? s.size (d :: ds) = some i ∧ s.place d = .error (refusal i)) ∨
    (∃ f, FiniteSet.obstacle? s.size (d :: ds) = none ∧ s.place d = .error f ∧
      FiniteSet.locate s.size d = .error f) ∨
    ∃ i, FiniteSet.obstacle? s.size (d :: ds) = FiniteSet.obstacle? s.size ds ∧
      s.place d = .ok i ∧ FiniteSet.locate s.size d = .ok i := by
  have hlocate : FiniteSet.locate s.size d = s.index d := (index_eq_locate s d).symm
  rw [FiniteSet.obstacle?, hlocate]
  cases hd : s.index d with
  | error f => exact .inr (.inl ⟨f, rfl, by rw [place, hd]; rfl, rfl⟩)
  | ok i =>
    obtain rfl := index_eq_ok_iff.1 hd
    cases hi : Machine.sets i with
    | true => exact .inr (.inr ⟨i, by simp [hi], place_eq_ok_iff.2 ⟨rfl, hi⟩, rfl⟩)
    | false => exact .inl ⟨i, by simp [hi], place_eq_error hi⟩

theorem place_of_obstacle (h : FiniteSet.obstacle? s.size [d] = some i) :
    s.place d = .error (refusal i) := by
  rcases place_cases s d [] with ⟨j, hj, hplace⟩ | ⟨f, hf, _⟩ | ⟨j, hj, _⟩
  · cases h.symm.trans hj
    exact hplace
  · cases h.symm.trans hf
  · cases h.symm.trans hj

theorem place_eq_locate (h : FiniteSet.obstacle? s.size [d] = none) :
    s.place d = FiniteSet.locate s.finite.size d := by
  rcases place_cases s d [] with ⟨j, hj, _⟩ | ⟨f, _, hplace, hlocate⟩ | ⟨j, _, hplace, hlocate⟩
  · cases h.symm.trans hj
  · exact hplace.trans hlocate.symm
  · exact hplace.trans hlocate.symm

theorem map_finite_insert (h : FiniteSet.obstacle? s.size [d] = none) :
    (s.insert d).map (Prod.map id finite) = s.finite.insert d := by
  unfold insert FiniteSet.insert
  rw [place_eq_locate h]
  cases FiniteSet.locate s.finite.size d with
  | error f => rfl
  | ok i =>
    refine congrArg Except.ok (Prod.ext ?_ (FiniteSet.ext rfl (members_finite_add s i)))
    simp

theorem map_finite_remove (h : FiniteSet.obstacle? s.size [d] = none) :
    (s.remove d).map (Prod.map id finite) = s.finite.remove d := by
  unfold remove FiniteSet.remove
  rw [place_eq_locate h]
  cases FiniteSet.locate s.finite.size d with
  | error f => rfl
  | ok i =>
    refine congrArg Except.ok (Prod.ext ?_ (FiniteSet.ext rfl (members_finite_erase s i)))
    simp

/-- Locals are inserted one after the other until the machine stops. -/
theorem foldlM_insert_of_obstacle (h : FiniteSet.obstacle? s.size ds = some i) :
    (ds.foldlM (fun s d => do return (← s.insert d).2) s : Except Fault LocalSet) =
      .error (refusal i) := by
  induction ds generalizing s with
  | nil => cases h
  | cons d ds ih =>
    rw [List.foldlM_cons]
    rcases place_cases s d ds with ⟨j, hj, hplace⟩ | ⟨f, hf, _⟩ | ⟨j, hj, hplace, _⟩
    · cases h.symm.trans hj
      simp only [insert, hplace]
      rfl
    · cases h.symm.trans hf
    · simp only [insert, hplace]
      exact ih (s := s.add j) (hj.symm.trans h)

theorem map_finite_foldlM (h : FiniteSet.obstacle? s.size ds = none) :
    (ds.foldlM (fun s d => do return (← s.insert d).2) s : Except Fault LocalSet).map finite =
      ds.foldlM (fun s d => do return (← s.insert d).2) s.finite := by
  induction ds generalizing s with
  | nil => rfl
  | cons d ds ih =>
    rw [List.foldlM_cons, List.foldlM_cons]
    rcases place_cases s d ds with ⟨j, hj, _⟩ | ⟨f, _, hplace, hlocate⟩ | ⟨j, hj, hplace, hlocate⟩
    · cases h.symm.trans hj
    · have hfinite : s.finite.insert d = .error f := by
        rw [FiniteSet.insert, show FiniteSet.locate s.finite.size d = .error f from hlocate]
        rfl
      rw [hfinite, insert, hplace]
      rfl
    · have hfinite : s.finite.insert d = .ok (decide (j.val ∉ s.finite.members),
          (s.add j).finite) := by
        rw [FiniteSet.insert, show FiniteSet.locate s.finite.size d = .ok j from hlocate]
        exact congrArg Except.ok
          (Prod.ext rfl (FiniteSet.ext rfl (members_finite_add s j).symm))
      rw [hfinite, insert, hplace]
      exact ih (s := s.add j) (hj.symm.trans h)

theorem ofList_of_obstacle {size : Int} (h : FiniteSet.obstacle? size.toNat ds = some i) :
    ofList size ds = .error (refusal i) := by
  have hsize : ¬size < 0 := by
    intro hneg
    rw [Int.toNat_of_nonpos hneg.le, FiniteSet.obstacle?_zero] at h
    cases h
  rw [ofList, bottom, ofPattern, if_neg hsize, if_pos rfl]
  exact foldlM_insert_of_obstacle (s := empty size.toNat) h

theorem map_finite_ofList {size : Int} (h : FiniteSet.obstacle? size.toNat ds = none) :
    (ofList size ds).map finite = FiniteSet.ofList size ds := by
  unfold ofList FiniteSet.ofList bottom
  rw [← map_finite_ofPattern]
  cases hs : ofPattern size 0 with
  | error f => rfl
  | ok s =>
    have hsize : s.size = size.toNat := by
      have := (ofPattern_eq_ok hs).1
      omega
    rw [← hsize] at h
    exact map_finite_foldlM h

end LocalSet

/-! ### One operation -/

namespace Operation

def obstacle? [Machine] (sizes : List Nat) : Operation → Option Nat
  | ofLocals size members => FiniteSet.obstacle? size.toNat members
  | insert x d | remove x d => sizes[x]?.bind fun size => FiniteSet.obstacle? size [d]
  | _ => none

section

variable {sets : List LocalSet} {x : EStateM Fault (List LocalSet) Answer}
  {y : EStateM Fault (List FiniteSet) Answer} {n : Nat}

/-- Two runs, one on patterns and one on the finite sets that these stand for, that do the same. -/
def Mirrors (sets : List LocalSet) (x : EStateM Fault (List LocalSet) Answer)
    (y : EStateM Fault (List FiniteSet) Answer) : Prop :=
  y (sets.map LocalSet.finite) = match x sets with
    | .ok a sets' => .ok a (sets'.map LocalSet.finite)
    | .error f sets' => .error f (sets'.map LocalSet.finite)

theorem fetch_of_some {α : Type} {sets : List α} {s : α} (h : sets[n]? = some s) :
    fetch n sets = .ok s sets := by
  rw [fetch, h]

theorem fetch_of_none {α : Type} {sets : List α} (h : sets[n]? = none) :
    fetch n sets = .error .indexOutOfRange sets := by
  rw [fetch, h]

theorem mirrors_fetch {f : LocalSet → EStateM Fault (List LocalSet) Answer}
    {g : FiniteSet → EStateM Fault (List FiniteSet) Answer}
    (h : ∀ s, sets[n]? = some s → Mirrors sets (f s) (g s.finite)) :
    Mirrors sets (fetch n >>= f) (fetch n >>= g) := by
  have hmap : (sets.map LocalSet.finite)[n]? = sets[n]?.map LocalSet.finite := List.getElem?_map
  unfold Mirrors
  cases hs : sets[n]? with
  | none =>
    rw [hs] at hmap
    rw [estate_bind_of_error (fetch_of_none hs), estate_bind_of_error (fetch_of_none hmap)]
  | some s =>
    rw [hs] at hmap
    rw [estate_bind_of_ok (fetch_of_some hs), estate_bind_of_ok (fetch_of_some hmap)]
    exact h s hs

theorem mirrors_make {r : Except Fault LocalSet} {r' : Except Fault FiniteSet}
    (h : r.map LocalSet.finite = r') : Mirrors sets (make r) (make r') := by
  subst h
  cases r with
  | error f => rfl
  | ok s =>
    change EStateM.Result.ok _ (sets.map LocalSet.finite ++ [s.finite]) =
      .ok _ ((sets ++ [s]).map LocalSet.finite)
    rw [List.map_append]
    rfl

theorem mirrors_replace {r : Except Fault LocalSet} {r' : Except Fault FiniteSet}
    (h : r.map LocalSet.finite = r') : Mirrors sets (replace n r) (replace n r') := by
  subst h
  cases r with
  | error f => rfl
  | ok s =>
    change EStateM.Result.ok _ ((sets.map LocalSet.finite).set n s.finite) =
      .ok _ ((sets.set n s).map LocalSet.finite)
    rw [List.map_set]

theorem mirrors_change {r : Except Fault (Bool × LocalSet)} {r' : Except Fault (Bool × FiniteSet)}
    (h : r.map (Prod.map id LocalSet.finite) = r') : Mirrors sets (change n r) (change n r') := by
  subst h
  cases r with
  | error f => rfl
  | ok p =>
    change EStateM.Result.ok (Answer.changed p.1) ((sets.map LocalSet.finite).set n p.2.finite) =
      .ok (Answer.changed p.1) ((sets.set n p.2).map LocalSet.finite)
    rw [List.map_set]

theorem mirrors_ask {r r' : Except Fault Bool} (h : r = r') :
    Mirrors sets (ask r) (ask r') := by
  subst h
  cases r <;> rfl

theorem mirrors_pure {a b : Answer} (h : a = b) : Mirrors sets (pure a) (pure b) := by
  subst h
  rfl

variable [Machine]

/-- An operation that the machine stops changes nothing. -/
theorem perform_of_obstacle {op : Operation} {i : Nat}
    (h : op.obstacle? (sets.map LocalSet.size) = some i) :
    op.perform sets = .error (LocalSet.refusal i) sets := by
  cases op with
  | ofLocals size members =>
    change make (LocalSet.ofList size members) sets = _
    rw [LocalSet.ofList_of_obstacle h]
    rfl
  | insert n d =>
    obtain ⟨_, hsize, h⟩ := Option.bind_eq_some_iff.1 h
    rw [List.getElem?_map] at hsize
    obtain ⟨s, hs, rfl⟩ := Option.map_eq_some_iff.1 hsize
    refine (estate_bind_of_ok (fetch_of_some hs)).trans ?_
    change change n (s.insert d) sets = _
    rw [LocalSet.insert, LocalSet.place_of_obstacle h]
    rfl
  | remove n d =>
    obtain ⟨_, hsize, h⟩ := Option.bind_eq_some_iff.1 h
    rw [List.getElem?_map] at hsize
    obtain ⟨s, hs, rfl⟩ := Option.map_eq_some_iff.1 hsize
    refine (estate_bind_of_ok (fetch_of_some hs)).trans ?_
    change change n (s.remove d) sets = _
    rw [LocalSet.remove, LocalSet.place_of_obstacle h]
    rfl
  | _ => cases h

/-- Every other operation does the same on patterns and on finite sets. -/
theorem mirrors_perform {op : Operation} (h : op.obstacle? (sets.map LocalSet.size) = none) :
    Mirrors sets op.perform op.perform := by
  have hsize {n : Nat} {s : LocalSet} (hs : sets[n]? = some s) :
      (sets.map LocalSet.size)[n]? = some s.size := by rw [List.getElem?_map, hs]; rfl
  cases op with
  | new size pattern => exact mirrors_make (LocalSet.map_finite_ofPattern size pattern)
  | ofLocals size members => exact mirrors_make (LocalSet.map_finite_ofList h)
  | copy n => exact mirrors_fetch fun _ _ => mirrors_make rfl
  | insert n d =>
    refine mirrors_fetch fun s hs => mirrors_change (LocalSet.map_finite_insert ?_)
    rwa [obstacle?, hsize hs] at h
  | remove n d =>
    refine mirrors_fetch fun s hs => mirrors_change (LocalSet.map_finite_remove ?_)
    rwa [obstacle?, hsize hs] at h
  | clear n =>
    exact mirrors_fetch fun s _ => mirrors_replace (congrArg Except.ok (LocalSet.finite_clear s))
  | overwrite n m =>
    exact mirrors_fetch fun s _ => mirrors_fetch fun t _ =>
      mirrors_replace (LocalSet.map_finite_overwrite s t)
  | unionWith n m =>
    exact mirrors_fetch fun s _ => mirrors_fetch fun t _ =>
      mirrors_change (LocalSet.map_finite_unionWith s t)
  | join n m =>
    exact mirrors_fetch fun s _ => mirrors_fetch fun t _ =>
      mirrors_make (LocalSet.map_finite_join s t)
  | difference n m =>
    exact mirrors_fetch fun s _ => mirrors_fetch fun t _ =>
      mirrors_make (LocalSet.map_finite_difference s t)
  | contains n d => exact mirrors_fetch fun s _ => mirrors_ask (LocalSet.contains_finite s d)
  | holds n d =>
    exact mirrors_fetch fun s _ => mirrors_pure (congrArg Answer.truth (LocalSet.holds_finite s d))
  | isEmpty n =>
    exact mirrors_fetch fun s _ => mirrors_pure (congrArg Answer.truth (LocalSet.isEmpty_finite s))
  | count n =>
    exact mirrors_fetch fun s _ => mirrors_pure (congrArg Answer.number (LocalSet.count_eq_card s))
  | isSubset n m =>
    exact mirrors_fetch fun s _ => mirrors_fetch fun t _ =>
      mirrors_ask (LocalSet.isSubset_finite s t)
  | same n m =>
    exact mirrors_fetch fun s _ => mirrors_fetch fun t _ =>
      mirrors_pure (congrArg Answer.truth (LocalSet.same_finite s t))

end

inductive Outcome (sets : List LocalSet) : EStateM.Result Fault (List LocalSet) Answer → Prop
  | failed (f : Fault) : Outcome sets (.error f sets)
  | told (a : Answer) (ha : ∀ b, a ≠ .changed b) : Outcome sets (.ok a sets)
  | made (s : LocalSet) : Outcome sets (.ok .done (sets ++ [s]))
  | replaced (n : Nat) (s s' : LocalSet) (hs : sets[n]? = some s) (hsize : s'.size = s.size) :
      Outcome sets (.ok .done (sets.set n s'))
  | changed (n : Nat) (s : LocalSet) (b : Bool) (s' : LocalSet) (hs : sets[n]? = some s)
      (h : s.Tells b s') : Outcome sets (.ok (.changed b) (sets.set n s'))

section

variable {sets : List LocalSet} {n : Nat} {s : LocalSet}

theorem outcome_fetch {f : LocalSet → EStateM Fault (List LocalSet) Answer}
    (h : ∀ s, sets[n]? = some s → Outcome sets (f s sets)) :
    Outcome sets ((fetch n >>= f) sets) := by
  cases hs : sets[n]? with
  | none =>
    rw [estate_bind_of_error (fetch_of_none hs)]
    exact .failed _
  | some s =>
    rw [estate_bind_of_ok (fetch_of_some hs)]
    exact h s hs

theorem outcome_make (r : Except Fault LocalSet) : Outcome sets (make r sets) := by
  cases r with
  | error f => exact .failed f
  | ok s => exact .made s

theorem outcome_replace (hs : sets[n]? = some s) {r : Except Fault LocalSet}
    (h : ∀ s', r = .ok s' → s'.size = s.size) : Outcome sets (replace n r sets) := by
  cases r with
  | error f => exact .failed f
  | ok s' => exact .replaced n s s' hs (h s' rfl)

theorem outcome_change (hs : sets[n]? = some s) {r : Except Fault (Bool × LocalSet)}
    (h : ∀ b s', r = .ok (b, s') → s.Tells b s') : Outcome sets (change n r sets) := by
  cases r with
  | error f => exact .failed f
  | ok p => exact .changed n s p.1 p.2 hs (h p.1 p.2 rfl)

theorem outcome_ask (r : Except Fault Bool) : Outcome sets (ask r sets) := by
  cases r with
  | error f => exact .failed f
  | ok b => exact .told _ fun _ h => by cases h

variable [Machine]

theorem outcome_perform (op : Operation) (sets : List LocalSet) :
    Outcome sets (op.perform sets) := by
  cases op with
  | new size pattern => exact outcome_make _
  | ofLocals size members => exact outcome_make _
  | copy n => exact outcome_fetch fun _ _ => outcome_make _
  | insert n d => exact outcome_fetch fun _ hs => outcome_change hs fun _ _ => LocalSet.tells_insert
  | remove n d => exact outcome_fetch fun _ hs => outcome_change hs fun _ _ => LocalSet.tells_remove
  | clear n =>
    refine outcome_fetch fun s hs => outcome_replace hs fun s' h => ?_
    cases h
    rfl
  | overwrite n m =>
    exact outcome_fetch fun _ hs => outcome_fetch fun _ _ =>
      outcome_replace hs fun _ => LocalSet.size_overwrite
  | unionWith n m =>
    exact outcome_fetch fun _ hs => outcome_fetch fun _ _ =>
      outcome_change hs fun _ _ => LocalSet.tells_unionWith
  | join n m => exact outcome_fetch fun _ _ => outcome_fetch fun _ _ => outcome_make _
  | difference n m => exact outcome_fetch fun _ _ => outcome_fetch fun _ _ => outcome_make _
  | contains n d => exact outcome_fetch fun _ _ => outcome_ask _
  | holds n d => exact outcome_fetch fun _ _ => .told _ fun _ h => by cases h
  | isEmpty n => exact outcome_fetch fun _ _ => .told _ fun _ h => by cases h
  | count n => exact outcome_fetch fun _ _ => .told _ fun _ h => by cases h
  | isSubset n m => exact outcome_fetch fun _ _ => outcome_fetch fun _ _ => outcome_ask _
  | same n m =>
    exact outcome_fetch fun _ _ => outcome_fetch fun _ _ => .told _ fun _ h => by cases h

/-- An operation that fails changes no set. -/
theorem eq_of_perform_error {op : Operation} {f : Fault} {sets' : List LocalSet}
    (h : op.perform sets = .error f sets') : sets' = sets := by
  have ho := outcome_perform op sets
  rw [h] at ho
  cases ho
  rfl

/-- The flag that an operation returns tells whether any set has changed. -/
theorem changed_iff_of_perform {op : Operation} {b : Bool} {sets' : List LocalSet}
    (h : op.perform sets = .ok (.changed b) sets') : b = true ↔ sets' ≠ sets := by
  have ho := outcome_perform op sets
  rw [h] at ho
  cases ho with
  | told _ ha => exact absurd rfl (ha b)
  | changed n s _ s' hs htells =>
    rw [htells.2, not_iff_not]
    obtain ⟨hn, rfl⟩ := List.getElem?_eq_some_iff.1 hs
    constructor
    · intro hsame
      rw [hsame, List.set_getElem_self]
    · intro hsame
      have hat : (sets.set n s')[n]? = some sets[n] := by rw [hsame, hs]
      rwa [List.getElem?_set_self hn, Option.some.injEq] at hat

/-- No operation changes the size of a set that is there. -/
theorem sizes_attempt (op : Operation) (sets : List LocalSet) :
    sets.map LocalSet.size <+: (op.attempt sets).2.map LocalSet.size := by
  have hset {n : Nat} {s s' : LocalSet} (hs : sets[n]? = some s) (hsize : s'.size = s.size) :
      (sets.set n s').map LocalSet.size = sets.map LocalSet.size := by
    obtain ⟨hn, rfl⟩ := List.getElem?_eq_some_iff.1 hs
    rw [List.map_set, hsize, ← List.getElem_map LocalSet.size (h := by simpa using hn),
      List.set_getElem_self]
  have ho := outcome_perform op sets
  unfold attempt
  generalize op.perform sets = r at ho
  cases ho with
  | failed => exact List.prefix_rfl
  | told => exact List.prefix_rfl
  | made s =>
    change _ <+: (sets ++ [s]).map LocalSet.size
    rw [List.map_append]
    exact List.prefix_append _ _
  | replaced n s s' hs hsize => exact (hset hs hsize).symm ▸ List.prefix_rfl
  | changed n s b s' hs htells => exact (hset hs htells.1).symm ▸ List.prefix_rfl

end

/-! ### What finite sets refuse -/

/-- A fault that the sets themselves raise: the machine has no part in it. -/
def isOfSets : Fault → Bool
  | .negativeDomain _ | .patternTooWide _ _ | .notAnIndex _ | .localOutOfRange _ _
  | .domainMismatch _ _ | .indexOutOfRange => true
  | _ => false

def Regular {α : Type} (r : Except Fault α) : Prop :=
  ∀ f, r = .error f → isOfSets f = true

section

variable {α β : Type}

theorem regular_ok (a : α) : Regular (.ok a) := nofun

theorem Regular.bind {r : Except Fault α} (hr : Regular r) {g : α → Except Fault β}
    (hg : ∀ a, Regular (g a)) : Regular (r >>= g) := by
  cases r with
  | error e =>
    intro f h
    cases h
    exact hr e rfl
  | ok a => exact hg a

theorem regular_locate (size : Nat) (d : Datum) : Regular (FiniteSet.locate size d) := by
  intro f h
  cases d with
  | int i =>
    rw [FiniteSet.locate] at h
    split at h <;> cases h
    rfl
  | _ => cases h; rfl

theorem regular_insert (s : FiniteSet) (d : Datum) : Regular (s.insert d) :=
  (regular_locate s.size d).bind fun _ => regular_ok _

theorem regular_ofPattern (size pattern : Int) : Regular (FiniteSet.ofPattern size pattern) := by
  intro f h
  rw [FiniteSet.ofPattern] at h
  split at h
  · cases h
    rfl
  · split at h <;> cases h
    rfl

theorem regular_ofList (size : Int) (ds : List Datum) : Regular (FiniteSet.ofList size ds) := by
  refine (regular_ofPattern size 0).bind fun s => ?_
  induction ds generalizing s with
  | nil => exact regular_ok s
  | cons d ds ih =>
    rw [List.foldlM_cons]
    exact ((regular_insert s d).bind fun _ => regular_ok _).bind ih

theorem regular_combine (s t : FiniteSet) (members : Finset Nat)
    (h : t.size = s.size → ∀ i ∈ members, i < s.size) : Regular (s.combine t members h) := by
  intro f hf
  rw [FiniteSet.combine] at hf
  split at hf <;> cases hf
  rfl

theorem regular_isSubset (s t : FiniteSet) : Regular (s.isSubset t) := by
  intro f hf
  rw [FiniteSet.isSubset] at hf
  split at hf <;> cases hf
  rfl

end

def Careful {α : Type} (x : EStateM Fault (List FiniteSet) α) : Prop :=
  ∀ sets f sets', x sets = .error f sets' → isOfSets f = true

section

variable {α : Type} {g : α → EStateM Fault (List FiniteSet) Answer}

theorem careful_ofExcept {r : Except Fault α} (hr : Regular r) (hg : ∀ a, Careful (g a)) :
    Careful (ofExcept r >>= g) := by
  intro sets f sets' h
  cases r with
  | error e =>
    cases h
    exact hr _ rfl
  | ok a => exact hg a sets f sets' h

theorem careful_modify (change : List FiniteSet → List FiniteSet) (a : Answer) :
    Careful (modify change >>= fun _ => pure a) := by
  intro sets f sets' h
  cases h

theorem careful_fetch {g : FiniteSet → EStateM Fault (List FiniteSet) Answer} (n : Nat)
    (hg : ∀ s, Careful (g s)) : Careful (fetch n >>= g) := by
  intro sets f sets' h
  cases hs : sets[n]? with
  | none =>
    rw [estate_bind_of_error (fetch_of_none hs)] at h
    cases h
    rfl
  | some s =>
    rw [estate_bind_of_ok (fetch_of_some hs)] at h
    exact hg s sets f sets' h

theorem careful_make {r : Except Fault FiniteSet} (hr : Regular r) : Careful (make r) :=
  careful_ofExcept hr fun _ => careful_modify _ _

theorem careful_replace {r : Except Fault FiniteSet} (n : Nat) (hr : Regular r) :
    Careful (replace n r) :=
  careful_ofExcept hr fun _ => careful_modify _ _

theorem careful_change {r : Except Fault (Bool × FiniteSet)} (n : Nat) (hr : Regular r) :
    Careful (change n r) :=
  careful_ofExcept hr fun _ => careful_modify _ _

theorem careful_pure (a : Answer) : Careful (pure a) := by
  intro sets f sets' h
  cases h

theorem careful_ask {r : Except Fault Bool} (hr : Regular r) : Careful (ask r) :=
  careful_ofExcept hr fun _ => careful_pure _

/-- No operation on finite sets is stopped by the machine. -/
theorem careful_perform (op : Operation) : Careful op.perform := by
  cases op with
  | new size pattern => exact careful_make (regular_ofPattern size pattern)
  | ofLocals size members => exact careful_make (regular_ofList size members)
  | copy n => exact careful_fetch n fun s => careful_make (regular_ok s)
  | insert n d => exact careful_fetch n fun s => careful_change n (regular_insert s d)
  | remove n d =>
    exact careful_fetch n fun s =>
      careful_change n ((regular_locate s.size d).bind fun _ => regular_ok _)
  | clear n => exact careful_fetch n fun s => careful_replace n (regular_ok s.clear)
  | overwrite n m =>
    exact careful_fetch n fun s => careful_fetch m fun t =>
      careful_replace n (regular_combine s t _ _)
  | unionWith n m =>
    exact careful_fetch n fun s => careful_fetch m fun t =>
      careful_change n ((regular_combine s t _ _).bind fun _ => regular_ok _)
  | join n m =>
    exact careful_fetch n fun s => careful_fetch m fun t => careful_make (regular_combine s t _ _)
  | difference n m =>
    exact careful_fetch n fun s => careful_fetch m fun t => careful_make (regular_combine s t _ _)
  | contains n d =>
    exact careful_fetch n fun s =>
      careful_ask ((regular_locate s.size d).bind fun _ => regular_ok _)
  | holds n d => exact careful_fetch n fun s => careful_pure _
  | isEmpty n => exact careful_fetch n fun s => careful_pure _
  | count n => exact careful_fetch n fun s => careful_pure _
  | isSubset n m =>
    exact careful_fetch n fun s => careful_fetch m fun t => careful_ask (regular_isSubset s t)
  | same n m => exact careful_fetch n fun s => careful_fetch m fun t => careful_pure _

end

/-! ### Sequences of operations -/

def isRefusal : Except Fault Answer → Bool
  | .error .tooManyDigits | .error .outOfMemory => true
  | _ => false

/-- The operations that the machine has not stopped, with their answers. -/
def kept (ops : List Operation) (answers : List (Except Fault Answer)) :
    List (Operation × Except Fault Answer) :=
  (ops.zip answers).filter fun said => !isRefusal said.2

def marked : Operation → List Datum
  | ofLocals _ members => members
  | insert _ d | remove _ d => [d]
  | _ => []

theorem isRefusal_refusal (i : Nat) : isRefusal (.error (LocalSet.refusal i)) = true := by
  unfold LocalSet.refusal
  split <;> rfl

theorem isRefusal_of_isOfSets {f : Fault} (h : isOfSets f = true) :
    isRefusal (.error f) = false := by
  cases f <;> first | rfl | cases h

theorem isRefusal_attempt_finite (op : Operation) (sets : List FiniteSet) :
    isRefusal (op.attempt sets).1 = false := by
  unfold attempt
  cases h : op.perform sets with
  | ok a sets' => rfl
  | error f sets' => exact isRefusal_of_isOfSets (careful_perform op sets f sets' h)

/-- How a failure of an operation is told. The last of the names is for a set that is not there. -/
def failureNames : List String :=
  ["LocalIndexError", "TypeError", "DomainMismatchError", "ValueError", "OverflowError",
    "MemoryError", "IndexError"]

theorem name_mem_of_isOfSets {f : Fault} (h : isOfSets f = true) : f.name ∈ failureNames := by
  cases f with
  | negativeDomain size => exact (by decide : "ValueError" ∈ failureNames)
  | patternTooWide pattern size => exact (by decide : "ValueError" ∈ failureNames)
  | notAnIndex given => exact (by decide : "TypeError" ∈ failureNames)
  | localOutOfRange index size => exact (by decide : "LocalIndexError" ∈ failureNames)
  | domainMismatch left right => exact (by decide : "DomainMismatchError" ∈ failureNames)
  | indexOutOfRange => exact (by decide : "IndexError" ∈ failureNames)
  | _ => cases h

section

variable [Machine] {op : Operation} {sets : List LocalSet}

theorem mem_marked_of_obstacle {sizes : List Nat} {i : Nat} (h : op.obstacle? sizes = some i) :
    .int i ∈ op.marked ∧ Machine.sets i = false := by
  have hlocate {size : Nat} {ds : List Datum} (h : FiniteSet.obstacle? size ds = some i) :
      .int i ∈ ds ∧ Machine.sets i = false := FiniteSet.mem_of_obstacle h
  cases op with
  | ofLocals size members => exact hlocate h
  | insert n d =>
    obtain ⟨size, _, h⟩ := Option.bind_eq_some_iff.1 h
    exact hlocate h
  | remove n d =>
    obtain ⟨size, _, h⟩ := Option.bind_eq_some_iff.1 h
    exact hlocate h
  | _ => cases h

theorem attempt_of_obstacle {i : Nat} (h : op.obstacle? (sets.map LocalSet.size) = some i) :
    op.attempt sets = (.error (LocalSet.refusal i), sets) := by
  rw [attempt, perform_of_obstacle h]

theorem attempt_finite (h : op.obstacle? (sets.map LocalSet.size) = none) :
    op.attempt (sets.map LocalSet.finite) =
      ((op.attempt sets).1, (op.attempt sets).2.map LocalSet.finite) := by
  unfold attempt
  rw [mirrors_perform h]
  cases op.perform sets <;> rfl

/-- The machine stops an operation exactly where it meets an obstacle. -/
theorem isRefusal_attempt (op : Operation) (sets : List LocalSet) :
    isRefusal (op.attempt sets).1 = (op.obstacle? (sets.map LocalSet.size)).isSome := by
  cases h : op.obstacle? (sets.map LocalSet.size) with
  | some i => rw [attempt_of_obstacle h, isRefusal_refusal, Option.isSome_some]
  | none =>
    have hfinite := isRefusal_attempt_finite op (sets.map LocalSet.finite)
    rwa [attempt_finite h] at hfinite

theorem length_performAll (ops : List Operation) (sets : List LocalSet) :
    (performAll ops sets).1.length = ops.length := by
  induction ops generalizing sets with
  | nil => rfl
  | cons op ops ih => exact congrArg (· + 1) (ih _)

/-- What the machine has not stopped goes as on finite sets. -/
theorem performAll_kept (ops : List Operation) (sets : List LocalSet) :
    performAll ((kept ops (performAll ops sets).1).map Prod.fst) (sets.map LocalSet.finite) =
      ((kept ops (performAll ops sets).1).map Prod.snd,
        (performAll ops sets).2.map LocalSet.finite) := by
  induction ops generalizing sets with
  | nil => rfl
  | cons op ops ih =>
    have hrest := ih (op.attempt sets).2
    have hrefusal := isRefusal_attempt op sets
    simp only [performAll, kept, List.zip_cons_cons, List.filter_cons, hrefusal]
    cases h : op.obstacle? (sets.map LocalSet.size) with
    | some i =>
      rw [attempt_of_obstacle h] at hrest ⊢
      exact hrest
    | none =>
      simp only [Option.isSome_none, Bool.not_false, if_true, List.map_cons, performAll,
        attempt_finite h]
      exact congrArg (fun p => ((op.attempt sets).1 :: p.1, p.2)) hrest

/-- If the machine sets all that is to be set, it stops nothing. -/
theorem kept_eq_zip {ops : List Operation}
    (h : ∀ op ∈ ops, ∀ i : Nat, .int i ∈ op.marked → Machine.sets i = true)
    (sets : List LocalSet) :
    kept ops (performAll ops sets).1 = ops.zip (performAll ops sets).1 := by
  induction ops generalizing sets with
  | nil => rfl
  | cons op ops ih =>
    have hrefusal : isRefusal (op.attempt sets).1 = false := by
      rw [isRefusal_attempt, Option.isSome_eq_false_iff, Option.isNone_iff_eq_none]
      by_contra hne
      obtain ⟨i, hi⟩ := Option.ne_none_iff_exists'.1 hne
      obtain ⟨hmarked, hsets⟩ := mem_marked_of_obstacle hi
      rw [h op List.mem_cons_self i hmarked] at hsets
      cases hsets
    have hrest := ih (fun op hop => h op (List.mem_cons_of_mem _ hop)) (op.attempt sets).2
    simp only [kept] at hrest
    simp only [performAll, kept, List.zip_cons_cons, List.filter_cons, hrefusal, Bool.not_false,
      if_true, hrest]

theorem performAll_append (ops more : List Operation) (sets : List LocalSet) :
    (performAll (ops ++ more) sets).2 = (performAll more (performAll ops sets).2).2 := by
  induction ops generalizing sets with
  | nil => rfl
  | cons op ops ih => exact ih _

theorem sizes_performAll (ops : List Operation) (sets : List LocalSet) :
    sets.map LocalSet.size <+: (performAll ops sets).2.map LocalSet.size := by
  induction ops generalizing sets with
  | nil => exact List.prefix_rfl
  | cons op ops ih => exact (sizes_attempt op sets).trans (ih _)

theorem errorName_mem_of_perform {f : Fault} {sets' : List LocalSet}
    (h : op.perform sets = .error f sets') : f.errorName ∈ failureNames := by
  have hfault : isOfSets f = true ∨ f = .tooManyDigits ∨ f = .outOfMemory := by
    cases ho : op.obstacle? (sets.map LocalSet.size) with
    | some i =>
      cases (perform_of_obstacle ho).symm.trans h
      unfold LocalSet.refusal
      split <;> simp
    | none =>
      have hfinite := mirrors_perform ho
      rw [Mirrors, h] at hfinite
      exact .inl (careful_perform op _ _ _ hfinite)
  have hlong (most : Nat) : (Fault.numeralTooLong most).name ∈ failureNames := by
    change "ValueError" ∈ failureNames
    decide
  rw [Fault.errorName]
  cases hw : f.numerals.all Machine.writes with
  | false =>
    rw [Fault.told_of_not_writes hw]
    exact hlong _
  | true =>
    rw [Fault.told_of_writes hw]
    rcases hfault with hf | rfl | rfl
    · exact name_mem_of_isOfSets hf
    · decide
    · decide

end

/-- Sets of locals refine finite sets. A sequence of operations answers and fails as those of them
that the machine does not stop do on finite sets, and leaves the sets that they leave there. It
stops an operation exactly where a local in the range of a set is to be set or cleared whose bit it
does not set, so that nothing is stopped if it sets all the locals that are named. Every pattern
fits its domain and is the sum of the weights of the members, and the size of a set never changes.
An operation that says whether it has changed a set says so rightly, one that fails changes none,
and a set can be made of exactly the patterns that fit the domain. -/
theorem performAll_refines_finite_sets [Machine] (ops more : List Operation) :
    let answers := (performAll ops ([] : List LocalSet)).1
    let sets := (performAll ops ([] : List LocalSet)).2
    performAll ((kept ops answers).map Prod.fst) ([] : List FiniteSet) =
      ((kept ops answers).map Prod.snd, sets.map LocalSet.finite) ∧
    ((∀ op ∈ ops, ∀ i : Nat, .int i ∈ op.marked → Machine.sets i = true) →
      performAll ops ([] : List FiniteSet) = (answers, sets.map LocalSet.finite)) ∧
    (∀ op : Operation, (isRefusal (op.attempt sets).1 = true ↔
        ∃ i, op.obstacle? (sets.map LocalSet.size) = some i) ∧
      ∀ i, op.obstacle? (sets.map LocalSet.size) = some i → Machine.sets i = false ∧
        op.attempt sets = (.error (LocalSet.refusal i), sets)) ∧
    (∀ s ∈ sets, s.bits.toNat < 2 ^ s.size ∧ s.bits.toNat = ∑ i ∈ s.finite.members, 2 ^ i) ∧
    sets.map LocalSet.size <+: (performAll (ops ++ more) []).2.map LocalSet.size ∧
    (∀ (op : Operation) b sets',
      op.perform sets = .ok (.changed b) sets' → (b = true ↔ sets' ≠ sets)) ∧
    (∀ (op : Operation) f sets', op.perform sets = .error f sets' →
      sets' = sets ∧ f.errorName ∈ failureNames) ∧
    ∀ size pattern,
      ((∃ s, LocalSet.ofPattern size pattern = .ok s) ↔
        0 ≤ size ∧ 0 ≤ pattern ∧ pattern < 2 ^ size.toNat) ∧
      ∀ s, LocalSet.ofPattern size pattern = .ok s → s.size = size ∧ s.bits.toNat = pattern := by
  have hkept := performAll_kept ops []
  refine ⟨hkept, fun hsets => ?_, fun op => ⟨?_, fun i hi => ?_⟩,
    fun s _ => ⟨s.bits.isLt, s.toNat_bits⟩, ?_, fun op b sets' => changed_iff_of_perform,
    fun op f sets' h => ⟨eq_of_perform_error h, errorName_mem_of_perform h⟩,
    fun size pattern => ⟨LocalSet.exists_ofPattern_iff, fun s => LocalSet.ofPattern_eq_ok⟩⟩
  · have hlength := length_performAll ops []
    rwa [kept_eq_zip hsets, List.map_fst_zip hlength.ge, List.map_snd_zip hlength.le] at hkept
  · rw [isRefusal_attempt, Option.isSome_iff_exists]
  · exact ⟨(mem_marked_of_obstacle hi).2, attempt_of_obstacle hi⟩
  · rw [performAll_append]
    exact sizes_performAll more _

/-- A local of the domain whose bit the machine does not set is not inserted, and the set stays
empty. -/
theorem performAll_of_not_sets [Machine] {n i : Nat} (hi : i < n) (h : Machine.sets i = false) :
    performAll [.new n 0, .insert 0 (.int i), .contains 0 (.int i)] ([] : List LocalSet) =
      ([.ok .done, .error (LocalSet.refusal i), .ok (.truth false)], [LocalSet.empty n]) := by
  have hnew : perform (.new n 0) [] = .ok .done [LocalSet.empty n] := by
    change make (LocalSet.bottom n) [] = _
    rw [LocalSet.bottom_natCast]
    rfl
  have hinsert : perform (.insert 0 (.int i)) [LocalSet.empty n] =
      .error (LocalSet.refusal i) [LocalSet.empty n] := by
    change change 0 ((LocalSet.empty n).insert (.int i)) _ = _
    rw [LocalSet.insert_of_not_sets hi h]
    rfl
  have hcontains : perform (.contains 0 (.int i)) [LocalSet.empty n] =
      .ok (.truth false) [LocalSet.empty n] := by
    have hout : (LocalSet.empty n).contains (.int i) = .ok false :=
      LocalSet.contains_eq_ok_iff.2 ⟨⟨i, hi⟩, rfl, (LocalSet.has_empty n i).symm⟩
    change ask ((LocalSet.empty n).contains (.int i)) _ = _
    rw [hout]
    rfl
  simp only [performAll, attempt, hnew, hinsert, hcontains]

/-- In mathematics every local of the domain can be inserted. -/
theorem performAll_finite_of_lt {n i : Nat} (hi : i < n) :
    (performAll [.new n 0, .insert 0 (.int i), .contains 0 (.int i)] ([] : List FiniteSet)).1 =
      [.ok .done, .ok (.changed true), .ok (.truth true)] := by
  have hlocate : FiniteSet.locate n (.int i) = .ok ⟨i, hi⟩ := dif_pos ⟨by omega, by omega⟩
  have hbottom : FiniteSet.ofPattern n 0 = .ok (LocalSet.empty n).finite := by
    rw [← LocalSet.map_finite_ofPattern]
    change (LocalSet.bottom n).map _ = _
    rw [LocalSet.bottom_natCast]
    rfl
  have hnew : perform (.new n 0) [] = .ok .done [(LocalSet.empty n).finite] := by
    change make (FiniteSet.ofPattern n 0) [] = _
    rw [hbottom]
    rfl
  have hinsert : perform (.insert 0 (.int i)) [(LocalSet.empty n).finite] =
      .ok (.changed true) [((LocalSet.empty n).add ⟨i, hi⟩).finite] := by
    have hadd : (LocalSet.empty n).finite.insert (.int i) =
        .ok (true, ((LocalSet.empty n).add ⟨i, hi⟩).finite) := by
      rw [FiniteSet.insert, show FiniteSet.locate (LocalSet.empty n).finite.size (.int i) = _
        from hlocate]
      refine congrArg Except.ok (Prod.ext (by simp)
        (FiniteSet.ext rfl (LocalSet.members_finite_add _ _).symm))
    change change 0 ((LocalSet.empty n).finite.insert (.int i)) _ = _
    rw [hadd]
    rfl
  have hcontains : perform (.contains 0 (.int i)) [((LocalSet.empty n).add ⟨i, hi⟩).finite] =
      .ok (.truth true) [((LocalSet.empty n).add ⟨i, hi⟩).finite] := by
    have hin : ((LocalSet.empty n).add ⟨i, hi⟩).contains (.int i) = .ok true :=
      LocalSet.contains_eq_ok_iff.2 ⟨⟨i, hi⟩, rfl, by simp [LocalSet.has_add]⟩
    change ask (((LocalSet.empty n).add ⟨i, hi⟩).finite.contains (.int i)) _ = _
    rw [← LocalSet.contains_finite, hin]
    rfl
  simp only [performAll, attempt, hnew, hinsert, hcontains]

/-- A set over `2 ^ 71` locals does not take the local `2 ^ 70` on any machine, where a finite set
does. -/
theorem insert_two_pow_seventy_fails :
    (performAll [.new 2361183241434822606848 0, .insert 0 (.int 1180591620717411303424),
        .contains 0 (.int 1180591620717411303424)] ([] : List FiniteSet)).1 =
      [.ok .done, .ok (.changed true), .ok (.truth true)] ∧
    ∀ [Machine], performAll [.new 2361183241434822606848 0,
        .insert 0 (.int 1180591620717411303424), .contains 0 (.int 1180591620717411303424)]
        ([] : List LocalSet) =
      ([.ok .done, .error .tooManyDigits, .ok (.truth false)],
        [LocalSet.empty 2361183241434822606848]) := by
  refine ⟨performAll_finite_of_lt (n := 2361183241434822606848) (i := 1180591620717411303424)
    (by decide), ?_⟩
  intro _
  exact performAll_of_not_sets (n := 2361183241434822606848) (i := 1180591620717411303424)
    (by decide) (Machine.sets_of_not_addresses (by decide))

end Operation

end MayTaint
