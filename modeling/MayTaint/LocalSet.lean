import MayTaint.Fault

/-!
Sets of locals, the abstract domain. A set is a bit pattern over a domain of fixed size; being a
member means that the local may be tainted. Operations on data refuse whatever is no local of the
domain, and operations on two sets refuse sets over different domains.
-/

namespace MayTaint

/-- A set of locals below `size`: local `i` is a member when bit `i` is set. -/
structure LocalSet where
  size : Nat
  bits : BitVec size
  deriving DecidableEq

namespace LocalSet

def empty (size : Nat) : LocalSet :=
  ⟨size, BitVec.zero size⟩

def ofPattern (size pattern : Int) : Except Fault LocalSet :=
  if size < 0 then .error (.negativeDomain size)
  else if pattern = 0 then .ok (empty size.toNat)
  else if h : 0 < pattern ∧ pattern.toNat.log2 < size.toNat then
    .ok ⟨size.toNat, BitVec.ofNatLT pattern.toNat ((Nat.log2_lt (by omega)).1 h.2)⟩
  else .error (.patternTooWide pattern size)

def bottom (size : Int) : Except Fault LocalSet :=
  ofPattern size 0

/-- Membership of a number; numbers outside the domain are never members. -/
def has (s : LocalSet) (i : Nat) : Bool :=
  s.bits.getLsbD i

def index (s : LocalSet) : Datum → Except Fault (Fin s.size)
  | .int n =>
    if h : 0 ≤ n ∧ n < s.size then .ok ⟨n.toNat, by omega⟩
    else .error (.localOutOfRange n s.size)
  | d => .error (.notAnIndex d)

def refusal (i : Nat) : Fault :=
  if Machine.addresses i then .outOfMemory else .tooManyDigits

/-- The local that a datum names, if the machine can set its bit. Sets can only be changed there. -/
def place [Machine] (s : LocalSet) (d : Datum) : Except Fault (Fin s.size) := do
  let i ← s.index d
  if Machine.sets i then return i else throw (refusal i)

def bitOf {size : Nat} (i : Fin size) : BitVec size :=
  BitVec.ofNatLT (1 <<< i.val) (by
    rw [Nat.one_shiftLeft]
    exact Nat.pow_lt_pow_right (by decide) i.isLt)

def add (s : LocalSet) (i : Fin s.size) : LocalSet :=
  ⟨s.size, s.bits ||| bitOf i⟩

def erase (s : LocalSet) (i : Fin s.size) : LocalSet :=
  ⟨s.size, s.bits ^^^ (s.bits &&& bitOf i)⟩

def contains (s : LocalSet) (d : Datum) : Except Fault Bool := do
  let i ← s.index d
  return s.has i

def holds (s : LocalSet) (d : Datum) : Bool :=
  match s.contains d with
  | .ok b => b
  | .error _ => false

/-- Adds a local, and tells whether it was new. -/
def insert [Machine] (s : LocalSet) (d : Datum) : Except Fault (Bool × LocalSet) := do
  let i ← s.place d
  return (!s.has i, s.add i)

def remove [Machine] (s : LocalSet) (d : Datum) : Except Fault (Bool × LocalSet) := do
  let i ← s.place d
  return (s.has i, s.erase i)

def ofList [Machine] (size : Int) (members : List Datum) : Except Fault LocalSet := do
  members.foldlM (fun s d => do return (← s.insert d).2) (← bottom size)

def clear (s : LocalSet) : LocalSet :=
  empty s.size

def isEmpty (s : LocalSet) : Bool :=
  s.bits.toNat == 0

/-- The numbers of the bits of a pattern in increasing order, counted from `offset`. The pattern is
halved `depth` times, and a half without bits is passed over. -/
def bitNumbers : (depth offset pattern : Nat) → List Nat
  | 0, offset, pattern => if pattern = 0 then [] else [offset]
  | depth + 1, offset, pattern =>
    if pattern = 0 then []
    else
      let half := 1 <<< depth
      bitNumbers depth offset (pattern % 1 <<< half)
        ++ bitNumbers depth (offset + half) (pattern >>> half)

def toList (s : LocalSet) : List Nat :=
  bitNumbers (s.bits.toNat.log2.log2 + 1) 0 s.bits.toNat

/-- The number of members: how many ones the binary numeral of the pattern has. -/
def count (s : LocalSet) : Nat :=
  (Nat.toDigits 2 s.bits.toNat).count '1'

def combine (f : (n : Nat) → BitVec n → BitVec n → BitVec n) (s t : LocalSet) :
    Except Fault LocalSet :=
  if h : t.size = s.size then .ok ⟨s.size, f s.size s.bits (t.bits.cast h)⟩
  else .error (.domainMismatch s.size t.size)

/-- The union, which is the join of the lattice. -/
def join : LocalSet → LocalSet → Except Fault LocalSet :=
  combine fun _ x y => x ||| y

def difference : LocalSet → LocalSet → Except Fault LocalSet :=
  combine fun _ x y => x ^^^ (x &&& y)

def overwrite : LocalSet → LocalSet → Except Fault LocalSet :=
  combine fun _ _ y => y

/-- The union, and whether it is larger than the first set. -/
def unionWith (s t : LocalSet) : Except Fault (Bool × LocalSet) := do
  let u ← s.join t
  return (u != s, u)

/-- Whether every member of the first set is one of the second: the order of the lattice. -/
def isSubset (s t : LocalSet) : Except Fault Bool := do
  let d ← s.difference t
  return d.isEmpty

def text (s : LocalSet) : String :=
  "\x7b" ++ String.intercalate ", " (s.toList.map fun i => "_" ++ toString i) ++ "\x7d"

@[simp] theorem has_empty (size i : Nat) : (empty size).has i = false :=
  BitVec.getLsbD_zero

theorem lt_size_of_has {s : LocalSet} {i : Nat} (h : s.has i = true) : i < s.size :=
  BitVec.lt_of_getLsbD h

theorem getLsbD_bitOf {size : Nat} (i : Fin size) (j : Nat) :
    (bitOf i).getLsbD j = decide (j = i.val) := by
  rw [bitOf, BitVec.getLsbD_ofNatLT, Nat.one_shiftLeft, Nat.testBit_two_pow]
  exact decide_eq_decide.2 eq_comm

theorem has_add (s : LocalSet) (i : Fin s.size) (j : Nat) :
    (s.add i).has j = (s.has j || decide (j = i.val)) := by
  rw [has, add, BitVec.getLsbD_or, getLsbD_bitOf, has]

theorem has_erase (s : LocalSet) (i : Fin s.size) (j : Nat) :
    (s.erase i).has j = (s.has j && !decide (j = i.val)) := by
  rw [has, erase, BitVec.getLsbD_xor, BitVec.getLsbD_and, getLsbD_bitOf, has]
  cases s.bits.getLsbD j <;> cases decide (j = i.val) <;> rfl

theorem has_join {s t u : LocalSet} (h : s.join t = .ok u) (i : Nat) :
    u.has i = (s.has i || t.has i) := by
  unfold join combine at h
  split at h
  · cases h
    rw [has, BitVec.getLsbD_or, BitVec.getLsbD_cast, has, has]
  · cases h

theorem has_difference {s t u : LocalSet} (h : s.difference t = .ok u) (i : Nat) :
    u.has i = (s.has i && !t.has i) := by
  unfold difference combine at h
  split at h
  · cases h
    rw [has, BitVec.getLsbD_xor, BitVec.getLsbD_and, BitVec.getLsbD_cast, has, has]
    cases s.bits.getLsbD i <;> cases t.bits.getLsbD i <;> rfl
  · cases h

/-- Sets over one domain with the same members are equal. -/
theorem eq_of_has {s t : LocalSet} (hsize : s.size = t.size) (h : ∀ i, s.has i = t.has i) :
    s = t := by
  obtain ⟨n, b⟩ := s
  obtain ⟨m, c⟩ := t
  cases hsize
  exact congrArg _ (BitVec.eq_of_getLsbD_eq fun i _ => h i)

theorem mem_bitNumbers {depth offset pattern i : Nat} (h : pattern < 1 <<< (1 <<< depth)) :
    i ∈ bitNumbers depth offset pattern ↔ offset ≤ i ∧ pattern.testBit (i - offset) = true := by
  induction depth generalizing offset pattern with
  | zero =>
    have hlt : pattern < 2 := h
    unfold bitNumbers
    split
    · next h0 => simp [h0]
    · next h0 =>
      have h1 : pattern = 1 := by omega
      subst h1
      rw [List.mem_singleton, Nat.testBit_one_eq_true_iff_self_eq_zero]
      omega
  | succ depth ih =>
    unfold bitNumbers
    split
    · next h0 => simp [h0]
    · have hlow : pattern % 1 <<< (1 <<< depth) < 1 <<< (1 <<< depth) :=
        Nat.mod_lt _ (by rw [Nat.one_shiftLeft]; exact Nat.two_pow_pos _)
      have hhigh : pattern >>> (1 <<< depth) < 1 <<< (1 <<< depth) := by
        rw [Nat.shiftLeft_succ, Nat.two_mul, Nat.shiftLeft_add, Nat.shiftLeft_eq _ (1 <<< depth),
          Nat.mul_comm] at h
        rw [Nat.shiftRight_eq_div_pow]
        exact Nat.div_lt_of_lt_mul h
      rw [List.mem_append, ih hlow, ih hhigh, Nat.one_shiftLeft (1 <<< depth),
        Nat.testBit_mod_two_pow, Nat.testBit_shiftRight]
      clear ih h hlow hhigh
      generalize 1 <<< depth = half
      by_cases hi : i < offset + half
      · by_cases ho : offset ≤ i
        · have hin : i - offset < half := by omega
          have hno : ¬offset + half ≤ i := by omega
          simp [ho, hin, hno]
        · have hno : ¬offset + half ≤ i := by omega
          simp [ho, hno]
      · have hsum : half + (i - (offset + half)) = i - offset := by omega
        have hout : ¬i - offset < half := by omega
        have ho : offset ≤ i := by omega
        have hle : offset + half ≤ i := by omega
        rw [hsum]
        simp [ho, hle, hout]

theorem le_of_mem_bitNumbers {depth offset pattern i : Nat}
    (h : i ∈ bitNumbers depth offset pattern) : offset ≤ i ∧ i < offset + 1 <<< depth := by
  induction depth generalizing offset pattern with
  | zero =>
    unfold bitNumbers at h
    split at h
    · cases h
    · have hi : i = offset := List.mem_singleton.1 h
      have hone : 1 <<< 0 = 1 := rfl
      omega
  | succ depth ih =>
    unfold bitNumbers at h
    split at h
    · cases h
    · have hdouble : 1 <<< (depth + 1) = 2 * 1 <<< depth := Nat.shiftLeft_succ 1 depth
      rcases List.mem_append.1 h with h | h
      · have := ih h
        omega
      · have := ih h
        omega

theorem pairwise_bitNumbers (depth offset pattern : Nat) :
    (bitNumbers depth offset pattern).Pairwise (· < ·) := by
  induction depth generalizing offset pattern with
  | zero =>
    unfold bitNumbers
    split
    · exact List.Pairwise.nil
    · exact List.pairwise_singleton _ _
  | succ depth ih =>
    unfold bitNumbers
    split
    · exact List.Pairwise.nil
    · refine List.pairwise_append.2 ⟨ih _ _, ih _ _, fun i hi j hj => ?_⟩
      have := le_of_mem_bitNumbers hi
      have := le_of_mem_bitNumbers hj
      omega

theorem mem_toList {s : LocalSet} {i : Nat} : i ∈ s.toList ↔ s.has i = true := by
  have hpattern : s.bits.toNat < 1 <<< (1 <<< (s.bits.toNat.log2.log2 + 1)) := by
    rw [Nat.one_shiftLeft, Nat.one_shiftLeft]
    exact Nat.lt_of_lt_of_le Nat.lt_log2_self
      (Nat.pow_le_pow_right (by decide) Nat.lt_log2_self)
  rw [toList, mem_bitNumbers hpattern]
  exact ⟨And.right, fun h => ⟨Nat.zero_le i, h⟩⟩

theorem pairwise_toList (s : LocalSet) : s.toList.Pairwise (· < ·) :=
  pairwise_bitNumbers _ _ _

end LocalSet

end MayTaint
