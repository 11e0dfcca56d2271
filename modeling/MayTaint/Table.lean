import MayTaint.Program.Location

/-!
Tables from blocks to values, kept in increasing order of the blocks, so that two tables with the
same contents are equal.
-/

namespace MayTaint

structure Table (α : Type) where
  entries : List (BlockId × α) := []
  deriving DecidableEq

namespace Table

variable {α : Type}

def empty : Table α := ⟨[]⟩

def get? (t : Table α) (bb : BlockId) : Option α :=
  t.entries.lookup bb

def contains (t : Table α) (bb : BlockId) : Bool :=
  (t.get? bb).isSome

def blocks (t : Table α) : List BlockId :=
  t.entries.map (·.1)

def size (t : Table α) : Nat :=
  t.entries.length

/-- Sets the value of a block in entries that are in increasing order. -/
def putEntry (bb : BlockId) (a : α) : List (BlockId × α) → List (BlockId × α)
  | [] => [(bb, a)]
  | (bb', a') :: rest =>
    if bb < bb' then (bb, a) :: (bb', a') :: rest
    else if bb = bb' then (bb, a) :: rest
    else (bb', a') :: putEntry bb a rest

def insert (t : Table α) (bb : BlockId) (a : α) : Table α :=
  ⟨putEntry bb a t.entries⟩

def ofList (entries : List (BlockId × α)) : Table α :=
  entries.foldl (fun t (bb, a) => t.insert bb a) empty

@[simp] theorem get?_empty (bb : BlockId) : (empty : Table α).get? bb = none := rfl

theorem lookup_putEntry (bb b : BlockId) (a : α) (entries : List (BlockId × α)) :
    (putEntry bb a entries).lookup b = if b = bb then some a else entries.lookup b := by
  induction entries with
  | nil =>
    rw [putEntry, List.lookup_cons]
    by_cases h : b = bb
    · rw [if_pos h, beq_iff_eq.2 h]
    · rw [if_neg h, beq_eq_false_iff_ne.2 h]
  | cons e rest ih => grind [putEntry]

theorem get?_insert (t : Table α) (bb b : BlockId) (a : α) :
    (t.insert bb a).get? b = if b = bb then some a else t.get? b :=
  lookup_putEntry bb b a t.entries

theorem mem_blocks {t : Table α} {bb : BlockId} : bb ∈ t.blocks ↔ (t.get? bb).isSome = true := by
  rw [blocks, get?, List.lookup_isSome_iff, List.mem_map]
  constructor
  · rintro ⟨e, he, rfl⟩
    exact ⟨e, he, beq_self_eq_true e.1⟩
  · rintro ⟨e, he, hbb⟩
    exact ⟨e, he, (beq_iff_eq.1 hbb).symm⟩

def Ordered (t : Table α) : Prop :=
  t.blocks.Pairwise (· < ·)

theorem ordered_empty : (empty : Table α).Ordered :=
  List.Pairwise.nil

theorem pairwise_putEntry (bb : BlockId) (a : α) {entries : List (BlockId × α)}
    (h : (entries.map (·.1)).Pairwise (· < ·)) :
    ((putEntry bb a entries).map (·.1)).Pairwise (· < ·) := by
  induction entries with
  | nil => exact List.pairwise_singleton ..
  | cons e rest ih =>
    obtain ⟨hfirst, hrest⟩ := List.pairwise_cons.1 h
    rw [putEntry]
    split
    · next hlt =>
      refine List.pairwise_cons.2 ⟨fun b hb => ?_, h⟩
      rcases List.mem_cons.1 hb with rfl | hb
      · exact hlt
      · exact Int.lt_trans hlt (hfirst b hb)
    · next hle =>
      split
      · next heq =>
        subst heq
        exact h
      · next hne =>
        refine List.pairwise_cons.2 ⟨fun b hb => ?_, ih hrest⟩
        have hb : ((putEntry bb a rest).lookup b).isSome = true :=
          mem_blocks (t := ⟨putEntry bb a rest⟩).1 hb
        rw [lookup_putEntry] at hb
        split at hb
        · next hbb =>
          subst hbb
          exact Int.lt_iff_le_and_ne.2 ⟨Int.not_lt.1 hle, fun h => hne h.symm⟩
        · exact hfirst b (mem_blocks (t := ⟨rest⟩).2 hb)

theorem Ordered.insert {t : Table α} (h : t.Ordered) (bb : BlockId) (a : α) :
    (t.insert bb a).Ordered :=
  pairwise_putEntry bb a h

end Table

end MayTaint
