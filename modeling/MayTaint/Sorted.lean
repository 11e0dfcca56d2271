/-!
Sorted lists, grown by insertion. An element goes behind those that it does not come before, so
equal elements keep the order in which they were inserted.
-/

namespace MayTaint.Sorted

variable {α : Type}

def insert (before : α → α → Bool) (a : α) : List α → List α
  | [] => [a]
  | b :: rest => if before a b then a :: b :: rest else b :: insert before a rest

def sort (before : α → α → Bool) (as : List α) : List α :=
  as.foldl (fun sorted a => insert before a sorted) []

/-- The texts in increasing order, each once. -/
def names (ns : List String) : List String :=
  sort (fun n m => decide (n < m)) ns.eraseDups

theorem mem_insert {before : α → α → Bool} {a b : α} {bs : List α} :
    b ∈ insert before a bs ↔ b = a ∨ b ∈ bs := by
  induction bs with
  | nil => exact List.mem_cons
  | cons c rest ih => grind [insert]

theorem perm_insert (before : α → α → Bool) (a : α) (bs : List α) :
    (insert before a bs).Perm (a :: bs) := by
  induction bs with
  | nil => exact List.Perm.refl _
  | cons b rest ih =>
    rw [insert]
    split
    · exact List.Perm.refl _
    · exact (ih.cons b).trans (List.Perm.swap a b rest)

/-- A list stays in order if the new element comes before those that it is put in front of and after
the others. -/
theorem pairwise_insert {before : α → α → Bool} {R : α → α → Prop}
    (htrans : ∀ {a b c}, R a b → R b c → R a c) {a : α} {bs : List α} (hbs : bs.Pairwise R)
    (ha : ∀ b ∈ bs, (before a b = true → R a b) ∧ (before a b = false → R b a)) :
    (insert before a bs).Pairwise R := by
  induction bs with
  | nil => simp [insert]
  | cons b rest ih =>
    obtain ⟨hb, hrest⟩ := List.pairwise_cons.1 hbs
    obtain ⟨hlt, hgt⟩ := ha b List.mem_cons_self
    rw [insert]
    split
    · next hbefore =>
      refine List.pairwise_cons.2 ⟨fun c hc => ?_, hbs⟩
      rcases List.mem_cons.1 hc with rfl | hc
      · exact hlt hbefore
      · exact htrans (hlt hbefore) (hb c hc)
    · next hbefore =>
      have hinsert := ih hrest fun c hc => ha c (List.mem_cons_of_mem b hc)
      refine List.pairwise_cons.2 ⟨fun c hc => ?_, hinsert⟩
      rcases mem_insert.1 hc with rfl | hc
      · exact hgt (Bool.eq_false_iff.2 hbefore)
      · exact hb c hc

end MayTaint.Sorted
