import MayTaint.Dump
import MayTaint.Proofs.Postorder

/-!
The order in which the blocks of a valid body are listed. In the reverse postorder every edge points
forward, unless its target leads back to its source, so that without cycles the order is a
topological one. A dump lists all blocks, those that can be reached first and in this order, and has
a section for each of them.
-/

namespace MayTaint

open Relation (ReflTransGen TransGen)

namespace Dump

variable {body : Body} {bb : BlockId} {order : List BlockId}

/-- The order of a dump continues the reverse postorder, and has every block once. -/
theorem exists_blockOrder (hv : body.Valid) (horder : body.reversePostorder = .ok order) :
    ∃ full, blockOrder body = .ok full ∧ full.Perm body.blockIds ∧ order.Sublist full := by
  obtain ⟨order', horder', hnodup, hmem⟩ := hv.exists_reversePostorder
  cases horder.symm.trans horder'
  refine ⟨_, except_bind_eq_ok.2 ⟨order, horder, rfl⟩, ?_, List.sublist_append_left _ _⟩
  refine (List.perm_ext_iff_of_nodup ?_ body.nodup_blockIds).2 fun bb => ?_
  · refine List.nodup_append'.2 ⟨hnodup, body.nodup_blockIds.filter _, fun bb hbb hrest => ?_⟩
    simpa [hbb] using (List.mem_filter.1 hrest).2
  · have hblock : bb ∈ order → bb ∈ body.blockIds := fun hbb =>
      Body.mem_blockIds.2 (hv.hasBlock_of_reachable ((hmem bb).1 hbb))
    simp only [List.mem_append, List.mem_filter, List.contains_eq_mem, Bool.not_eq_true',
      decide_eq_false_iff_not]
    tauto

/-- The lines are those of a section on a block: the first one names the block. -/
def IsSection (bb : BlockId) (lines : List String) : Prop :=
  ∃ state rest, lines = ("bb" ++ toString bb ++ ": " ++ state) :: rest

variable [Machine] {σ : Type} {r : Results σ} {s s' : Session σ}

theorem isSection_of_blockLines {lines : List String} (h : blockLines r bb s = .ok lines s') :
    IsSection bb lines := by
  have hentry : ": entry " = ": " ++ "entry " := by decide
  have hnever : ": unreachable" = ": " ++ "unreachable" := by decide
  unfold blockLines at h
  split at h
  · obtain ⟨entry, s₁, _, h₁⟩ := estate_bind_eq_ok.1 h
    obtain ⟨requests, s₂, _, h₂⟩ := estate_bind_eq_ok.1 h₁
    obtain ⟨exit, s₃, _, h₃⟩ := estate_bind_eq_ok.1 h₂
    cases h₃
    rw [List.append_assoc, List.singleton_append]
    refine ⟨"entry " ++ entry.text, _, congrArg (· :: _) ?_⟩
    simp only [hentry, String.append_assoc]
  · cases h
    refine ⟨"unreachable", [], ?_⟩
    simp only [hnever, String.append_assoc]

/-- A dump has a section for every block, in the order of the blocks. -/
theorem exists_sections_of_text {full : List BlockId} {dump : String}
    (hfull : blockOrder r.body = .ok full) (h : text r s = .ok dump s') :
    ∃ header sections audit, dump = "\n".intercalate (header :: sections.flatten ++ audit) ∧
      List.Forall₂ IsSection full sections := by
  obtain ⟨locals, s₁, _, h₁⟩ := estate_bind_eq_ok.1 h
  obtain ⟨full', s₂, hfull', h₂⟩ := estate_bind_eq_ok.1 h₁
  cases hfull.symm.trans (Run.ofExcept_eq_ok.1 hfull').1
  obtain ⟨sections, s₃, hsections, h₃⟩ := estate_bind_eq_ok.1 h₂
  cases h₃
  refine ⟨_, sections, _, rfl, (Run.forall₂_of_mapM hsections).imp ?_⟩
  rintro bb lines ⟨t, t', hlines⟩
  exact isSection_of_blockLines hlines

end Dump

namespace Body

variable {body : Body}

/-- The reverse postorder of a valid body begins with the entry and lists the blocks that can be
reached, each once. Where an edge does not point forward in it, the target leads back to the source,
so that it is a topological order if no block lies on a cycle. A dump lists all blocks, and every
block after its predecessors to which it does not lead. -/
theorem reversePostorder_topological (hvalid : body.validate = .ok ()) :
    ∃ order full, body.reversePostorder = .ok order ∧ order.Nodup ∧
      order.head? = some Body.entry ∧ (∀ bb, bb ∈ order ↔ body.Reachable bb) ∧
      (∀ u v, body.Reachable u → body.Edge u v → ¬[u, v].Sublist order →
        ReflTransGen body.Edge v u) ∧
      ((∀ bb, body.Reachable bb → ¬TransGen body.Edge bb bb) →
        ∀ u v, body.Reachable u → body.Edge u v → [u, v].Sublist order) ∧
      Dump.blockOrder body = .ok full ∧ full.Perm body.blockIds ∧
      (∀ u v, body.Reachable u → body.Edge u v → ¬ReflTransGen body.Edge v u →
        [u, v].Sublist full) ∧
      ∀ [Machine] {σ : Type} (r : Results σ) (s s' : Session σ) (dump : String), r.body = body →
        Dump.text r s = .ok dump s' →
        ∃ header sections audit, dump = "\n".intercalate (header :: sections.flatten ++ audit) ∧
          List.Forall₂ Dump.IsSection full sections := by
  have hv := valid_of_validate hvalid
  obtain ⟨order, horder, hnodup, hmem⟩ := hv.exists_reversePostorder
  obtain ⟨full, hfull, hperm, hsub⟩ := Dump.exists_blockOrder hv horder
  have hedge : ∀ u v, body.Reachable u → body.Edge u v →
      [u, v].Sublist order ∨ ReflTransGen body.Edge v u := fun u v hu he =>
    hv.forward_or_back horder ((hmem u).2 hu) he
  refine ⟨order, full, horder, hnodup, hv.head?_reversePostorder horder, hmem, ?_, ?_, hfull, hperm,
    ?_, ?_⟩
  · intro u v hu he hnot
    exact (hedge u v hu he).resolve_left hnot
  · intro hacyclic u v hu he
    refine (hedge u v hu he).resolve_right fun hback => ?_
    exact hacyclic u hu (.head' he hback)
  · intro u v hu he hnot
    exact ((hedge u v hu he).resolve_right hnot).trans hsub
  · rintro _ σ r s s' dump rfl h
    exact Dump.exists_sections_of_text hfull h

def knot : Body :=
  ⟨1, [⟨[], .switchInt (.copy (.int 0)) [(.int 0, 1)] 2⟩, ⟨[], .goto 3⟩,
    ⟨[], .switchInt (.copy (.int 0)) [(.int 0, 2)] 1⟩,
    ⟨[], .switchInt (.copy (.int 0)) [(.int 0, 0)] 4⟩, ⟨[], .ret⟩, ⟨[], .goto 4⟩], "knot"⟩

theorem reversePostorder_topological_knot :
    knot.reversePostorder = .ok [0, 2, 1, 3, 4] ∧ Dump.blockOrder knot = .ok [0, 2, 1, 3, 4, 5] ∧
      knot.Reachable 3 ∧ knot.Edge 3 0 ∧ ReflTransGen knot.Edge 0 3 ∧
      knot.Reachable 2 ∧ knot.Edge 2 2 ∧ ReflTransGen knot.Edge 2 2 := by
  have horder : knot.reversePostorder = .ok [0, 2, 1, 3, 4] := by cbv
  have hfull : Dump.blockOrder knot = .ok [0, 2, 1, 3, 4, 5] := by cbv
  have hvalid : knot.validate = .ok () := by cbv
  obtain ⟨order, full, horder', _, _, hmem, hback, _⟩ := reversePostorder_topological hvalid
  cases horder.symm.trans horder'
  have h3 : knot.Reachable 3 := (hmem 3).1 (by decide)
  have h2 : knot.Reachable 2 := (hmem 2).1 (by decide)
  have he30 : knot.Edge 3 0 := ⟨_, _, _, rfl, rfl, List.mem_cons_self⟩
  have he22 : knot.Edge 2 2 := ⟨_, _, _, rfl, rfl, List.mem_cons_self⟩
  exact ⟨horder, hfull, h3, he30, hback 3 0 h3 he30 (by decide), h2, he22,
    hback 2 2 h2 he22 (by decide)⟩

end Body

end MayTaint
