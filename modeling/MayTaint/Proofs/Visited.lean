import MayTaint.Proofs.FixedPoint
import MayTaint.Proofs.Limit
import MayTaint.Proofs.Postorder
import Mathlib.Data.List.Sort

/-!
Which blocks a run visits. Nothing is asked of the analysis here: its effects may remember what they
were asked before, and a state may shrink from one visit to the next. A block is queued because of
an edge, and a block that gets its first exit state queues all its successors, so that a run that
comes to an end has visited exactly the blocks that can be reached. Its tables list them in
increasing order, which is the reverse postorder of the body, sorted.
-/

namespace MayTaint

section

variable {σ : Type}

def Progress.Ordered (p : Progress) : Prop :=
  p.entries.Ordered ∧ p.exits.Ordered

namespace Solver

variable {v : Solver σ} {bb : BlockId} {rest : List BlockId} {entry exit : LocalSet}
  {p p' : Progress} {s s' : Session σ}

theorem settle_ordered (h : v.settle bb entry exit p = .ok p') (hp : p.Ordered) : p'.Ordered := by
  unfold settle at h
  split at h
  · cases h
    exact ⟨hp.1.insert bb entry, hp.2⟩
  · obtain ⟨succs, _, h⟩ := except_bind_eq_ok.1 h
    cases h
    exact ⟨hp.1.insert bb entry, hp.2.insert bb exit⟩

variable [Machine]

theorem visit_ordered (h : v.visit bb { p with waiting := rest } s = .ok p' s') (hp : p.Ordered) :
    p'.Ordered := by
  obtain ⟨entry, s₁, _, h⟩ := estate_bind_eq_ok.1 h
  obtain ⟨⟨⟨⟩, exit⟩, s₂, _, h⟩ := estate_bind_eq_ok.1 h
  obtain ⟨⟨⟩, s₃, _, h⟩ := estate_bind_eq_ok.1 h
  obtain ⟨⟨⟩, s₄, _, h⟩ := estate_bind_eq_ok.1 h
  exact settle_ordered (Run.ofExcept_eq_ok.1 h).1 hp

/-- A block has an entry state once it has an exit state, and not before. -/
theorem Step.entered_iff (hs : v.Step bb rest entry exit p s p' s')
    (h : ∀ b, (p.entries.get? b).isSome = (p.exits.get? b).isSome) (b : BlockId) :
    (p'.entries.get? b).isSome = (p'.exits.get? b).isSome := by
  rw [hs.entries, hs.exits]
  split
  · rfl
  · exact h b

end Solver

variable [Machine]

namespace Analysis

variable {a : Analysis σ} {limits : Limits} {body : Body} {s s' : Session σ} {r : Results σ}

/-- The blocks that have an exit state at the end of a run are the reachable ones, and they are
those that have an entry state. -/
theorem mem_blocks_of_solve (h : a.solve limits body s = .ok r s') (bb : BlockId) :
    (bb ∈ r.exits.blocks ↔ body.Reachable bb) ∧ (bb ∈ r.entries.blocks ↔ body.Reachable bb) := by
  obtain ⟨bottom, start, s₁, table, p, s₂, hsolved, _, _, hentries, hexits, _⟩ := solved_of_solve h
  obtain ⟨limit, allowed, hiterate⟩ := hsolved.iterate_eq
  obtain ⟨⟨hexplored, hsame⟩, hw⟩ := Solver.iterate_induct
    (fun p _ => (a.solver limits body start table).Explored p ∧
      ∀ b, (p.entries.get? b).isSome = (p.exits.get? b).isSome)
    (fun hs hI => ⟨hI.1.step hs, hs.entered_iff hI.2⟩) hiterate
    ⟨Solver.explored_init _, fun _ => rfl⟩
  have hvisited : (p.exits.get? bb).isSome = true ↔ body.Reachable bb :=
    hexplored.visited_iff_reachable hw
  rw [Table.mem_blocks, Table.mem_blocks, hentries, hexits, hsame]
  exact ⟨hvisited, hvisited⟩

theorem ordered_of_solve (h : a.solve limits body s = .ok r s') :
    r.entries.Ordered ∧ r.exits.Ordered := by
  obtain ⟨bottom, start, s₁, table, p, s₂, hsolved, _, _, hentries, hexits, _⟩ := solved_of_solve h
  obtain ⟨limit, allowed, hiterate⟩ := hsolved.iterate_eq
  rw [hentries, hexits]
  exact (Solver.iterate_invariant (fun p _ => p.Ordered)
    (fun _ hvisit => Solver.visit_ordered hvisit) hiterate
    ⟨Table.ordered_empty, Table.ordered_empty⟩).1

end Analysis

omit [Machine] in
/-- A table whose blocks are those of a list without repetitions lists them as sorting does. -/
theorem Table.Ordered.blocks_eq_mergeSort {α : Type} {t : Table α} (ht : t.Ordered)
    {order : List BlockId} (hnodup : order.Nodup) (h : ∀ bb, bb ∈ t.blocks ↔ bb ∈ order) :
    t.blocks = order.mergeSort := by
  have hblocks : t.blocks.Nodup := List.Pairwise.imp (fun hlt => ne_of_lt hlt) ht
  have hperm : t.blocks.Perm order.mergeSort :=
    ((List.perm_ext_iff_of_nodup hblocks hnodup).2 h).trans (List.mergeSort_perm order _).symm
  refine hperm.eq_of_sortedLE ?_ ?_
  · exact List.Pairwise.sortedLE (List.Pairwise.imp (fun hlt => le_of_lt hlt) ht)
  · exact List.sortedLE_mergeSort

namespace Analysis

variable {a : Analysis σ} {limits : Limits} {body : Body} {s s' : Session σ} {r : Results σ}

/-- The blocks that a run of any analysis visits are the reachable ones: the keys of both tables,
and the blocks of the reverse postorder. -/
theorem visitedBlocks_eq_reachable (h : a.solve limits body s = .ok r s') :
    (∀ bb, bb ∈ r.exits.blocks ↔ body.Reachable bb) ∧
      (∀ bb, bb ∈ r.entries.blocks ↔ body.Reachable bb) ∧
      ∃ order, body.reversePostorder = .ok order ∧ (∀ bb, bb ∈ order ↔ body.Reachable bb) ∧
        r.visitedBlocks = order.mergeSort := by
  have hblocks := mem_blocks_of_solve h
  obtain ⟨_, _, _, _, _, _, hsolved, _⟩ := solved_of_solve h
  obtain ⟨order, horder, hnodup, hmem⟩ := hsolved.valid.exists_reversePostorder
  refine ⟨fun bb => (hblocks bb).1, fun bb => (hblocks bb).2, order, horder, hmem, ?_⟩
  refine (ordered_of_solve h).2.blocks_eq_mergeSort hnodup fun bb => ?_
  rw [(hblocks bb).1, hmem]

def bypass : Body :=
  ⟨2, [⟨[.nop], .switchInt (.copy (.int 0)) [(.int 0, 0)] 2⟩, ⟨[], .goto 2⟩, ⟨[], .ret⟩], "bypass"⟩

end Analysis

end

namespace Analysis

attribute [local instance] Machine.ample

/-- An analysis that changes from visit to visit still visits the two blocks that can be reached. -/
theorem visitedBlocks_bypass :
    ∃ r s', restless.solve {} bypass ⟨0, []⟩ = .ok r s' ∧ r.visitedBlocks = [0, 2] ∧
      (∀ bb, bb ∈ r.exits.blocks ↔ bypass.Reachable bb) ∧
      (∀ bb, bb ∈ r.entries.blocks ↔ bypass.Reachable bb) ∧
      ∃ order, bypass.reversePostorder = .ok order ∧ (∀ bb, bb ∈ order ↔ bypass.Reachable bb) ∧
        r.visitedBlocks = order.mergeSort := by
  obtain ⟨r, s', h, hr⟩ : ∃ r s', restless.solve {} bypass ⟨0, []⟩ = .ok r s' ∧
      r.visitedBlocks = [0, 2] := ⟨_, _, by cbv, by cbv⟩
  exact ⟨r, s', h, hr, visitedBlocks_eq_reachable h⟩

end Analysis

end MayTaint
