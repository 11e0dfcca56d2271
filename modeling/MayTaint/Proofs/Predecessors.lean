import MayTaint.Proofs.Taint.Transfer

/-!
Predecessors as the transpose of successors. The table of predecessors is filled by entering every
block for its successors, in the order of the blocks. Since no successor is named twice, nothing is
lost or entered twice, and the lists of the table are together as long as the lists of successors.
One edge that leads to no block stops the filling. Queries share a table that the first of them
computes; one that cannot be computed is not kept in part, so that the next query fails in the same
way.
-/

namespace MayTaint

namespace Body

variable {body : Body} {bb : BlockId} {table : List (List BlockId)} {f : Fault}

def Closed (body : Body) : Prop :=
  ∀ src dst, body.hasBlock src = true → body.Edge src dst → body.hasBlock dst = true

def predecessorsOf (body : Body) (bb : BlockId) : List BlockId :=
  body.blockIds.filter (body.leadsTo bb)

theorem pairwise_predecessorsOf (body : Body) (bb : BlockId) :
    (body.predecessorsOf bb).Pairwise (· < ·) :=
  body.pairwise_blockIds.filter _

theorem mem_predecessorsOf {src : BlockId} : src ∈ body.predecessorsOf bb ↔
    body.hasBlock src = true ∧ ∃ succs, body.successors src = .ok succs ∧ bb ∈ succs := by
  rw [predecessorsOf, List.mem_filter, mem_blockIds]
  refine and_congr_right fun _ => ?_
  cases h : body.successors src with
  | ok succs =>
    rw [leadsTo_eq h, List.contains_iff_mem]
    constructor
    · intro hbb
      exact ⟨succs, rfl, hbb⟩
    · rintro ⟨_, heq, hbb⟩
      exact Except.ok.inj heq ▸ hbb
  | error f => simp [leadsTo, h]

/-! ### Counting edges from both ends -/

theorem LeadsInside.degree_eq {src : BlockId} (h : body.LeadsInside src) :
    body.degree src =
      (body.blockIds.toFinset.filter fun dst => body.leadsTo dst src = true).card := by
  obtain ⟨succs, hsuccs, hinside⟩ := h
  have hdegree : body.degree src = succs.length := by rw [degree, hsuccs]
  rw [hdegree, ← List.toFinset_card_of_nodup (nodup_successors hsuccs)]
  congr 1
  ext dst
  simp only [List.mem_toFinset, Finset.mem_filter, mem_blockIds, leadsTo_eq hsuccs,
    List.contains_iff_mem]
  exact ⟨fun hdst => ⟨hinside dst hdst, hdst⟩, And.right⟩

theorem length_predecessorsOf (body : Body) (bb : BlockId) :
    (body.predecessorsOf bb).length =
      (body.blockIds.toFinset.filter fun src => body.leadsTo bb src = true).card := by
  have hnodup : (body.predecessorsOf bb).Nodup := body.nodup_blockIds.filter _
  rw [← List.toFinset_card_of_nodup hnodup, predecessorsOf, List.toFinset_filter]

/-- Every edge is counted once where it starts and once where it ends. -/
theorem sum_length_predecessorsOf (h : ∀ src ∈ body.blockIds, body.LeadsInside src) :
    (body.blockIds.map fun bb => (body.predecessorsOf bb).length).sum =
      (body.blockIds.map body.degree).sum := by
  have hdegrees : body.blockIds.map body.degree = body.blockIds.map fun src =>
      (body.blockIds.toFinset.filter fun dst => body.leadsTo dst src = true).card :=
    List.map_congr_left fun src hsrc => (h src hsrc).degree_eq
  simp only [length_predecessorsOf]
  rw [hdegrees, ← List.sum_toFinset _ body.nodup_blockIds,
    ← List.sum_toFinset _ body.nodup_blockIds]
  exact Finset.sum_card_bipartiteAbove_eq_sum_card_bipartiteBelow
    fun bb src => body.leadsTo bb src = true

/-! ### Filling the table -/

theorem exists_of_foldlM_enterBlock {g : BlockId → List BlockId} {srcs : List BlockId}
    (h : srcs.foldlM body.enterBlock (body.blockIds.map g) = .error f) :
    ∃ src ∈ srcs, body.successors src = .error f ∨
      ∃ dst, body.Edge src dst ∧ body.hasBlock dst = false ∧ f = .noPredecessors dst := by
  induction srcs generalizing g with
  | nil => cases h
  | cons src srcs ih =>
    rw [List.foldlM_cons] at h
    rcases except_bind_eq_error.1 h with hsrc | ⟨table, htable, hrest⟩
    · refine ⟨src, List.mem_cons_self, ?_⟩
      rcases except_bind_eq_error.1 hsrc with hfails | ⟨succs, hsuccs, hfails⟩
      · exact .inl hfails
      · obtain ⟨dst, hdst, hout, hf⟩ := exists_of_foldlM_addPredecessor hfails
        exact .inr ⟨dst, (mem_successors hsuccs).1 hdst, hout, hf⟩
    · obtain ⟨_, rfl⟩ := enterBlock_eq_ok_iff.1 htable
      obtain ⟨src', hmem, hcause⟩ := ih hrest
      exact ⟨src', List.mem_cons_of_mem src hmem, hcause⟩

theorem predecessorTable_eq_error (h : body.predecessorTable = .error f) :
    ∃ src, body.hasBlock src = true ∧ (body.successors src = .error f ∨
      ∃ dst, body.Edge src dst ∧ body.hasBlock dst = false ∧ f = .noPredecessors dst) := by
  rw [predecessorTable, replicate_eq_map_blockIds] at h
  obtain ⟨src, hsrc, hcause⟩ := exists_of_foldlM_enterBlock h
  exact ⟨src, mem_blockIds.1 hsrc, hcause⟩

section

variable (hterminators : ∀ b ∈ body.blocks, b.terminator.isTyped = true)

include hterminators

theorem exists_successors_of_isTyped (hbb : body.hasBlock bb = true) :
    ∃ succs, body.successors bb = .ok succs := by
  obtain ⟨b, hmem, hb⟩ := exists_block hbb
  obtain ⟨edges, hedges⟩ := Terminator.exists_edges (hterminators b hmem)
  exact exists_successors_of_block hb hedges

theorem Closed.leadsInside (hclosed : body.Closed) (hbb : body.hasBlock bb = true) :
    body.LeadsInside bb := by
  obtain ⟨succs, hsuccs⟩ := exists_successors_of_isTyped hterminators hbb
  exact ⟨succs, hsuccs, fun dst hdst => hclosed bb dst hbb ((mem_successors hsuccs).1 hdst)⟩

theorem predecessorTable_of_closed (hclosed : body.Closed) :
    body.predecessorTable = .ok (body.blockIds.map body.predecessorsOf) :=
  predecessorTable_eq_ok_iff.2
    ⟨fun _ hsrc => hclosed.leadsInside hterminators (mem_blockIds.1 hsrc), rfl⟩

theorem predecessorTable_of_not_closed (hopen : ¬body.Closed) :
    ∃ src dst, body.hasBlock src = true ∧ body.Edge src dst ∧ body.hasBlock dst = false ∧
      body.predecessorTable = .error (.noPredecessors dst) := by
  cases h : body.predecessorTable with
  | ok table =>
    refine absurd (fun src dst hsrc hedge => ?_) hopen
    obtain ⟨succs, hsuccs, hinside⟩ :=
      (predecessorTable_eq_ok_iff.1 h).1 src (mem_blockIds.2 hsrc)
    exact hinside dst ((mem_successors hsuccs).2 hedge)
  | error f =>
    obtain ⟨src, hsrc, hfails | ⟨dst, hedge, hout, rfl⟩⟩ := predecessorTable_eq_error h
    · obtain ⟨succs, hsuccs⟩ := exists_successors_of_isTyped hterminators hsrc
      cases hfails.symm.trans hsuccs
    · exact ⟨src, dst, hsrc, hedge, hout, rfl⟩

end

/-! ### Queries -/

def Indexed.ask (x : Indexed) : List BlockId → List (Except Fault (List BlockId)) × Indexed
  | [] => ([], x)
  | bb :: rest =>
    let (answer, y) := x.predecessors bb
    let (answers, z) := y.ask rest
    (answer :: answers, z)

/-- The body has a predecessor table, and no other one is kept for it. -/
structure Indexed.Keeps (table : List (List BlockId)) (x : Indexed) : Prop where
  computed : x.body.predecessorTable = .ok table
  kept : x.table = none ∨ x.table = some table

theorem Indexed.Keeps.predecessors {x : Indexed} (h : x.Keeps table) (bb : BlockId) :
    (x.predecessors bb).1 = predecessorsIn table bb ∧ (x.predecessors bb).2.Keeps table := by
  rcases h.kept with hnone | hsome
  · simp only [Indexed.predecessors, hnone, h.computed]
    exact ⟨trivial, h.computed, .inr rfl⟩
  · simp only [Indexed.predecessors, hsome]
    exact ⟨trivial, h⟩

theorem Indexed.Keeps.ask {x : Indexed} (h : x.Keeps table) (queries : List BlockId) :
    (x.ask queries).1 = queries.map (predecessorsIn table) := by
  induction queries generalizing x with
  | nil => rfl
  | cons bb queries ih =>
    obtain ⟨hanswer, hkeeps⟩ := h.predecessors bb
    rw [List.map_cons, ← hanswer, ← ih hkeeps]
    rfl

/-- A table that cannot be computed is not kept in part. -/
theorem Indexed.ask_of_error (h : body.predecessorTable = .error f) (queries : List BlockId) :
    Indexed.ask ⟨body, none⟩ queries = (queries.map fun _ => .error f, ⟨body, none⟩) := by
  induction queries with
  | nil => rfl
  | cons bb queries ih => simp only [Indexed.ask, Indexed.predecessors, h, ih, List.map_cons]

/-- If all edges lead to blocks, then whatever was asked before, the predecessors of a block are
told as the increasing list of the blocks of which it is a successor, and these lists are together
as long as there are edges. Otherwise every query fails because of an edge that leads to no block,
and no table is kept. -/
theorem predecessors_transpose (hterminators : ∀ b ∈ body.blocks, b.terminator.isTyped = true)
    (queries : List BlockId) :
    (body.Closed → ∃ preds : BlockId → List BlockId,
      (Indexed.ask ⟨body, none⟩ queries).1 = queries.map (fun bb =>
        if body.hasBlock bb then .ok (preds bb) else .error (.noPredecessors bb)) ∧
      (∀ bb, body.hasBlock bb = true → (preds bb).Pairwise (· < ·) ∧ ∀ src, src ∈ preds bb ↔
        body.hasBlock src = true ∧ ∃ succs, body.successors src = .ok succs ∧ bb ∈ succs) ∧
      body.edgeCount = .ok (body.blockIds.map fun bb => (preds bb).length).sum) ∧
    (¬body.Closed → ∃ src dst, body.hasBlock src = true ∧ body.Edge src dst ∧
      body.hasBlock dst = false ∧ Indexed.ask ⟨body, none⟩ queries =
        (queries.map fun _ => .error (.noPredecessors dst), ⟨body, none⟩)) := by
  constructor
  · intro hclosed
    have htable := predecessorTable_of_closed hterminators hclosed
    have hkeeps : Indexed.Keeps (body.blockIds.map body.predecessorsOf) ⟨body, none⟩ :=
      ⟨htable, .inl rfl⟩
    refine ⟨body.predecessorsOf, ?_, fun bb _ => ?_, ?_⟩
    · rw [hkeeps.ask]
      exact List.map_congr_left fun bb _ => predecessorsIn_map body body.predecessorsOf bb
    · exact ⟨body.pairwise_predecessorsOf bb, fun src => mem_predecessorsOf⟩
    · have hinside : ∀ src ∈ body.blockIds, body.LeadsInside src := fun src hsrc =>
        hclosed.leadsInside hterminators (mem_blockIds.1 hsrc)
      rw [sum_length_predecessorsOf hinside]
      exact edgeCount_eq fun bb hbb => (hinside bb hbb).imp fun succs h => h.1
  · intro hopen
    obtain ⟨src, dst, hsrc, hedge, hout, htable⟩ :=
      predecessorTable_of_not_closed hterminators hopen
    exact ⟨src, dst, hsrc, hedge, hout, Indexed.ask_of_error htable queries⟩

def doubled : Body :=
  ⟨0, [⟨[], .switchInt (.constant .null) [(.int 0, 1), (.int 1, 1)] 2⟩, ⟨[], .goto 0⟩,
    ⟨[], .check (.constant .null) (.bool true) 1 (some 1)⟩], "<body>"⟩

/-- A body in which the second block leads to no block; counted from the end it would lead back. -/
def severed : Body :=
  ⟨0, [⟨[], .goto 1⟩, ⟨[], .goto (-1)⟩], "<body>"⟩

/-- A block is told twice as it is told once, and an edge to a negative number spoils everything. -/
theorem predecessors_transpose_doubled :
    (∀ b ∈ doubled.blocks, b.terminator.isTyped = true) ∧ doubled.Closed ∧
    (∃ preds : BlockId → List BlockId, (Indexed.ask ⟨doubled, none⟩ [1, 3, 1]).1 =
        [.ok (preds 1), .error (.noPredecessors 3), .ok (preds 1)] ∧
      doubled.edgeCount = .ok (doubled.blockIds.map fun bb => (preds bb).length).sum) ∧
    (∀ b ∈ severed.blocks, b.terminator.isTyped = true) ∧ ¬severed.Closed ∧
    ∃ dst, severed.hasBlock dst = false ∧ Indexed.ask ⟨severed, none⟩ [0, 1] =
      ([.error (.noPredecessors dst), .error (.noPredecessors dst)], ⟨severed, none⟩) := by
  have hdoubled : ∀ b ∈ doubled.blocks, b.terminator.isTyped = true := by decide
  have hsevered : ∀ b ∈ severed.blocks, b.terminator.isTyped = true := by decide
  have hvalid : doubled.Valid := valid_of_validate (by cbv)
  have hclosed : doubled.Closed := fun _ _ =>
    hvalid.hasBlock_of_edge
  have hopen : ¬severed.Closed := fun h =>
    absurd (h 1 (-1) (by decide) ⟨_, _, .goto, rfl, rfl, List.mem_singleton_self _⟩) (by decide)
  obtain ⟨preds, hanswers, _, hcount⟩ := (predecessors_transpose hdoubled [1, 3, 1]).1 hclosed
  obtain ⟨_, dst, _, _, hout, hasked⟩ := (predecessors_transpose hsevered [0, 1]).2 hopen
  exact ⟨hdoubled, hclosed, ⟨preds, hanswers, hcount⟩, hsevered, hopen, dst, hout, hasked⟩

end Body

end MayTaint
