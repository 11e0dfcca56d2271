import MayTaint.Program.Body
import MayTaint.Proofs.Stateless

/-!
The control flow graph of a body that has been validated. Edges are those that the terminators name;
a walk follows them from the entry and may pass a block any number of times. The queries of a body
(successors, predecessors, the number of edges) answer for a valid body, and are described here by
its edges.
-/

namespace MayTaint

/-! ### Lists of computations that may give up -/

section

variable {ε α β : Type}

theorem forM_eq_ok_iff {f : α → Except ε Unit} {xs : List α} :
    xs.forM f = .ok () ↔ ∀ x ∈ xs, f x = .ok () := by
  induction xs with
  | nil => simp [List.forM, pure, Except.pure]
  | cons x xs ih =>
    rw [List.forM_eq_forM, List.forM_cons, except_bind_eq_ok, List.forall_mem_cons, ← ih]
    exact ⟨fun ⟨_, hx, hxs⟩ => ⟨hx, hxs⟩, fun ⟨hx, hxs⟩ => ⟨⟨⟩, hx, hxs⟩⟩

theorem exists_of_forM_eq_error {f : α → Except ε Unit} {xs : List α} {e : ε}
    (h : xs.forM f = .error e) : ∃ x ∈ xs, f x = .error e := by
  induction xs with
  | nil => cases h
  | cons x xs ih =>
    rw [List.forM_eq_forM, List.forM_cons] at h
    rcases except_bind_eq_error.1 h with hx | ⟨⟨⟩, _, hxs⟩
    · exact ⟨x, List.mem_cons_self, hx⟩
    · obtain ⟨y, hy, hfy⟩ := ih hxs
      exact ⟨y, List.mem_cons_of_mem x hy, hfy⟩

theorem mapM_eq_ok_iff {f : α → Except ε β} {xs : List α} {ys : List β} :
    xs.mapM f = .ok ys ↔ List.Forall₂ (fun x y => f x = .ok y) xs ys := by
  induction xs generalizing ys with
  | nil =>
    rw [List.mapM_nil, List.forall₂_nil_left_iff]
    change Except.ok [] = Except.ok ys ↔ _
    simp [eq_comm]
  | cons x xs ih =>
    rw [List.mapM_cons, except_bind_eq_ok]
    constructor
    · rintro ⟨y, hy, h⟩
      obtain ⟨zs, hzs, hys⟩ := except_bind_eq_ok.1 h
      cases hys
      exact .cons hy (ih.1 hzs)
    · rintro (_ | ⟨hy, hzs⟩)
      exact ⟨_, hy, except_bind_eq_ok.2 ⟨_, ih.2 hzs, rfl⟩⟩

theorem exists_mapM_eq_ok {f : α → Except ε β} {xs : List α} (h : ∀ x ∈ xs, ∃ y, f x = .ok y) :
    ∃ ys, xs.mapM f = .ok ys := by
  induction xs with
  | nil => exact ⟨[], rfl⟩
  | cons x xs ih =>
    obtain ⟨y, hy⟩ := h x List.mem_cons_self
    obtain ⟨ys, hys⟩ := ih fun z hz => h z (List.mem_cons_of_mem x hz)
    exact ⟨y :: ys, mapM_eq_ok_iff.2 (.cons hy (mapM_eq_ok_iff.1 hys))⟩

theorem mem_of_mapM_eq_ok {f : α → Except ε β} {xs : List α} {ys : List β}
    (h : xs.mapM f = .ok ys) {y : β} (hy : y ∈ ys) : ∃ x ∈ xs, f x = .ok y := by
  replace h := mapM_eq_ok_iff.1 h
  induction h with
  | nil => cases hy
  | @cons x z xs zs hz _ ih =>
    rcases List.mem_cons.1 hy with rfl | hy
    · exact ⟨x, List.mem_cons_self, hz⟩
    · obtain ⟨x', hx', hfx'⟩ := ih hy
      exact ⟨x', List.mem_cons_of_mem x hx', hfx'⟩

theorem exists_of_mapM_eq_ok {f : α → Except ε β} {xs : List α} {ys : List β}
    (h : xs.mapM f = .ok ys) {x : α} (hx : x ∈ xs) : ∃ y ∈ ys, f x = .ok y := by
  replace h := mapM_eq_ok_iff.1 h
  induction h with
  | nil => cases hx
  | @cons z y zs ys hz _ ih =>
    rcases List.mem_cons.1 hx with rfl | hx
    · exact ⟨y, List.mem_cons_self, hz⟩
    · obtain ⟨y', hy', hfx⟩ := ih hx
      exact ⟨y', List.mem_cons_of_mem y hy', hfx⟩

theorem Run.forall₂_of_mapM {σ : Type} {f : α → Run σ β} {xs : List α} {ys : List β}
    {s s' : Session σ} (h : xs.mapM f s = .ok ys s') :
    List.Forall₂ (fun x y => ∃ t t', f x t = .ok y t') xs ys := by
  induction xs generalizing ys s with
  | nil =>
    cases h
    exact .nil
  | cons x xs ih =>
    rw [List.mapM_cons] at h
    obtain ⟨y, t, hy, h⟩ := estate_bind_eq_ok.1 h
    obtain ⟨zs, t', hzs, h⟩ := estate_bind_eq_ok.1 h
    cases h
    exact .cons ⟨s, t, hy⟩ (ih hzs)

theorem exists_of_forall₂ {R : α → β → Prop} {xs : List α} {ys : List β}
    (h : List.Forall₂ R xs ys) {x : α} (hx : x ∈ xs) : ∃ y ∈ ys, R x y := by
  induction h with
  | nil => cases hx
  | @cons a b xs ys hab _ ih =>
    rcases List.mem_cons.1 hx with rfl | hx
    · exact ⟨b, List.mem_cons_self, hab⟩
    · obtain ⟨y, hy, hxy⟩ := ih hx
      exact ⟨y, List.mem_cons_of_mem b hy, hxy⟩

end

/-! ### Positions -/

theorem elementAt_eq_ok_iff {α : Type} {xs : List α} {i : Int} (hi : 0 ≤ i) {x : α} :
    elementAt xs i = .ok x ↔ xs[i.toNat]? = some x := by
  have hneg : ¬i < 0 := by omega
  simp only [elementAt, if_neg hneg]
  cases xs[i.toNat]? with
  | none => simp
  | some y => simp

theorem bounds_of_elementAt {α : Type} {xs : List α} {i : Int} {x : α}
    (h : elementAt xs i = .ok x) : -(xs.length : Int) ≤ i ∧ i < xs.length := by
  simp only [elementAt] at h
  split at h
  · next y hy =>
    -- a negative position is moved up by the length, once
    split_ifs at hy
    · have hlt := (List.getElem?_eq_some_iff.1 hy).1
      omega
    · have hlt := (List.getElem?_eq_some_iff.1 hy).1
      omega
  · cases h

/-! ### Appending what is not there yet -/

theorem mem_foldl_fresh {queue xs : List BlockId} {x : BlockId} :
    x ∈ xs.foldl (fun q y => if q.contains y then q else q ++ [y]) queue ↔
      x ∈ queue ∨ x ∈ xs := by
  induction xs generalizing queue with
  | nil => simp
  | cons y xs ih =>
    rw [List.foldl_cons, ih, List.mem_cons]
    split
    · next hy =>
      rw [List.contains_iff_mem] at hy
      constructor
      · rintro (h | h)
        · exact .inl h
        · exact .inr (.inr h)
      · rintro (h | rfl | h)
        · exact .inl h
        · exact .inl hy
        · exact .inr h
    · rw [List.mem_append, List.mem_singleton, or_assoc]

theorem length_foldl_fresh_le (queue xs : List BlockId) :
    (xs.foldl (fun q y => if q.contains y then q else q ++ [y]) queue).length ≤
      queue.length + xs.length := by
  induction xs generalizing queue with
  | nil => simp
  | cons y xs ih =>
    rw [List.foldl_cons, List.length_cons]
    refine (ih _).trans ?_
    split
    · omega
    · rw [List.length_append, List.length_singleton]
      omega

theorem nodup_foldl_fresh {queue : List BlockId} (h : queue.Nodup) (xs : List BlockId) :
    (xs.foldl (fun q y => if q.contains y then q else q ++ [y]) queue).Nodup := by
  induction xs generalizing queue with
  | nil => exact h
  | cons y xs ih =>
    rw [List.foldl_cons]
    split
    · exact ih h
    · next hy =>
      rw [List.contains_iff_mem] at hy
      apply ih
      rw [← List.concat_eq_append]
      exact h.concat hy

theorem mem_distinct {xs : List BlockId} {x : BlockId} : x ∈ distinct xs ↔ x ∈ xs := by
  rw [distinct, mem_foldl_fresh]
  simp

theorem nodup_distinct (xs : List BlockId) : (distinct xs).Nodup :=
  nodup_foldl_fresh List.nodup_nil xs

namespace Body

variable {body : Body} {bb succ : BlockId}

theorem hasBlock_iff {bb : Int} : body.hasBlock bb = true ↔ 0 ≤ bb ∧ bb < body.size := by
  rw [hasBlock, Bool.and_eq_true, decide_eq_true_iff, decide_eq_true_iff]

theorem mem_blockIds : bb ∈ body.blockIds ↔ body.hasBlock bb = true := by
  rw [hasBlock_iff, blockIds, List.mem_map]
  constructor
  · rintro ⟨i, hi, rfl⟩
    have hi := List.mem_range.1 hi
    exact ⟨Int.natCast_nonneg i, Int.ofNat_lt.2 hi⟩
  · rintro ⟨hnonneg, hlt⟩
    exact ⟨bb.toNat, List.mem_range.2 (by omega), Int.toNat_of_nonneg hnonneg⟩

theorem nodup_blockIds (body : Body) : body.blockIds.Nodup :=
  List.Nodup.map (fun _ _ h => Int.ofNat.inj h) List.nodup_range

theorem pairwise_blockIds (body : Body) : body.blockIds.Pairwise (· < ·) :=
  List.Pairwise.map Int.ofNat (fun _ _ h => Int.ofNat_lt.2 h) List.pairwise_lt_range

theorem exists_block (hbb : body.hasBlock bb = true) :
    ∃ b ∈ body.blocks, body.block bb = .ok b := by
  obtain ⟨hnonneg, hlt⟩ := hasBlock_iff.1 hbb
  have hpos : bb.toNat < body.blocks.length := by
    rw [size] at hlt
    omega
  exact ⟨_, List.getElem_mem hpos, (elementAt_eq_ok_iff hnonneg).2 (List.getElem?_eq_getElem hpos)⟩

def Edge (body : Body) (bb succ : BlockId) : Prop :=
  ∃ b edges kind, body.block bb = .ok b ∧ b.terminator.edges = .ok edges ∧ (succ, kind) ∈ edges

theorem edge_of_call {b : Block} {c : Call} (hb : body.block bb = .ok b)
    (hc : b.terminator = .call c) (hsucc : c.target = some succ) : body.Edge bb succ := by
  refine ⟨b, _, .callReturn, hb, congrArg Terminator.edges hc, ?_⟩
  simp [Terminator.edges.edgeTo, hsucc]

/-- A walk along the edges from the entry to a block: the blocks that it passes before. -/
inductive Walk (body : Body) : List BlockId → BlockId → Prop
  | entry : Walk body [] Body.entry
  | step {path bb succ} : Walk body path bb → body.Edge bb succ → Walk body (path ++ [bb]) succ

def Reachable (body : Body) (bb : BlockId) : Prop :=
  ∃ path, body.Walk path bb

theorem Reachable.entry : body.Reachable Body.entry :=
  ⟨[], .entry⟩

theorem Reachable.step (h : body.Reachable bb) (he : body.Edge bb succ) : body.Reachable succ := by
  obtain ⟨path, hpath⟩ := h
  exact ⟨path ++ [bb], hpath.step he⟩

theorem Walk.reachable_of_mem {path : List BlockId} {b : BlockId} (h : body.Walk path bb)
    (hb : b ∈ path) : body.Reachable b := by
  induction h with
  | entry => cases hb
  | step hpath _ ih =>
    rcases List.mem_append.1 hb with hb | hb
    · exact ih hb
    · exact List.mem_singleton.1 hb ▸ ⟨_, hpath⟩

structure Valid (body : Body) : Prop where
  localCount_nonneg : 0 ≤ body.localCount
  hasBlock_entry : body.hasBlock Body.entry = true
  edges : ∀ {bb}, body.hasBlock bb = true → ∃ b edges, body.block bb = .ok b ∧
    b.terminator.edges = .ok edges ∧ ∀ e ∈ edges, body.hasBlock e.1 = true

theorem valid_of_validate (h : body.validate = .ok ()) : body.Valid := by
  unfold validate at h
  by_cases hcount : body.localCount < 0
  · simp only [if_pos hcount] at h
    cases h
  by_cases hblocks : body.blocks.isEmpty = true
  · simp only [if_neg hcount, if_pos hblocks] at h
    cases h
  simp only [if_neg hcount, if_neg hblocks] at h
  have hpos : 0 < body.size := by
    rw [size, List.length_pos_iff]
    simpa using hblocks
  refine ⟨by omega, hasBlock_iff.2 ⟨le_rfl, by simpa [Body.entry] using hpos⟩, fun {bb} hbb => ?_⟩
  have hbb := forM_eq_ok_iff.1 h bb (mem_blockIds.2 hbb)
  obtain ⟨b, hb, hbb⟩ := except_bind_eq_ok.1 hbb
  obtain ⟨edges, hedges, hall⟩ := except_bind_eq_ok.1 hbb
  refine ⟨b, edges, hb, hedges, fun e he => ?_⟩
  have he := forM_eq_ok_iff.1 hall e he
  by_contra hno
  rw [if_neg hno] at he
  cases he

theorem Valid.validate (hv : body.Valid) : body.validate = .ok () := by
  have hcount : ¬body.localCount < 0 := Int.not_lt.2 hv.localCount_nonneg
  have hblocks : ¬body.blocks.isEmpty = true := by
    intro hempty
    have hpos := (hasBlock_iff.1 hv.hasBlock_entry).2
    rw [size, List.isEmpty_iff.1 hempty] at hpos
    exact absurd hpos (by decide)
  unfold Body.validate
  simp only [if_neg hcount, if_neg hblocks]
  refine forM_eq_ok_iff.2 fun bb hbb => ?_
  obtain ⟨b, edges, hb, hedges, htargets⟩ := hv.edges (mem_blockIds.1 hbb)
  refine except_bind_eq_ok.2 ⟨b, hb, except_bind_eq_ok.2 ⟨edges, hedges, ?_⟩⟩
  refine forM_eq_ok_iff.2 fun e he => ?_
  exact if_pos (htargets e he)

/-- What `validate` has to say about a body that it refuses. -/
theorem validate_eq_error {f : Fault} (h : body.validate = .error f) :
    f = .negativeLocalCount body.name body.localCount ∨ f = .noBlocks body.name ∨
      (∃ b ∈ body.blocks, b.terminator.edges = .error f ∧ ∃ kind, f = .lacks kind "edges") ∨
      ∃ kind target l, f = .danglingEdge body.name kind target l := by
  unfold validate at h
  by_cases hcount : body.localCount < 0
  · simp only [if_pos hcount] at h
    cases h
    exact .inl rfl
  by_cases hblocks : body.blocks.isEmpty = true
  · simp only [if_neg hcount, if_pos hblocks] at h
    cases h
    exact .inr (.inl rfl)
  simp only [if_neg hcount, if_neg hblocks] at h
  obtain ⟨bb, hbb, hblock⟩ := exists_of_forM_eq_error h
  right; right
  -- the blocks that are looked at are those of the body
  obtain ⟨b, hmem, hlookup⟩ := exists_block (mem_blockIds.1 hbb)
  rcases except_bind_eq_error.1 hblock with hfails | ⟨b', hb', hterminator⟩
  · rw [hlookup] at hfails
    cases hfails
  cases hlookup.symm.trans hb'
  rcases except_bind_eq_error.1 hterminator with hedges | ⟨edges, _, htargets⟩
  · refine .inl ⟨b, hmem, hedges, ?_⟩
    unfold Terminator.edges at hedges
    split at hedges <;> cases hedges <;> exact ⟨_, rfl⟩
  · right
    obtain ⟨⟨target, kind⟩, _, htarget⟩ := exists_of_forM_eq_error htargets
    by_cases hhas : body.hasBlock target = true
    · rw [if_pos hhas] at htarget
      cases htarget
    · rw [if_neg hhas] at htarget
      cases htarget
      exact ⟨kind, target, _, rfl⟩

theorem exists_successors_of_block {b : Block} {edges : List (BlockId × EdgeKind)}
    (hb : body.block bb = .ok b) (hedges : b.terminator.edges = .ok edges) :
    ∃ succs, body.successors bb = .ok succs :=
  ⟨_, except_bind_eq_ok.2 ⟨b, hb, except_bind_eq_ok.2
    ⟨_, except_bind_eq_ok.2 ⟨edges, hedges, rfl⟩, rfl⟩⟩⟩

section Valid

variable (hv : body.Valid)

include hv

theorem Valid.hasBlock_of_edge (hbb : body.hasBlock bb = true) (he : body.Edge bb succ) :
    body.hasBlock succ = true := by
  obtain ⟨b, edges, hb, hedges, hall⟩ := hv.edges hbb
  obtain ⟨b', edges', kind, hb', hedges', hmem⟩ := he
  cases hb.symm.trans hb'
  cases hedges.symm.trans hedges'
  exact hall _ hmem

theorem Valid.hasBlock_of_reachable (h : body.Reachable bb) : body.hasBlock bb = true := by
  obtain ⟨path, hpath⟩ := h
  induction hpath with
  | entry => exact hv.hasBlock_entry
  | step _ he ih => exact hv.hasBlock_of_edge ih he

theorem Valid.exists_successors (hbb : body.hasBlock bb = true) :
    ∃ succs, body.successors bb = .ok succs := by
  obtain ⟨b, edges, hb, hedges, _⟩ := hv.edges hbb
  exact exists_successors_of_block hb hedges

end Valid

theorem mem_successors {succs : List BlockId} (h : body.successors bb = .ok succs) :
    succ ∈ succs ↔ body.Edge bb succ := by
  obtain ⟨b, hb, h⟩ := except_bind_eq_ok.1 h
  obtain ⟨targets, htargets, h⟩ := except_bind_eq_ok.1 h
  obtain ⟨edges, hedges, htargets⟩ := except_bind_eq_ok.1 htargets
  cases h
  cases htargets
  rw [mem_distinct, List.mem_map]
  constructor
  · rintro ⟨⟨_, kind⟩, hmem, rfl⟩
    exact ⟨b, edges, kind, hb, hedges, hmem⟩
  · rintro ⟨b', edges', kind, hb', hedges', hmem⟩
    cases hb.symm.trans hb'
    cases hedges.symm.trans hedges'
    exact ⟨(succ, kind), hmem, rfl⟩

/-! ### Edges with their kinds -/

theorem Valid.exists_edges (hv : body.Valid) : ∃ edges, body.edges = .ok edges := by
  have hall : ∀ src ∈ body.blockIds, ∃ found : List (BlockId × BlockId × EdgeKind), (do
      return (← (← body.block src).terminator.edges).map (Prod.mk src)) = Except.ok found := by
    intro src hsrc
    obtain ⟨b, edges, hb, hedges, _⟩ := hv.edges (mem_blockIds.1 hsrc)
    exact ⟨_, except_bind_eq_ok.2 ⟨b, hb, except_bind_eq_ok.2 ⟨edges, hedges, rfl⟩⟩⟩
  obtain ⟨found, hfound⟩ := exists_mapM_eq_ok hall
  exact ⟨_, except_bind_eq_ok.2 ⟨found, hfound, rfl⟩⟩

theorem mem_edges {edges : List (BlockId × BlockId × EdgeKind)} (h : body.edges = .ok edges)
    {src dst : BlockId} {kind : EdgeKind} :
    (src, dst, kind) ∈ edges ↔ body.hasBlock src = true ∧ ∃ b out, body.block src = .ok b ∧
      b.terminator.edges = .ok out ∧ (dst, kind) ∈ out := by
  obtain ⟨found, hfound, hflatten⟩ := except_bind_eq_ok.1 h
  cases hflatten
  rw [List.mem_flatten]
  constructor
  · rintro ⟨es, hes, hmem⟩
    obtain ⟨src', hsrc, hes⟩ := mem_of_mapM_eq_ok hfound hes
    obtain ⟨b, hb, hes⟩ := except_bind_eq_ok.1 hes
    obtain ⟨out, hout, hes⟩ := except_bind_eq_ok.1 hes
    cases hes
    obtain ⟨⟨dst', kind'⟩, hmem, heq⟩ := List.mem_map.1 hmem
    cases heq
    exact ⟨mem_blockIds.1 hsrc, b, out, hb, hout, hmem⟩
  · rintro ⟨hsrc, b, out, hb, hout, hmem⟩
    obtain ⟨es, hes, hfound⟩ := exists_of_mapM_eq_ok hfound (mem_blockIds.2 hsrc)
    obtain ⟨b', hb', hfound⟩ := except_bind_eq_ok.1 hfound
    cases hb.symm.trans hb'
    obtain ⟨out', hout', hfound⟩ := except_bind_eq_ok.1 hfound
    cases hout.symm.trans hout'
    cases hfound
    exact ⟨_, hes, List.mem_map.2 ⟨(dst, kind), hmem, rfl⟩⟩

/-! ### Predecessors -/

theorem nodup_successors {succs : List BlockId} (h : body.successors bb = .ok succs) :
    succs.Nodup := by
  obtain ⟨b, _, h⟩ := except_bind_eq_ok.1 h
  obtain ⟨targets, _, h⟩ := except_bind_eq_ok.1 h
  cases h
  exact nodup_distinct targets

def leadsTo (body : Body) (dst src : BlockId) : Bool :=
  match body.successors src with
  | .ok succs => succs.contains dst
  | .error _ => false

theorem leadsTo_eq {src : BlockId} {succs : List BlockId} (h : body.successors src = .ok succs)
    (dst : BlockId) : body.leadsTo dst src = succs.contains dst := by
  rw [leadsTo, h]

theorem leadsTo_iff {src dst : BlockId} : body.leadsTo dst src = true ↔ body.Edge src dst := by
  cases h : body.successors src with
  | ok succs => rw [leadsTo_eq h, List.contains_iff_mem, mem_successors h]
  | error f =>
    rw [leadsTo, h]
    refine ⟨fun hfalse => (by cases hfalse), fun he => ?_⟩
    obtain ⟨b, edges, _, hb, hedges, _⟩ := he
    obtain ⟨succs, hsuccs⟩ := exists_successors_of_block hb hedges
    cases h.symm.trans hsuccs

/-! A table is read as a function from blocks to lists, so that entering a block for its successors
is an update of this function. -/

theorem predecessorsIn_map (body : Body) (f : BlockId → List BlockId) (bb : Int) :
    predecessorsIn (body.blockIds.map f) bb =
      if body.hasBlock bb then .ok (f bb) else .error (.noPredecessors bb) := by
  rw [predecessorsIn]
  by_cases hbb : body.hasBlock bb = true
  · obtain ⟨hnonneg, hlt⟩ := hasBlock_iff.1 hbb
    have hpos : bb.toNat < body.size := by omega
    have hget : body.blockIds[bb.toNat]? = some bb := by
      rw [blockIds, List.getElem?_map, List.getElem?_range hpos]
      exact congrArg some (Int.toNat_of_nonneg hnonneg)
    rw [if_neg (Int.not_lt.2 hnonneg), List.getElem?_map, hget, if_pos hbb]
    rfl
  · rw [if_neg hbb]
    by_cases hneg : bb < 0
    · rw [if_pos hneg]
    · have hge : body.size ≤ bb.toNat := by
        rw [hasBlock_iff] at hbb
        omega
      have hnone : (body.blockIds.map f)[bb.toNat]? = none := by
        rw [List.getElem?_eq_none_iff, List.length_map, blockIds, List.length_map,
          List.length_range]
        exact hge
      rw [if_neg hneg, hnone]

theorem set_map_blockIds (f : BlockId → List BlockId) (hbb : body.hasBlock bb = true)
    (preds : List BlockId) :
    (body.blockIds.map f).set bb.toNat preds =
      body.blockIds.map (Function.update f bb preds) := by
  obtain ⟨hnonneg, hlt⟩ := hasBlock_iff.1 hbb
  refine List.ext_getElem? fun i => ?_
  simp only [List.getElem?_set, List.length_map, blockIds, List.length_range, List.getElem?_map]
  by_cases hi : i < body.size
  · rw [List.getElem?_range hi]
    by_cases hib : bb.toNat = i
    · have hbi : (i : Int) = bb := by omega
      simp [hib, hi, hbi]
    · have hbi : (i : Int) ≠ bb := by omega
      simp [hib, Function.update_of_ne hbi]
  · have hib : bb.toNat ≠ i := by omega
    have hnone : (List.range body.size)[i]? = none := by simpa using hi
    simp [hib, hnone]

theorem addPredecessor_map (f : BlockId → List BlockId) (src dst : BlockId) :
    addPredecessor src (body.blockIds.map f) dst =
      if body.hasBlock dst then
        .ok (body.blockIds.map (Function.update f dst (f dst ++ [src])))
      else .error (.noPredecessors dst) := by
  rw [addPredecessor, predecessorsIn_map]
  split
  · next hdst =>
    change Except.ok _ = Except.ok _
    rw [set_map_blockIds f hdst]
  · rfl

/-- Entering a block for its successors succeeds if these are blocks, and enters it once for each:
no successor is named twice. -/
theorem foldlM_addPredecessor_eq_ok_iff {f : BlockId → List BlockId} {src : BlockId}
    {succs : List BlockId} (hnodup : succs.Nodup) {table : List (List BlockId)} :
    succs.foldlM (addPredecessor src) (body.blockIds.map f) = .ok table ↔
      (∀ dst ∈ succs, body.hasBlock dst = true) ∧
        table = body.blockIds.map fun bb => if bb ∈ succs then f bb ++ [src] else f bb := by
  induction succs generalizing f with
  | nil =>
    change Except.ok _ = Except.ok table ↔ _
    simp [eq_comm (b := table)]
  | cons dst succs ih =>
    obtain ⟨hnew, hnodup⟩ := List.nodup_cons.1 hnodup
    rw [List.foldlM_cons, addPredecessor_map, List.forall_mem_cons]
    by_cases hdst : body.hasBlock dst = true
    · have hcases : (fun bb => if bb ∈ succs then Function.update f dst (f dst ++ [src]) bb ++ [src]
          else Function.update f dst (f dst ++ [src]) bb) =
          fun bb => if bb ∈ dst :: succs then f bb ++ [src] else f bb := by
        funext bb
        by_cases hbb : bb = dst
        · subst hbb
          simp [hnew]
        · simp [hbb]
      rw [if_pos hdst]
      change succs.foldlM (addPredecessor src) _ = Except.ok table ↔ _
      rw [ih hnodup, hcases]
      simp [hdst]
    · rw [if_neg hdst]
      exact ⟨fun h => (by cases h), fun h => absurd h.1.1 hdst⟩

theorem exists_of_foldlM_addPredecessor {f : BlockId → List BlockId} {src : BlockId}
    {succs : List BlockId} {e : Fault}
    (h : succs.foldlM (addPredecessor src) (body.blockIds.map f) = .error e) :
    ∃ dst ∈ succs, body.hasBlock dst = false ∧ e = .noPredecessors dst := by
  induction succs generalizing f with
  | nil => cases h
  | cons dst succs ih =>
    rw [List.foldlM_cons, addPredecessor_map] at h
    cases hdst : body.hasBlock dst with
    | true =>
      rw [if_pos hdst] at h
      obtain ⟨dst', hmem, hdst'⟩ := ih h
      exact ⟨dst', List.mem_cons_of_mem dst hmem, hdst'⟩
    | false =>
      rw [if_neg (by simp [hdst])] at h
      cases h
      exact ⟨dst, List.mem_cons_self, hdst, rfl⟩

def LeadsInside (body : Body) (src : BlockId) : Prop :=
  ∃ succs, body.successors src = .ok succs ∧ ∀ dst ∈ succs, body.hasBlock dst = true

theorem enterBlock_eq_ok_iff {f : BlockId → List BlockId} {src : BlockId}
    {table : List (List BlockId)} :
    body.enterBlock (body.blockIds.map f) src = .ok table ↔ body.LeadsInside src ∧
      table = body.blockIds.map fun bb => f bb ++ [src].filter (body.leadsTo bb) := by
  rw [enterBlock, except_bind_eq_ok, LeadsInside, ← exists_and_right]
  refine exists_congr fun succs => ?_
  rw [and_assoc]
  refine and_congr_right fun hsuccs => ?_
  have hcases : (fun bb => if bb ∈ succs then f bb ++ [src] else f bb) =
      fun bb => f bb ++ [src].filter (body.leadsTo bb) := by
    funext bb
    by_cases hbb : bb ∈ succs <;> simp [leadsTo_eq hsuccs, hbb]
  rw [foldlM_addPredecessor_eq_ok_iff (nodup_successors hsuccs), hcases]

theorem foldlM_enterBlock_eq_ok_iff {f : BlockId → List BlockId} {srcs : List BlockId}
    {table : List (List BlockId)} :
    srcs.foldlM body.enterBlock (body.blockIds.map f) = .ok table ↔
      (∀ src ∈ srcs, body.LeadsInside src) ∧
        table = body.blockIds.map fun bb => f bb ++ srcs.filter (body.leadsTo bb) := by
  induction srcs generalizing f with
  | nil =>
    change Except.ok _ = Except.ok table ↔ _
    simp [eq_comm (b := table)]
  | cons src srcs ih =>
    rw [List.foldlM_cons, except_bind_eq_ok, List.forall_mem_cons]
    have hcons : ∀ bb, (f bb ++ [src].filter (body.leadsTo bb)) ++ srcs.filter (body.leadsTo bb) =
        f bb ++ (src :: srcs).filter (body.leadsTo bb) := by
      intro bb
      rw [List.append_assoc, ← List.filter_append, List.singleton_append]
    constructor
    · rintro ⟨table', htable', htable⟩
      obtain ⟨hsrc, rfl⟩ := enterBlock_eq_ok_iff.1 htable'
      obtain ⟨hsrcs, rfl⟩ := ih.1 htable
      exact ⟨⟨hsrc, hsrcs⟩, by simp only [hcons]⟩
    · rintro ⟨⟨hsrc, hsrcs⟩, rfl⟩
      refine ⟨_, enterBlock_eq_ok_iff.2 ⟨hsrc, rfl⟩, ih.2 ⟨hsrcs, ?_⟩⟩
      simp only [hcons]

theorem replicate_eq_map_blockIds (body : Body) :
    List.replicate body.size [] = body.blockIds.map fun _ => ([] : List BlockId) := by
  rw [List.map_const', blockIds, List.length_map, List.length_range]

/-- There is a predecessor table exactly if all edges lead to blocks, and it lists for every block
those of which it is a successor. -/
theorem predecessorTable_eq_ok_iff {table : List (List BlockId)} :
    body.predecessorTable = .ok table ↔ (∀ src ∈ body.blockIds, body.LeadsInside src) ∧
      table = body.blockIds.map fun bb => body.blockIds.filter (body.leadsTo bb) := by
  rw [predecessorTable, replicate_eq_map_blockIds, foldlM_enterBlock_eq_ok_iff]
  rfl

theorem Valid.exists_predecessorTable (hv : body.Valid) :
    ∃ table, body.predecessorTable = .ok table := by
  refine ⟨_, predecessorTable_eq_ok_iff.2 ⟨fun src hsrc => ?_, rfl⟩⟩
  have hsrc := mem_blockIds.1 hsrc
  obtain ⟨succs, hsuccs⟩ := hv.exists_successors hsrc
  exact ⟨succs, hsuccs, fun dst hdst => hv.hasBlock_of_edge hsrc ((mem_successors hsuccs).1 hdst)⟩

/-- The predecessors of a block are the blocks with an edge to it. -/
theorem exists_predecessorsIn {table : List (List BlockId)}
    (h : body.predecessorTable = .ok table) (hbb : body.hasBlock bb = true) :
    ∃ preds, predecessorsIn table bb = .ok preds ∧
      ∀ {pred}, pred ∈ preds ↔ body.hasBlock pred = true ∧ body.Edge pred bb := by
  obtain ⟨_, rfl⟩ := predecessorTable_eq_ok_iff.1 h
  rw [predecessorsIn_map, if_pos hbb]
  refine ⟨_, rfl, fun {pred} => ?_⟩
  rw [List.mem_filter, mem_blockIds, leadsTo_iff]

/-! ### Counting edges -/

def degree (body : Body) (bb : BlockId) : Nat :=
  match body.successors bb with
  | .ok succs => succs.length
  | .error _ => 0

theorem edgeCount_eq (h : ∀ bb ∈ body.blockIds, ∃ succs, body.successors bb = .ok succs) :
    body.edgeCount = .ok (body.blockIds.map body.degree).sum := by
  have hall : ∀ bb ∈ body.blockIds, (do return (← body.successors bb).length : Except Fault Nat) =
      .ok (body.degree bb) := by
    intro bb hbb
    obtain ⟨succs, hsuccs⟩ := h bb hbb
    rw [degree, hsuccs]
    rfl
  have hcounts : (body.blockIds.mapM fun bb => do return (← body.successors bb).length) =
      .ok (body.blockIds.map body.degree) := by
    refine mapM_eq_ok_iff.2 ?_
    rw [List.forall₂_map_right_iff, List.forall₂_same]
    exact hall
  rw [edgeCount, hcounts, List.sum_eq_foldl]
  rfl

theorem Valid.edgeCount (hv : body.Valid) :
    body.edgeCount = .ok (body.blockIds.map body.degree).sum :=
  edgeCount_eq fun _ hbb => hv.exists_successors (mem_blockIds.1 hbb)

end Body

end MayTaint
