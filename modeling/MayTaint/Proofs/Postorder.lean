import MayTaint.Proofs.Graph
import Mathlib.Logic.Relation

/-!
The reverse postorder of a valid body. The search that computes it goes down from a block into those
successors that it has not met, and finishes the block afterwards. What a search from some roots
adds is said once, for one root and for a list of them alike: the blocks that it finishes are the
ones that it meets, none of them was met before, and every edge out of them leads to a block that is
met. From nothing, and from the entry, such a search finishes exactly the blocks that can be
reached.

An edge out of a finished block points forward in the order, or to a block that leads back, or to a
block that was open when the search began: met, but not finished. What is open below a block leads
to it, so that finishing a block closes the edges to it from below, and a search from nothing has no
edges of the third kind.

The search has fuel for as many blocks as can lie on top of each other. Each of these is met when
the next one is entered, so that the fuel lasts as long as it exceeds the number of blocks not yet
met. A search that keeps its open blocks on a stack and needs no fuel does the same on every body.
-/

namespace MayTaint

open Relation (ReflTransGen TransGen)

namespace Body

variable {body : Body} {bb u v : BlockId} {order roots roots' new new' : List BlockId}
  {s s' s'' : Search}

/-- What a search from the roots adds: the blocks `new`, the one finished last first. -/
structure Searched (body : Body) (roots : List BlockId) (s : Search) (new : List BlockId)
    (s' : Search) : Prop where
  finished : s'.finished = new ++ s.finished
  met : ∀ {b}, b ∈ s'.met ↔ b ∈ new ∨ b ∈ s.met
  fresh : ∀ {b}, b ∈ new → b ∉ s.met
  nodup : new.Nodup
  root : ∀ {b}, b ∈ roots → b ∈ s'.met
  closed : ∀ {b succ}, b ∈ new → body.Edge b succ → succ ∈ s'.met
  source : ∀ {b}, b ∈ new → ∃ root ∈ roots, ReflTransGen body.Edge root b
  ordered : ∀ {b succ}, b ∈ new → body.Edge b succ →
    [b, succ].Sublist s'.finished ∨ ReflTransGen body.Edge succ b ∨ succ ∈ s.met ∧ succ ∉ s.finished

/-- A search that meets nothing but what was met before. -/
theorem searched_nil (h : ∀ b ∈ roots, b ∈ s.met) : body.Searched roots s [] s where
  finished := rfl
  met := by simp
  fresh := by simp
  nodup := List.nodup_nil
  root hb := h _ hb
  closed := by simp
  source := by simp
  ordered := by simp

/-- One search after the other. -/
theorem Searched.append (h : body.Searched roots s new s') (h' : body.Searched roots' s' new' s'') :
    body.Searched (roots ++ roots') s (new' ++ new) s'' where
  finished := by rw [h'.finished, h.finished, List.append_assoc]
  met := by
    intro b
    rw [h'.met, h.met, List.mem_append, or_assoc]
  fresh := by
    intro b hb hmet
    rcases List.mem_append.1 hb with hb | hb
    · exact h'.fresh hb (h.met.2 (.inr hmet))
    · exact h.fresh hb hmet
  nodup := by
    refine List.nodup_append'.2 ⟨h'.nodup, h.nodup, fun b hb' hb => ?_⟩
    exact h'.fresh hb' (h.met.2 (.inl hb))
  root := by
    intro b hb
    rcases List.mem_append.1 hb with hb | hb
    · exact h'.met.2 (.inr (h.root hb))
    · exact h'.root hb
  closed := by
    intro b succ hb he
    rcases List.mem_append.1 hb with hb | hb
    · exact h'.closed hb he
    · exact h'.met.2 (.inr (h.closed hb he))
  source := by
    intro b hb
    rcases List.mem_append.1 hb with hb | hb
    · obtain ⟨root, hroot, hpath⟩ := h'.source hb
      exact ⟨root, List.mem_append_right _ hroot, hpath⟩
    · obtain ⟨root, hroot, hpath⟩ := h.source hb
      exact ⟨root, List.mem_append_left _ hroot, hpath⟩
  ordered := by
    intro b succ hb he
    rcases List.mem_append.1 hb with hb | hb
    · rcases h'.ordered hb he with hafter | hback | ⟨hmet, hopen⟩
      · exact .inl hafter
      · exact .inr (.inl hback)
      · -- what is open after the first search was open before it
        rw [h.finished, List.mem_append, not_or] at hopen
        exact .inr (.inr ⟨(h.met.1 hmet).resolve_left hopen.1, hopen.2⟩)
    · refine (h.ordered hb he).imp_left fun hafter => ?_
      rw [h'.finished]
      exact hafter.trans (List.sublist_append_right _ _)

/-- A search from a block that was not met: first from its successors, then it finishes the
block. -/
theorem Searched.finish {succs : List BlockId} (hsuccs : body.successors bb = .ok succs)
    (hnew : bb ∉ s.met) (h : body.Searched succs ⟨bb :: s.met, s.finished⟩ new s') :
    body.Searched [bb] s (bb :: new) ⟨s'.met, bb :: s'.finished⟩ where
  finished := by rw [h.finished, List.cons_append]
  met := by
    intro b
    rw [h.met, List.mem_cons, List.mem_cons]
    tauto
  fresh := by
    intro b hb
    rcases List.mem_cons.1 hb with rfl | hb
    · exact hnew
    · exact fun hmet => h.fresh hb (List.mem_cons_of_mem bb hmet)
  nodup := List.nodup_cons.2 ⟨fun hb => h.fresh hb List.mem_cons_self, h.nodup⟩
  root := by
    intro b hb
    rw [List.mem_singleton.1 hb]
    exact h.met.2 (.inr List.mem_cons_self)
  closed := by
    intro b succ hb he
    rcases List.mem_cons.1 hb with rfl | hb
    · exact h.root ((mem_successors hsuccs).2 he)
    · exact h.closed hb he
  source := by
    intro b hb
    refine ⟨bb, List.mem_singleton_self bb, ?_⟩
    rcases List.mem_cons.1 hb with rfl | hb
    · exact .refl
    · obtain ⟨root, hroot, hpath⟩ := h.source hb
      exact .head ((mem_successors hsuccs).1 hroot) hpath
  ordered := by
    intro b succ hb he
    rcases List.mem_cons.1 hb with rfl | hbelow
    · have hsucc := h.met.1 (h.root ((mem_successors hsuccs).2 he))
      rw [List.mem_cons] at hsucc
      rcases hsucc with hsucc | rfl | hsucc
      · left
        have hmem : succ ∈ s'.finished := h.finished ▸ List.mem_append_left _ hsucc
        exact .cons_cons b (List.singleton_sublist.2 hmem)
      · exact .inr (.inl .refl)
      · by_cases hmem : succ ∈ s.finished
        · left
          have hmem : succ ∈ s'.finished := h.finished ▸ List.mem_append_right _ hmem
          exact .cons_cons b (List.singleton_sublist.2 hmem)
        · exact .inr (.inr ⟨hsucc, hmem⟩)
    · rcases h.ordered hbelow he with hafter | hback | ⟨hmet, hopen⟩
      · exact .inl (hafter.cons bb)
      · exact .inr (.inl hback)
      · rcases List.mem_cons.1 hmet with rfl | hmet
        · -- the block is above all that is searched from its successors
          obtain ⟨root, hroot, hpath⟩ := h.source hbelow
          exact .inr (.inl (.head ((mem_successors hsuccs).1 hroot) hpath))
        · exact .inr (.inr ⟨hmet, hopen⟩)

def unmet (ids met : List BlockId) : Nat :=
  (ids.filter fun b => !met.contains b).length

theorem unmet_le {ids met met' : List BlockId} (h : met ⊆ met') :
    unmet ids met' ≤ unmet ids met := by
  apply List.Sublist.length_le
  apply List.monotone_filter_right
  intro b hb
  simp only [Bool.not_eq_true', List.contains_eq_mem, decide_eq_false_iff_not] at hb ⊢
  exact fun hmet => hb (h hmet)

theorem unmet_cons_lt {ids met : List BlockId} (hbb : bb ∈ ids) (hnew : bb ∉ met) :
    unmet ids (bb :: met) < unmet ids met := by
  have hfilter : ids.filter (fun b => !(bb :: met).contains b) =
      (ids.filter fun b => !met.contains b).filter fun b => decide (b ≠ bb) := by
    rw [List.filter_filter]
    apply List.filter_congr
    intro b _
    simp
  rw [unmet, hfilter, unmet, List.length_filter_lt_length_iff_exists]
  refine ⟨bb, List.mem_filter.2 ⟨hbb, ?_⟩, by simp⟩
  simpa using hnew

theorem search_of_met {fuel : Nat} (h : bb ∈ s.met) : body.search fuel bb s = .ok s := by
  cases fuel with
  | zero => rfl
  | succ fuel => simp [search, h, pure, Except.pure]

theorem search_of_not_met {fuel : Nat} (h : bb ∉ s.met) : body.search (fuel + 1) bb s = do
    let s ← (← body.successors bb).foldlM (fun s target => body.search fuel target s)
      ⟨bb :: s.met, s.finished⟩
    return ⟨s.met, bb :: s.finished⟩ := by
  simp [search, h]

theorem exists_foldlM_search {fuel : Nat} {targets : List BlockId}
    (ih : ∀ {bb s}, body.hasBlock bb = true → unmet body.blockIds s.met < fuel →
      ∃ new s', body.search fuel bb s = .ok s' ∧ body.Searched [bb] s new s')
    (htargets : ∀ b ∈ targets, body.hasBlock b = true) (hfuel : unmet body.blockIds s.met < fuel) :
    ∃ new s', targets.foldlM (fun s target => body.search fuel target s) s = .ok s' ∧
      body.Searched targets s new s' := by
  induction targets generalizing s with
  | nil => exact ⟨[], s, rfl, searched_nil (by simp)⟩
  | cons target targets ihs =>
    obtain ⟨new, s₁, hs₁, h₁⟩ := ih (htargets target List.mem_cons_self) hfuel
    have hfuel₁ : unmet body.blockIds s₁.met < fuel := by
      refine lt_of_le_of_lt (unmet_le fun b hb => ?_) hfuel
      exact h₁.met.2 (.inr hb)
    obtain ⟨new', s', hs', h'⟩ := ihs (fun b hb => htargets b (List.mem_cons_of_mem _ hb)) hfuel₁
    refine ⟨new' ++ new, s', ?_, h₁.append h'⟩
    rw [List.foldlM_cons]
    exact except_bind_eq_ok.2 ⟨s₁, hs₁, hs'⟩

/-- A search with enough fuel returns, and adds what a search has to add. -/
theorem Valid.exists_search (hv : body.Valid) {fuel : Nat} (hbb : body.hasBlock bb = true)
    (hfuel : unmet body.blockIds s.met < fuel) :
    ∃ new s', body.search fuel bb s = .ok s' ∧ body.Searched [bb] s new s' := by
  induction fuel generalizing bb s with
  | zero => omega
  | succ fuel ih =>
    by_cases hmet : bb ∈ s.met
    · exact ⟨[], s, search_of_met hmet, searched_nil (by simpa using hmet)⟩
    · obtain ⟨succs, hsuccs⟩ := hv.exists_successors hbb
      have hblocks : ∀ b ∈ succs, body.hasBlock b = true := fun b hb =>
        hv.hasBlock_of_edge hbb ((mem_successors hsuccs).1 hb)
      have hless := unmet_cons_lt (mem_blockIds.2 hbb) hmet
      obtain ⟨new, s', hs', h⟩ := exists_foldlM_search (s := ⟨bb :: s.met, s.finished⟩) ih hblocks
        (by simpa using (by omega : unmet body.blockIds (bb :: s.met) < fuel))
      refine ⟨bb :: new, _, ?_, h.finish hsuccs hmet⟩
      rw [search_of_not_met hmet]
      exact except_bind_eq_ok.2 ⟨succs, hsuccs, except_bind_eq_ok.2 ⟨s', hs', rfl⟩⟩

theorem head?_finished_of_search {fuel : Nat} (hnew : bb ∉ s.met)
    (h : body.search (fuel + 1) bb s = .ok s') : s'.finished.head? = some bb := by
  rw [search_of_not_met hnew] at h
  obtain ⟨succs, _, h⟩ := except_bind_eq_ok.1 h
  obtain ⟨t, _, h⟩ := except_bind_eq_ok.1 h
  cases h
  rfl

/-- The reverse postorder is what a search from nothing and from the entry adds. -/
theorem Valid.searched_reversePostorder (hv : body.Valid) :
    ∃ order s', body.reversePostorder = .ok order ∧ order.head? = some Body.entry ∧
      body.Searched [Body.entry] ⟨[], []⟩ order s' := by
  have hfuel : unmet body.blockIds [] < 2 * body.size + 1 := by
    have hle : unmet body.blockIds [] ≤ body.blockIds.length := List.length_filter_le ..
    have hlength : body.blockIds.length = body.size := by simp [blockIds]
    omega
  obtain ⟨order, s', hs', h⟩ := hv.exists_search (s := ⟨[], []⟩) hv.hasBlock_entry hfuel
  have hfinished : s'.finished = order := by simpa using h.finished
  refine ⟨order, s', except_bind_eq_ok.2 ⟨s', hs', congrArg _ hfinished⟩, ?_, h⟩
  rw [← hfinished]
  exact head?_finished_of_search (by simp) hs'

theorem Reachable.trans (h : body.Reachable u) (hpath : ReflTransGen body.Edge u v) :
    body.Reachable v := by
  induction hpath with
  | refl => exact h
  | tail _ he ih => exact ih.step he

/-- The reverse postorder lists exactly the blocks that can be reached, each of them once. -/
theorem Valid.exists_reversePostorder (hv : body.Valid) :
    ∃ order, body.reversePostorder = .ok order ∧ order.Nodup ∧
      ∀ bb, bb ∈ order ↔ body.Reachable bb := by
  obtain ⟨order, s', horder, _, h⟩ := hv.searched_reversePostorder
  have hmet : ∀ {b}, b ∈ s'.met ↔ b ∈ order := by simpa using @h.met
  refine ⟨order, horder, h.nodup, fun bb => ?_⟩
  constructor
  · intro hbb
    obtain ⟨root, hroot, hpath⟩ := h.source hbb
    rw [List.mem_singleton.1 hroot] at hpath
    exact Reachable.entry.trans hpath
  · rintro ⟨path, hpath⟩
    -- the order begins with the entry and is closed under edges
    induction hpath with
    | entry => exact hmet.1 (h.root List.mem_cons_self)
    | step _ he ih => exact hmet.1 (h.closed ih he)

/-- An edge out of a block of the reverse postorder points forward or to a block that leads back. -/
theorem Valid.forward_or_back (hv : body.Valid) (horder : body.reversePostorder = .ok order)
    (hu : u ∈ order) (he : body.Edge u v) : [u, v].Sublist order ∨ ReflTransGen body.Edge v u := by
  obtain ⟨order', s', horder', _, h⟩ := hv.searched_reversePostorder
  cases horder.symm.trans horder'
  have hfinished : s'.finished = order := by simpa using h.finished
  rcases h.ordered hu he with hafter | hback | ⟨hmet, _⟩
  · exact .inl (hfinished ▸ hafter)
  · exact .inr hback
  · cases hmet

theorem Valid.head?_reversePostorder (hv : body.Valid)
    (horder : body.reversePostorder = .ok order) :
    order.head? = some Body.entry := by
  obtain ⟨order', _, horder', hhead, _⟩ := hv.searched_reversePostorder
  cases horder.symm.trans horder'
  exact hhead

/-! ### The same search with a stack of its own -/

/-- The blocks that a search has entered and not finished, the last one first, each with the
successors that have not been looked at yet. -/
abbrev Stack := List (BlockId × List BlockId)

/-- One turn of a search that keeps a stack: the next successor of the topmost block is entered
unless it was met, and a block without further successors is finished. -/
def turn (body : Body) : Stack × Search → Except Fault (Stack × Search)
  | ([], s) => .ok ([], s)
  | ((bb, []) :: rest, s) => .ok (rest, ⟨s.met, bb :: s.finished⟩)
  | ((bb, succ :: succs) :: rest, s) =>
    if s.met.contains succ then .ok ((bb, succs) :: rest, s)
    else do
      let below ← body.successors succ
      return ((succ, below) :: (bb, succs) :: rest, ⟨succ :: s.met, s.finished⟩)

def turns (body : Body) : Nat → Stack × Search → Except Fault (Stack × Search)
  | 0, x => .ok x
  | n + 1, x => body.turn x >>= body.turns n

def stackSearch (body : Body) (n : Nat) : Except Fault (Stack × Search) := do
  body.turns n ([(entry, ← body.successors entry)], ⟨[entry], []⟩)

/-- The numbers of the blocks, counted from either end. -/
def numbers (body : Body) : List BlockId :=
  (List.range (2 * body.size)).map fun k : Nat => (k : Int) - body.size

theorem mem_numbers_of_successors {succs : List BlockId} (h : body.successors bb = .ok succs) :
    bb ∈ body.numbers := by
  obtain ⟨b, hb, _⟩ := except_bind_eq_ok.1 h
  obtain ⟨hlow, hhigh⟩ := bounds_of_elementAt hb
  rw [← size] at hlow hhigh
  have hnumber : ((bb + body.size).toNat : Int) = bb + body.size :=
    Int.toNat_of_nonneg (by omega)
  refine List.mem_map.2 ⟨(bb + body.size).toNat, List.mem_range.2 (by omega), ?_⟩
  rw [hnumber, Int.add_sub_cancel]

theorem turns_add (m n : Nat) (x : Stack × Search) :
    body.turns (m + n) x = body.turns m x >>= body.turns n := by
  induction m generalizing x with
  | zero => rw [Nat.zero_add]; rfl
  | succ m ih =>
    rw [Nat.add_right_comm, turns, turns]
    cases body.turn x with
    | error f => rfl
    | ok y => exact ih y

theorem met_subset_of_foldlM {fuel : Nat} {targets : List BlockId}
    (ih : ∀ {bb s s'}, body.search fuel bb s = .ok s' → s.met ⊆ s'.met)
    (h : targets.foldlM (fun s target => body.search fuel target s) s = .ok s') :
    s.met ⊆ s'.met := by
  induction targets generalizing s with
  | nil =>
    cases h
    exact List.Subset.refl _
  | cons target targets ihs =>
    rw [List.foldlM_cons] at h
    obtain ⟨s₁, hs₁, hrest⟩ := except_bind_eq_ok.1 h
    exact List.Subset.trans (ih hs₁) (ihs hrest)

theorem met_subset_of_search {fuel : Nat} (h : body.search fuel bb s = .ok s') :
    s.met ⊆ s'.met := by
  induction fuel generalizing bb s s' with
  | zero =>
    cases h
    exact List.Subset.refl _
  | succ fuel ih =>
    by_cases hmet : bb ∈ s.met
    · rw [search_of_met hmet] at h
      cases h
      exact List.Subset.refl _
    · rw [search_of_not_met hmet] at h
      obtain ⟨targets, _, h⟩ := except_bind_eq_ok.1 h
      obtain ⟨s₁, hfold, h⟩ := except_bind_eq_ok.1 h
      cases h
      exact fun b hb => met_subset_of_foldlM ih hfold (List.mem_cons_of_mem bb hb)

/-- Going through the successors of the topmost block takes some turns, provided that entering one
of them does. -/
theorem exists_turns_targets {fuel : Nat}
    (ih : ∀ {bb succs s} (rest : Stack), bb ∉ s.met → body.successors bb = .ok succs →
      unmet body.numbers s.met < fuel → ∃ n,
        body.turns n ((bb, succs) :: rest, ⟨bb :: s.met, s.finished⟩) =
          (body.search fuel bb s).map fun s' => (rest, s'))
    (hfuel : unmet body.numbers s.met < fuel) (bb : BlockId) (targets : List BlockId)
    (rest : Stack) :
    ∃ n, body.turns n ((bb, targets) :: rest, s) =
      (targets.foldlM (fun s target => body.search fuel target s) s).map fun s' =>
        (rest, ⟨s'.met, bb :: s'.finished⟩) := by
  induction targets generalizing s with
  | nil => exact ⟨1, rfl⟩
  | cons target targets ihs =>
    rw [List.foldlM_cons]
    by_cases hmet : target ∈ s.met
    · obtain ⟨n, hn⟩ := ihs hfuel
      have hturn : body.turn ((bb, target :: targets) :: rest, s) =
          .ok ((bb, targets) :: rest, s) := by
        simp [turn, hmet]
      refine ⟨n + 1, ?_⟩
      rw [turns, hturn, search_of_met hmet]
      exact hn
    · have hturn : body.turn ((bb, target :: targets) :: rest, s) = do
          let below ← body.successors target
          return ((target, below) :: (bb, targets) :: rest, ⟨target :: s.met, s.finished⟩) := by
        simp [turn, hmet]
      cases hsuccs : body.successors target with
      | error f =>
        -- there is fuel left, so that the search fails here as well
        obtain ⟨fuel, rfl⟩ : ∃ k, fuel = k + 1 := Nat.exists_eq_add_one.2 (by omega)
        refine ⟨1, ?_⟩
        rw [turns, hturn, search_of_not_met hmet, hsuccs]
        rfl
      | ok below =>
        obtain ⟨n, hn⟩ := ih ((bb, targets) :: rest) hmet hsuccs hfuel
        rw [hsuccs] at hturn
        cases hsearch : body.search fuel target s with
        | error f =>
          rw [hsearch] at hn
          refine ⟨n + 1, ?_⟩
          rw [turns, hturn]
          exact hn
        | ok s₁ =>
          rw [hsearch] at hn
          have hfuel₁ := (unmet_le (met_subset_of_search hsearch)).trans_lt hfuel
          obtain ⟨m, hm⟩ := ihs hfuel₁
          refine ⟨n + m + 1, ?_⟩
          rw [turns, hturn]
          change body.turns (n + m) _ = _
          rw [turns_add, hn]
          exact hm

/-- Entering a block and coming back to what was below it on the stack does what a search from that
block does. -/
theorem exists_turns_search {fuel : Nat} {succs : List BlockId} (rest : Stack) (hnew : bb ∉ s.met)
    (hsuccs : body.successors bb = .ok succs) (hfuel : unmet body.numbers s.met < fuel) :
    ∃ n, body.turns n ((bb, succs) :: rest, ⟨bb :: s.met, s.finished⟩) =
      (body.search fuel bb s).map fun s' => (rest, s') := by
  induction fuel generalizing bb succs s rest with
  | zero => omega
  | succ fuel ih =>
    have hless := unmet_cons_lt (mem_numbers_of_successors hsuccs) hnew
    obtain ⟨n, hn⟩ := exists_turns_targets (s := ⟨bb :: s.met, s.finished⟩) ih
      (by simpa using (by omega : unmet body.numbers (bb :: s.met) < fuel)) bb succs rest
    refine ⟨n, hn.trans ?_⟩
    rw [search_of_not_met hnew, hsuccs]
    change _ = Except.map _ (succs.foldlM (fun s target => body.search fuel target s)
      ⟨bb :: s.met, s.finished⟩ >>= fun s => pure (⟨s.met, bb :: s.finished⟩ : Search))
    cases succs.foldlM (fun s target => body.search fuel target s) ⟨bb :: s.met, s.finished⟩ <;> rfl

/-- The search with a stack comes to an end on every body, valid or not, and its order is the
reverse postorder; where the one fails the other does. -/
theorem reversePostorder_eq_stackSearch (body : Body) :
    ∃ n, body.reversePostorder = (body.stackSearch n).map (·.2.finished) ∧
      ∀ x, body.stackSearch n = .ok x → x.1 = [] := by
  have hnew : entry ∉ (⟨[], []⟩ : Search).met := by simp
  cases hsuccs : body.successors entry with
  | error f =>
    refine ⟨0, ?_, ?_⟩
    · rw [reversePostorder, search_of_not_met hnew, stackSearch, hsuccs]
      rfl
    · intro x hx
      rw [stackSearch, hsuccs] at hx
      cases hx
  | ok succs =>
    have hfuel : unmet body.numbers [] < 2 * body.size + 1 := by
      have hle : unmet body.numbers [] ≤ body.numbers.length := List.length_filter_le ..
      have hlength : body.numbers.length = 2 * body.size := by simp [numbers]
      omega
    obtain ⟨n, hn⟩ := exists_turns_search (s := ⟨[], []⟩) [] hnew hsuccs hfuel
    have hstack : body.stackSearch n =
        (body.search (2 * body.size + 1) entry ⟨[], []⟩).map fun s => ([], s) := by
      rw [stackSearch, hsuccs]
      exact hn
    refine ⟨n, ?_, fun x hx => ?_⟩
    · rw [hstack, reversePostorder]
      cases body.search (2 * body.size + 1) entry ⟨[], []⟩ <;> rfl
    · rw [hstack] at hx
      cases hs : body.search (2 * body.size + 1) entry ⟨[], []⟩ with
      | error f =>
        rw [hs] at hx
        cases hx
      | ok s =>
        rw [hs] at hx
        cases hx
        rfl

end Body

end MayTaint
