import MayTaint.Proofs.Growth

/-!
How many visits a run makes. Every visit but the first is paid for by the growth of an exit state: a
block waits because the exit state of a predecessor was new, and an exit state over `n` locals that
only grows can be new at most `n + 1` times. The invariant counts the visits made and the blocks
that wait against the credit of the exit states found so far, in which a block counts once for each
of its successors and each step that its exit state has taken.

With it, all that holds of the progress of a stateless and monotone analysis is kept together: no
exit state shrinks, and the limit derived from the body is not reached.
-/

namespace MayTaint

variable {σ : Type}

def rank : Option LocalSet → Nat
  | none => 0
  | some exit => exit.count + 1

theorem rank_le {n : Nat} {exit : Option LocalSet} (h : ∀ x, exit = some x → x.size = n) :
    rank exit ≤ n + 1 := by
  cases exit with
  | none => exact Nat.zero_le _
  | some x =>
    have hcount := x.count_le_size
    have hsize := h x rfl
    simp only [rank]
    omega

/-- An exit state that has grown and is new has a greater rank. -/
theorem rank_lt {old : Option LocalSet} {new : LocalSet} (hne : old ≠ some new)
    (hgrows : ∀ x, old = some x → x ≤ new) : rank old < rank (some new) := by
  cases old with
  | none => exact Nat.succ_pos _
  | some x =>
    have hlt : x < new := lt_of_le_of_ne (hgrows x rfl) fun h => hne (congrArg some h)
    have hcount := LocalSet.count_lt_of_lt hlt
    simp only [rank]
    omega

/-- The number of visits that the exit states found so far can pay for. -/
def Body.credit (body : Body) (exits : Table LocalSet) : Nat :=
  (body.blockIds.map fun bb => body.degree bb * rank (exits.get? bb)).sum

theorem Body.credit_le {body : Body} {exits : Table LocalSet} {n : Nat}
    (h : ∀ {bb x}, exits.get? bb = some x → x.size = n) :
    body.credit exits ≤ (body.blockIds.map body.degree).sum * (n + 1) := by
  rw [← List.sum_map_mul_right]
  refine List.sum_le_sum fun bb _ => Nat.mul_le_mul_left _ (rank_le fun x hx => h hx)

/-- A new exit state pays for a visit of every successor. -/
theorem Body.credit_add_degree_le {body : Body} {exits exits' : Table LocalSet} {bb : BlockId}
    (hbb : body.hasBlock bb = true) (hrank : rank (exits.get? bb) < rank (exits'.get? bb))
    (hsame : ∀ b, b ≠ bb → exits'.get? b = exits.get? b) :
    body.credit exits + body.degree bb ≤ body.credit exits' := by
  have hmem : bb ∈ body.blockIds := mem_blockIds.2 hbb
  have hrest : (body.blockIds.erase bb).map (fun b => body.degree b * rank (exits'.get? b)) =
      (body.blockIds.erase bb).map fun b => body.degree b * rank (exits.get? b) := by
    refine List.map_congr_left fun b hb => ?_
    rw [hsame b (body.nodup_blockIds.mem_erase_iff.1 hb).1]
  have hown : body.degree bb * rank (exits.get? bb) + body.degree bb ≤
      body.degree bb * rank (exits'.get? bb) := Nat.mul_le_mul_left _ hrank
  unfold credit
  rw [← List.sum_map_erase _ hmem, ← List.sum_map_erase _ hmem, hrest]
  omega

namespace Solver

variable {v : Solver σ} {bb : BlockId} {rest : List BlockId} {entry exit : LocalSet}
  {p p' : Progress} {s s' : Session σ} {n : Nat}

/-- All exit states are over `n` locals, and their credit covers the visits made and those that
wait. -/
structure Charged (v : Solver σ) (n : Nat) (p : Progress) : Prop where
  size : ∀ {bb exit}, p.exits.get? bb = some exit → exit.size = n
  paid : p.iterations + p.waiting.length ≤ 1 + v.body.credit p.exits

theorem charged_init (v : Solver σ) (n : Nat) : v.Charged n { waiting := [Body.entry] } where
  size h := by cases h
  paid := Nat.le_add_right 1 _

/-- Apart from the first visit, the visits made and those that wait are paid for by the edges. -/
theorem Charged.visits_le (hp : v.Charged n p) :
    p.iterations + p.waiting.length ≤
      1 + (v.body.blockIds.map v.body.degree).sum * (n + 1) :=
  hp.paid.trans (Nat.add_le_add_left (Body.credit_le hp.size) 1)

theorem Charged.iterations_le (hp : v.Charged n p) (hw : p.waiting ≠ []) :
    p.iterations ≤ (v.body.blockIds.map v.body.degree).sum * (n + 1) := by
  have hvisits := hp.visits_le
  have hlength := List.length_pos_iff.2 hw
  omega

variable [Machine]

theorem Charged.step (hbb : v.body.hasBlock bb = true)
    (hs : v.Step bb rest entry exit p s p' s') (hsize : exit.size = n)
    (hgrows : ∀ old, p.exits.get? bb = some old → old ≤ exit) (hp : v.Charged n p) :
    v.Charged n p' := by
  have hpaid := hp.paid
  have hcount := hs.iterations
  have hlength : p.waiting.length = rest.length + 1 := by rw [hs.waiting, List.length_cons]
  constructor
  · intro b x hx
    rw [hs.exits] at hx
    split at hx
    · cases hx
      exact hsize
    · exact hp.size hx
  · rcases hs.queued with ⟨hsame, hw⟩ | ⟨hnew, succs, hsuccs, hw⟩
    · -- the visit itself is all that happened
      have hexits : ∀ b, p'.exits.get? b = p.exits.get? b := by
        intro b
        rw [hs.exits]
        split
        · next hb => rw [hb, hsame]
        · rfl
      have hcredit : v.body.credit p'.exits = v.body.credit p.exits := by
        simp only [Body.credit, hexits]
      rw [hw, hcredit]
      omega
    · -- the new exit state pays for the successors that the visit queues
      have hdegree : v.body.degree bb = succs.length := by rw [Body.degree, hsuccs]
      have hqueue := length_enqueue_le rest succs
      have hexit : p'.exits.get? bb = some exit := by rw [hs.exits, if_pos rfl]
      have hcredit : v.body.credit p.exits + v.body.degree bb ≤ v.body.credit p'.exits := by
        refine Body.credit_add_degree_le hbb ?_ fun b hb => by rw [hs.exits, if_neg hb]
        rw [hexit]
        exact rank_lt hnew hgrows
      rw [hw]
      omega

/-- Both states of a visit are over the domain of the state that the visit starts with. -/
theorem Step.size_eq (hs : v.Step bb rest entry exit p s p' s')
    (hbase : ∀ base, v.base bb = .ok base → base.size = n) : exit.size = n := by
  obtain ⟨_, _, hjoin, hreplay, _⟩ := hs.runs
  obtain ⟨_, base, _, hbb, hflows⟩ := exists_of_joinIncoming hjoin
  calc exit.size = entry.size := Analysis.size_replay hreplay
    _ = base.size := size_joinFlows hflows
    _ = n := hbase base hbb

structure Sound (v : Solver σ) (n : Nat) (p : Progress) : Prop where
  explored : v.Explored p
  consistent : v.Consistent p
  rising : v.Rising p
  charged : v.Charged n p

theorem sound_init (v : Solver σ) (n : Nat) : v.Sound n { waiting := [Body.entry] } :=
  ⟨explored_init v, consistent_init v, rising_init v, charged_init v n⟩

section

variable (hv : v.Ready) (ha : v.analysis.Stateless) (hm : v.analysis.Monotone)
  (hbase : ∀ bb base, v.base bb = .ok base → base.size = n)

include hv ha hm hbase

theorem Sound.step (hs : v.Step bb rest entry exit p s p' s') (hp : v.Sound n p) :
    v.Sound n p' := by
  have hexplored := hp.explored.step hs
  have hreach := hp.explored.reachable_of_waiting (hs.waiting ▸ List.mem_cons_self)
  obtain ⟨_, _, hjoin, hreplay, _⟩ := hs.runs
  refine ⟨hexplored, hp.consistent.step hv ha hs hexplored, hp.rising.step ha hm hs hp.consistent,
    hp.charged.step (hv.valid.hasBlock_of_reachable hreach) hs (hs.size_eq (hbase bb)) ?_⟩
  intro old hold
  exact hp.rising.le_exit hp.consistent ha hm hold hjoin hreplay

end

end Solver

variable [Machine]

namespace Analysis

variable {a : Analysis σ} {limits : Limits} {body : Body} {n : Nat} {bottom start : LocalSet}
  {s s₁ : Session σ} {table : List (List BlockId)}

/-- The states that the visits start with are over the domain of the least state. -/
theorem size_base (hbottom : a.bottom body = .ok bottom) (hsize : bottom.size = n)
    (hstart : (a.start body).run (bottom, s) = .ok () (start, s₁)) {bb : BlockId} {base : LocalSet}
    (hb : (a.solver limits body start table).base bb = .ok base) : base.size = n := by
  rw [Solver.base_eq hbottom] at hb
  cases hb
  split
  · exact (Effect.size_run hstart).trans hsize
  · exact hsize

theorem allowance_of_null (h : limits.maxIterations = .null) (blocks edges localCount : Nat) :
    limits.allowance blocks edges localCount = blocks + edges * (localCount + 1) + 1 := by
  have hbound : Limits.derivedBound blocks edges localCount =
      ((blocks + edges * (localCount + 1) + 1 : Nat) : Int) := by
    rw [Limits.derivedBound]
    push_cast
    rfl
  rw [Limits.allowance, Limits.bound, h, hbound]
  rfl

end Analysis

end MayTaint
