import MayTaint.Dump
import MayTaint.Proofs.Requests
import MayTaint.Proofs.Seeks

/-!
What a dump shows explains the states that the run has stored. A dump replays a block in its own
way: every instruction makes its requests of a batch over the state before it, and the batch is then
applied to that state. The run has replayed the block on one set instead. Since a batch amounts to
the set that the same requests lead to, the two ways pass through the same states, and whatever the
run has accepted is accepted again.
-/

namespace MayTaint

section

variable [Machine] {σ : Type}

/-! ### The replays of a run -/

namespace Analysis

/-- The effects of the instructions are stateless. The returns of calls may be of any kind, since no
replay of a block uses them. -/
def InstructionsStateless (a : Analysis σ) : Prop :=
  ∀ i l, (a.instruction i l).Stateless

variable {a : Analysis σ} {body : Body} {bb : BlockId} {b : Block} {is : List Instruction}
  {i : Instruction} {S T U : LocalSet} {j k n count : Nat} {s s' : Session σ}

theorem Replayed.turns (hb : body.block bb = .ok b) (h : a.Replayed bb b.instructions S j T)
    (hrest : Turns (a.replayFrom body bb count j) T U) :
    Turns (a.replayFrom body bb (j + count) 0) S U := by
  induction h generalizing count with
  | entry => rwa [Nat.zero_add]
  | @step k T V i h hi hrun ih =>
    have hcount : k + 1 + count = k + (count + 1) := by omega
    rw [hcount]
    apply ih
    rw [replayFrom_succ (Body.instructionAt_eq hb hi)]
    exact hrun.seq hrest

/-- A replay that has returned in one session does the same in every session. -/
theorem Replayed.replayFrom (ha : a.InstructionsStateless) (hb : body.block bb = .ok b)
    (h : a.Replayed bb b.instructions S j T) (hcount : j + count ≤ b.instructions.length)
    (hrun : a.replayFrom body bb count j (T, s) = .ok () (U, s')) :
    a.Replayed bb b.instructions S (j + count) U := by
  induction count generalizing j T s with
  | zero =>
    cases hrun
    exact h
  | succ count ih =>
    have hi : b.instructions[j]? = some b.instructions[j] := List.getElem?_eq_getElem (by omega)
    rw [replayFrom_succ (Body.instructionAt_eq hb hi)] at hrun
    obtain ⟨⟨⟩, ⟨V, t⟩, hV, hrest⟩ := estate_bind_eq_ok.1 hrun
    have hnext : j + (count + 1) = j + 1 + count := by omega
    rw [hnext]
    exact ih (h.step hi ((ha _ _).turns hV)) (by omega) hrest

theorem Replayed.unique (s : Session σ) (hT : a.Replayed bb is S k T)
    (hU : a.Replayed bb is S k U) : T = U := by
  induction hT generalizing U with
  | entry =>
    cases hU
    rfl
  | step _ hi hrun ih =>
    cases hU with
    | step hV hi' hrun' =>
      cases hi.symm.trans hi'
      cases ih hV
      exact hrun.eq s hrun'

/-- A replay that has come further has passed the next instruction. -/
theorem Replayed.exists_turns (s : Session σ) (hT : a.Replayed bb is S k T)
    (hU : a.Replayed bb is S n U) (hkn : k < n) (hi : is[k]? = some i) :
    ∃ V, Turns (a.instruction i ⟨bb, k⟩).run T V := by
  induction hU with
  | entry => omega
  | @step m V _ i' hV hi' hrun ih =>
    by_cases hkm : k < m
    · exact ih hkm
    · obtain rfl : k = m := by omega
      cases hT.unique s hV
      cases hi.symm.trans hi'
      exact ⟨_, hrun⟩

end Analysis

namespace Solver

variable {v : Solver σ} {bb : BlockId} {rest : List BlockId} {entry exit : LocalSet}
  {p p' : Progress} {s s' : Session σ}

def Replaying (v : Solver σ) (p : Progress) : Prop :=
  ∀ bb exit, p.exits.get? bb = some exit → ∃ entry s s', p.entries.get? bb = some entry ∧
    v.analysis.replay v.body bb 0 none (entry, s) = .ok () (exit, s')

theorem Replaying.step (hs : v.Step bb rest entry exit p s p' s') (hp : v.Replaying p) :
    v.Replaying p' := by
  intro b x hx
  rw [hs.exits] at hx
  rw [hs.entries]
  split at hx
  · next hb =>
    obtain ⟨s₁, s₂, _, hexit, _⟩ := hs.runs
    cases hx
    exact ⟨entry, s₁, s₂, if_pos hb, hb ▸ hexit⟩
  · next hb =>
    obtain ⟨e, s₁, s₂, he, hreplay⟩ := hp b x hx
    exact ⟨e, s₁, s₂, (if_neg hb).trans he, hreplay⟩

end Solver

theorem Analysis.replayed_of_solve {a : Analysis σ} {limits : Limits} {body : Body}
    {s s' : Session σ} {r : Results σ} (ha : a.InstructionsStateless)
    (h : a.solve limits body s = .ok r s') {bb : BlockId} {exit : LocalSet}
    (hexit : r.exits.get? bb = some exit) :
    r.body.hasBlock bb = true ∧ ∃ b entry, r.body.block bb = .ok b ∧
      r.entries.get? bb = some entry ∧
      a.Replayed bb b.instructions entry b.instructions.length exit := by
  obtain ⟨bottom, start, s₁, table, p, s₂, hrun, hbody, -, hentries, hexits, -⟩ := solved_of_solve h
  obtain ⟨limit, allowed, hiterate⟩ := hrun.iterate_eq
  obtain ⟨⟨hexplored, hreplaying⟩, -⟩ := Solver.iterate_induct
    (fun p _ => (a.solver limits body start table).Explored p ∧
      (a.solver limits body start table).Replaying p)
    (fun hs hI => ⟨hI.1.step hs, hI.2.step hs⟩) hiterate
    ⟨Solver.explored_init _, fun _ _ hexit => by cases hexit⟩
  rw [hexits] at hexit
  have hreach : body.Reachable bb := hexplored.reachable_of_visited (by rw [hexit]; rfl)
  have hblock := hrun.valid.hasBlock_of_reachable hreach
  obtain ⟨b, hb⟩ := hrun.valid.exists_block hblock
  obtain ⟨entry, t, t', hentry, hreplay⟩ := hreplaying bb exit hexit
  have hreplay : a.replay body bb 0 none (entry, t) = .ok () (exit, t') := hreplay
  rw [replay_zero_none hb] at hreplay
  have hreplayed := Replayed.entry.replayFrom ha hb (Nat.zero_add _).le hreplay
  rw [Nat.zero_add] at hreplayed
  rw [hbody, hentries]
  exact ⟨hblock, b, entry, hb, hentry, hreplayed⟩

/-- Whatever the model of calls remembers, the instructions are stateless. -/
theorem Taint.instructionsStateless {η : Type} (t : Taint η) :
    t.analysis.InstructionsStateless := by
  intro i l
  cases i with
  | terminator i => exact (terminator_plain i).stateless
  | statement i =>
    show (Rules.statement t.reporter i l).Stateless
    rw [Rules.statement_eq]
    exact Rules.Verdict.stateless t.reporter_stateless _

/-- The results of runs of analyses with stateless instructions. Those of the taint analysis are
replayed by its quiet copy, and those of any other analysis by the analysis itself. -/
inductive Results.Kept : {σ : Type} → Results σ → Prop
  | solve {σ : Type} {a : Analysis σ} {limits : Limits} {body : Body} {s s' : Session σ}
    {r : Results σ} (ha : a.InstructionsStateless) (h : a.solve limits body s = .ok r s') : r.Kept
  | taint {η : Type} {t : Taint η} {limits : Limits} {body : Body}
    {s s' : Session (Taint.Memory η)} {r : Results (Taint.Memory η)}
    (h : t.solve limits body s = .ok r s') : r.Kept

theorem Results.Kept.replayed {r : Results σ} (hr : r.Kept) {bb : BlockId} {exit : LocalSet}
    (hexit : r.exits.get? bb = some exit) :
    r.body.hasBlock bb = true ∧ ∃ b entry, r.body.block bb = .ok b ∧
      r.entries.get? bb = some entry ∧
      r.analysis.Replayed bb b.instructions entry b.instructions.length exit := by
  cases hr with
  | solve ha h =>
    obtain ⟨_, _, _, _, _, _, _, _, hanalysis, _⟩ := Analysis.solved_of_solve h
    rw [hanalysis]
    exact Analysis.replayed_of_solve ha h hexit
  | @taint _ t _ _ s _ _ h =>
    obtain ⟨r₀, _, hr₀, hquiet⟩ := estate_bind_eq_ok.1 h
    cases hquiet
    obtain ⟨hblock, b, entry, hb, hentry, hreplayed⟩ :=
      Analysis.replayed_of_solve t.instructionsStateless hr₀ hexit
    exact ⟨hblock, b, entry, hb, hentry, hreplayed.congr (Taint.turns_quiet s)⟩

/-! ### The requests of a block -/

def Batch.rewriteAll (S : LocalSet) (batches : List Batch) : Except Fault LocalSet :=
  batches.foldlM (fun S b => b.rewrite S) S

namespace Analysis

variable {a : Analysis σ} {bb : BlockId} {is : List Instruction} {S T U : LocalSet} {k : Nat}
  {b : Batch} {batches : List Batch}

/-- The batches lead from the state `T` after `k` instructions through the states after the
following ones. -/
def Explains (a : Analysis σ) (bb : BlockId) (is : List Instruction) (S : LocalSet) (k : Nat)
    (T : LocalSet) (batches : List Batch) : Prop :=
  ∀ i ≤ batches.length, ∃ U, Batch.rewriteAll T (batches.take i) = .ok U ∧
    a.Replayed bb is S (k + i) U

theorem Explains.cons (hT : a.Replayed bb is S k T) (hb : b.rewrite T = .ok U)
    (h : a.Explains bb is S (k + 1) U batches) : a.Explains bb is S k T (b :: batches) := by
  intro i hi
  cases i with
  | zero => exact ⟨T, rfl, hT⟩
  | succ i =>
    obtain ⟨V, hV, hreplayed⟩ := h i (Nat.le_of_succ_le_succ hi)
    have hindex : k + (i + 1) = k + 1 + i := by omega
    rw [hindex]
    refine ⟨V, ?_, hreplayed⟩
    rw [List.take_succ_cons, Batch.rewriteAll, List.foldlM_cons]
    exact except_bind_eq_ok.2 ⟨U, hb, hV⟩

end Analysis

namespace Results

variable {r : Results σ} {bb : BlockId} {b : Block} {i : Instruction} {l : Location}
  {S T U : LocalSet} {k n : Nat}

theorem stateBefore_yields (hblock : r.body.hasBlock bb = true) (hb : r.body.block bb = .ok b)
    (hentry : r.entrySet bb = .ok S) (hk : k < b.instructions.length)
    (hT : r.analysis.Replayed bb b.instructions S k T) :
    Run.Yields (r.stateBefore ⟨bb, k⟩) T := by
  have hlength := b.length_instructions
  have hl : r.body.validateLocation ⟨bb, k⟩ = .ok () := by
    refine Body.validateLocation_eq_ok_iff.2 ⟨hblock, b, hb, Int.natCast_nonneg k, ?_⟩
    show (k : Int) ≤ b.statements.length
    omega
  have hreplay : Turns (r.analysis.replay r.body bb 0 (some (k : Int))) S T := by
    rw [Analysis.replay_zero_some hb, ← Nat.add_zero k]
    exact hT.turns hb (Turns.pure T)
  intro s
  obtain ⟨s', hs⟩ := hreplay s
  have hseek : Cursor.seekBefore r ⟨bb, k⟩ ({}, s) = .ok () (⟨some bb, k, some T⟩, s') := by
    refine estate_bind_eq_ok.2 ⟨(), ({}, s), ?_, Cursor.moveTo_new hentry hs⟩
    rw [Cursor.checked, hl]
    rfl
  exact ⟨s', estate_bind_eq_ok.2 ⟨((), _), s', Run.onto_eq_ok.2 hseek, rfl⟩⟩

end Results

end

namespace Results

attribute [local instance] Machine.ample

end Results

end MayTaint
