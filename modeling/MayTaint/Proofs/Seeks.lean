import MayTaint.Proofs.Cursor
import MayTaint.Proofs.FixedPoint
import MayTaint.Proofs.Taint.Rules

/-!
Cursors with a history. A cursor that moves forwards inside its block replays only what is new to
it; every other move starts at the entry of the block again. For a stateless analysis the two ways
cannot be told apart: wherever a cursor has been, an accepted seek leaves the state that the
instructions before its goal make of the entry state. The cursor keeps this as an invariant, so that
a replay from where it stands can be exchanged for one from the entry.
-/

namespace MayTaint

section

variable [Machine] {σ : Type}

namespace Analysis

/-- What the first `k` of some instructions of a block make of a set, one after another and in
whatever session. -/
inductive Replayed (a : Analysis σ) (bb : BlockId) (is : List Instruction) (S : LocalSet) :
    Nat → LocalSet → Prop
  | entry : Replayed a bb is S 0 S
  | step {k : Nat} {T U : LocalSet} {i : Instruction} (h : Replayed a bb is S k T)
    (hi : is[k]? = some i) (hrun : Turns (a.instruction i ⟨bb, k⟩).run T U) :
    Replayed a bb is S (k + 1) U

variable {a : Analysis σ} {body : Body} {bb : BlockId} {b : Block} {S T U : LocalSet}
  {j k : Nat}

/-- Going on from a place inside a block comes to what a replay from its entry comes to. -/
theorem Replayed.turns_iff (s : Session σ) (ha : a.Stateless) (hb : body.block bb = .ok b)
    (h : a.Replayed bb b.instructions S j T) (count : Nat) :
    Turns (a.replayFrom body bb count j) T U ↔ Turns (a.replayFrom body bb (j + count) 0) S U := by
  induction h generalizing count with
  | entry =>
    rw [Nat.zero_add]
    rfl
  | @step k T V i h hi hrun ih =>
    have hnext : ((k + 1 : Nat) : Int) = (k : Int) + 1 := rfl
    have hcount : k + 1 + count = k + (count + 1) := by omega
    rw [hcount, ← ih, replayFrom_succ (Body.instructionAt_eq hb hi), hnext]
    refine ⟨fun hrest => hrun.seq hrest, fun hall => ?_⟩
    obtain ⟨V', hV', hrest⟩ := hall.split s (ha.instruction i _) (ha.replayFrom bb _ _)
    rwa [hrun.eq s hV']

theorem replayed_iff (s : Session σ) (ha : a.Stateless) (hb : body.block bb = .ok b)
    (hk : k ≤ b.instructions.length) :
    a.Replayed bb b.instructions S k T ↔ Turns (a.replayFrom body bb k 0) S T := by
  refine ⟨fun h => (h.turns_iff s ha hb 0).1 (Turns.pure T), fun h => ?_⟩
  induction k generalizing T with
  | zero =>
    rw [h.eq s (Turns.pure S)]
    exact .entry
  | succ k ih =>
    obtain ⟨U, hU⟩ := exists_replayFrom_of_le s ha (Nat.le_succ k) h
    have hreplayed := ih (by omega) hU
    have hlast := (hreplayed.turns_iff s ha hb 1).2 h
    have hat : b.instructions[k]? = some b.instructions[k] := List.getElem?_eq_getElem hk
    rw [replayFrom_succ (Body.instructionAt_eq hb hat)] at hlast
    obtain ⟨V, hV, hnil⟩ := hlast.split s (ha.instruction _ _) (ha.replayFrom bb 0 _)
    rw [hnil.eq s (Turns.pure V)]
    exact hreplayed.step hat hV

end Analysis

/-! ### Seeks -/

inductive Seek where
  | before (l : Location)
  | after (l : Location)
  | blockEnd (bb : BlockId)

namespace Seek

def run (r : Results σ) : Seek → EStateM Fault (Cursor × Session σ) Unit
  | before l => Cursor.seekBefore r l
  | after l => Cursor.seekAfter r l
  | blockEnd bb => Cursor.seekToBlockEnd r bb

/-- The place that is asked for: a block and a number of its instructions. A place that the body
does not have is refused. -/
def goal (body : Body) : Seek → Except Fault (BlockId × Int)
  | before l => do
    body.validateLocation l
    return (l.block, l.index)
  | after l => do
    body.validateLocation l
    return (l.block, l.index + 1)
  | blockEnd bb => do
    let l ← body.terminatorLocation bb
    body.validateLocation l
    return (bb, l.index + 1)

variable {r : Results σ} {seek : Seek} {body : Body} {bb : BlockId} {k : Int} {f : Fault}
  {c : Cursor} {s : Session σ}

theorem run_of_goal (h : seek.goal r.body = .ok (bb, k)) :
    seek.run r (c, s) = Cursor.moveTo r bb k (c, s) := by
  cases seek with
  | before l =>
    obtain ⟨⟨⟩, hl, hgoal⟩ := except_bind_eq_ok.1 h
    cases hgoal
    simp only [run, Cursor.seekBefore, Cursor.checked, hl]
    rfl
  | after l =>
    obtain ⟨⟨⟩, hl, hgoal⟩ := except_bind_eq_ok.1 h
    cases hgoal
    simp only [run, Cursor.seekAfter, Cursor.checked, hl]
    rfl
  | blockEnd bb' =>
    obtain ⟨l, hend, h⟩ := except_bind_eq_ok.1 h
    obtain ⟨⟨⟩, hl, hgoal⟩ := except_bind_eq_ok.1 h
    cases hgoal
    obtain ⟨b, _, hlast⟩ := except_bind_eq_ok.1 hend
    cases hlast
    simp only [run, Cursor.seekToBlockEnd, Cursor.seekAfter, Cursor.checked, hend, hl]
    rfl

/-- A seek that is refused leaves everything as it was. -/
theorem run_of_refused (h : seek.goal r.body = .error f) :
    seek.run r (c, s) = .error f (c, s) := by
  cases seek with
  | before l =>
    rcases except_bind_eq_error.1 h with hl | ⟨⟨⟩, _, hgoal⟩
    · simp only [run, Cursor.seekBefore, Cursor.checked, hl]
      rfl
    · cases hgoal
  | after l =>
    rcases except_bind_eq_error.1 h with hl | ⟨⟨⟩, _, hgoal⟩
    · simp only [run, Cursor.seekAfter, Cursor.checked, hl]
      rfl
    · cases hgoal
  | blockEnd bb =>
    rcases except_bind_eq_error.1 h with hend | ⟨l, hend, h⟩
    · simp only [run, Cursor.seekToBlockEnd, hend]
      rfl
    · rcases except_bind_eq_error.1 h with hl | ⟨⟨⟩, _, hgoal⟩
      · simp only [run, Cursor.seekToBlockEnd, Cursor.seekAfter, Cursor.checked, hend, hl]
        rfl
      · cases hgoal

omit [Machine] in
/-- A place that is not refused counts some of the instructions of a block. -/
theorem exists_of_goal (h : seek.goal body = .ok (bb, k)) :
    body.hasBlock bb = true ∧ ∃ b, body.block bb = .ok b ∧
      ∃ n : Nat, k = n ∧ n ≤ b.instructions.length := by
  cases seek with
  | before l =>
    obtain ⟨⟨⟩, hl, hgoal⟩ := except_bind_eq_ok.1 h
    cases hgoal
    obtain ⟨hblock, b, hb, n, hn, hlt⟩ := Body.exists_index hl
    exact ⟨hblock, b, hb, n, hn, hlt.le⟩
  | after l =>
    obtain ⟨⟨⟩, hl, hgoal⟩ := except_bind_eq_ok.1 h
    cases hgoal
    obtain ⟨hblock, b, hb, n, hn, hlt⟩ := Body.exists_index hl
    exact ⟨hblock, b, hb, n + 1, congrArg (· + 1) hn, hlt⟩
  | blockEnd bb' =>
    obtain ⟨l, hend, h⟩ := except_bind_eq_ok.1 h
    obtain ⟨⟨⟩, hl, hgoal⟩ := except_bind_eq_ok.1 h
    cases hgoal
    obtain ⟨b, _, hlast⟩ := except_bind_eq_ok.1 hend
    cases hlast
    obtain ⟨hblock, b, hb, n, hn, hlt⟩ := Body.exists_index hl
    exact ⟨hblock, b, hb, n + 1, congrArg (· + 1) hn, hlt⟩

omit [Machine] in
theorem goal_blockEnd {b : Block} (hblock : body.hasBlock bb = true) (hb : body.block bb = .ok b) :
    (blockEnd bb).goal body = .ok (bb, (b.instructions.length : Int)) := by
  have hend : body.terminatorLocation bb = .ok ⟨bb, b.terminatorIndex⟩ :=
    except_bind_eq_ok.2 ⟨b, hb, rfl⟩
  have hl : body.validateLocation ⟨bb, b.terminatorIndex⟩ = .ok () :=
    Body.validateLocation_eq_ok_iff.2 ⟨hblock, b, hb, Int.natCast_nonneg _, le_rfl⟩
  refine except_bind_eq_ok.2 ⟨_, hend, except_bind_eq_ok.2 ⟨(), hl, ?_⟩⟩
  rw [b.length_instructions]
  rfl

end Seek

/-! ### Where a cursor stands -/

namespace Cursor

/-- Where a cursor may stand: it is new, or its state is what the instructions before its place make
of the entry state of its block. -/
inductive Placed (r : Results σ) : Cursor → Prop
  | new : Placed r {}
  | inside {bb : BlockId} {b : Block} {j : Nat} {S T : LocalSet} (hb : r.body.block bb = .ok b)
    (hentry : r.entrySet bb = .ok S) (h : r.analysis.Replayed bb b.instructions S j T) :
    Placed r ⟨some bb, j, some T⟩

def arrive (bb : BlockId) (j k : Int) :
    EStateM.Result Fault (LocalSet × Session σ) Unit →
      EStateM.Result Fault (Cursor × Session σ) Unit
  | .ok _ (state, s) => .ok () (⟨some bb, k, some state⟩, s)
  | .error f (state, s) => .error f (⟨some bb, j, some state⟩, s)

variable {r : Results σ} {c : Cursor} {bb : BlockId} {b : Block} {S T : LocalSet} {s : Session σ}
  {j k : Nat}

omit [Machine] in
theorem mustReset_inside {bb' : BlockId} :
    mustReset ⟨some bb', j, some T⟩ bb k = true ↔ bb' ≠ bb ∨ k < j := by
  simp [mustReset]

theorem moveTo_of_reset (hreset : c.mustReset bb k = true) (hentry : r.entrySet bb = .ok S) :
    moveTo r bb k (c, s) = moveTo r bb k (⟨some bb, 0, some S⟩, s) := by
  have hplaced : reset r bb (c, s) = .ok () (⟨some bb, 0, some S⟩, s) := by
    unfold reset
    rw [hentry]
    rfl
  have hkeep : mustReset ⟨some bb, 0, some S⟩ bb k = false := by
    simp [mustReset]
  change (if c.mustReset bb k = true then _ else _ : EStateM Fault (Cursor × Session σ) Unit)
    (c, s) = (if mustReset ⟨some bb, 0, some S⟩ bb k = true then _ else _ :
      EStateM Fault (Cursor × Session σ) Unit) (⟨some bb, 0, some S⟩, s)
  rw [if_pos hreset, estate_bind_of_ok hplaced, hkeep]
  rfl

theorem moveTo_of_keep (hjk : j ≤ k) :
    moveTo r bb k (⟨some bb, j, some T⟩, s) =
      arrive bb j k (r.analysis.replay r.body bb j (some (k : Int)) (T, s)) := by
  have hkeep : mustReset ⟨some bb, j, some T⟩ bb k = false := by
    simp [mustReset, hjk]
  change (if mustReset ⟨some bb, j, some T⟩ bb k = true then _ else _ :
    EStateM Fault (Cursor × Session σ) Unit) (⟨some bb, j, some T⟩, s) = _
  rw [hkeep]
  cases h : r.analysis.replay r.body bb j (some (k : Int)) (T, s) with
  | ok a t =>
    refine estate_bind_eq_ok.2 ⟨_, _, rfl, ?_⟩
    simp only [h]
    rfl
  | error f t =>
    refine estate_bind_eq_error.2 (.inr ⟨_, _, rfl, ?_⟩)
    simp only [h]
    rfl

/-- A move goes on from a place on the way to its goal, which is the entry of the block or the place
of the cursor. -/
theorem Placed.exists_moveTo (hc : c.Placed r) (hb : r.body.block bb = .ok b)
    (hentry : r.entrySet bb = .ok S) (k : Nat) (s : Session σ) :
    ∃ (j : Nat) (T : LocalSet), j ≤ k ∧ r.analysis.Replayed bb b.instructions S j T ∧
      moveTo r bb k (c, s) = arrive bb j k (r.analysis.replayFrom r.body bb (k - j) j (T, s)) := by
  have hcount : ∀ j : Nat, (Option.getD (some (k : Int)) (b.terminatorIndex + 1) - j).toNat =
      k - j := by
    intro j
    rw [Option.getD_some]
    omega
  cases hreset : c.mustReset bb k with
  | true =>
    refine ⟨0, S, Nat.zero_le k, .entry, ?_⟩
    rw [← hcount 0, ← Analysis.replay_of_block hb, ← moveTo_of_keep (Nat.zero_le k)]
    exact moveTo_of_reset hreset hentry
  | false =>
    cases hc with
    | new => cases hreset
    | @inside bb' b' j S' T hb' hentry' h =>
      rw [← Bool.not_eq_true, mustReset_inside, not_or, not_not, Nat.not_lt] at hreset
      obtain ⟨rfl, hjk⟩ := hreset
      cases hb.symm.trans hb'
      cases hentry.symm.trans hentry'
      refine ⟨j, T, hjk, h, ?_⟩
      rw [← hcount j, ← Analysis.replay_of_block hb, moveTo_of_keep hjk]

end Cursor

/-! ### Results that can be walked through -/

/-- What a cursor relies on: the analysis of the results is stateless, there is a least state, and
the blocks that were reached replay from their entry states to their exit states. -/
structure Results.Replays (r : Results σ) : Prop where
  stateless : r.analysis.Stateless
  bottom : ∃ bottom, r.analysis.bottom r.body = .ok bottom
  reached : ∀ {bb exit}, r.exits.get? bb = some exit → r.body.hasBlock bb = true ∧
    ∃ b entry, r.body.block bb = .ok b ∧ r.entries.get? bb = some entry ∧
      r.analysis.Replayed bb b.instructions entry b.instructions.length exit

section

variable {r : Results σ} {c c' : Cursor} {bb : BlockId} {b : Block} {S T : LocalSet}
  {s s' : Session σ} {k : Nat} {seek : Seek}

namespace Results.Replays

variable (hr : r.Replays)

include hr

theorem exists_entrySet (hblock : r.body.hasBlock bb = true) (hb : r.body.block bb = .ok b) :
    ∃ S, r.entrySet bb = .ok S := by
  obtain ⟨bottom, hbottom⟩ := hr.bottom
  exact ⟨_, stateIn_eq hblock hb hbottom r.entries⟩

/-- A move that returns leaves what a replay from the entry leaves. -/
theorem replayed_of_moveTo (hc : c.Placed r) (hb : r.body.block bb = .ok b)
    (hentry : r.entrySet bb = .ok S) (hk : k ≤ b.instructions.length)
    (h : Cursor.moveTo r bb k (c, s) = .ok () (c', s')) :
    ∃ T, r.analysis.Replayed bb b.instructions S k T ∧ c' = ⟨some bb, k, some T⟩ := by
  obtain ⟨j, U, hjk, hU, hmove⟩ := hc.exists_moveTo hb hentry k s
  rw [hmove] at h
  cases hrest : r.analysis.replayFrom r.body bb (k - j) j (U, s) with
  | error f t =>
    rw [hrest] at h
    cases h
  | ok a t =>
    obtain ⟨T, t⟩ := t
    rw [hrest] at h
    cases h
    have hturns := (hr.stateless.replayFrom bb (k - j) j).turns hrest
    rw [hU.turns_iff s hr.stateless hb _, Nat.add_sub_cancel' hjk,
      ← Analysis.replayed_iff s hr.stateless hb hk] at hturns
    exact ⟨T, hturns, rfl⟩

/-- A move returns wherever a replay from the entry does. -/
theorem moveTo_of_replayed (hc : c.Placed r) (hb : r.body.block bb = .ok b)
    (hentry : r.entrySet bb = .ok S) (hk : k ≤ b.instructions.length)
    (h : r.analysis.Replayed bb b.instructions S k T) (s : Session σ) :
    ∃ s', Cursor.moveTo r bb k (c, s) = .ok () (⟨some bb, k, some T⟩, s') := by
  obtain ⟨j, U, hjk, hU, hmove⟩ := hc.exists_moveTo hb hentry k s
  rw [Analysis.replayed_iff s hr.stateless hb hk, ← Nat.add_sub_cancel' hjk,
    ← hU.turns_iff s hr.stateless hb _] at h
  obtain ⟨s', hrest⟩ := h s
  exact ⟨s', by rw [hmove, hrest, Cursor.arrive]⟩

/-- A new cursor answers with what the instructions before the goal make of the entry state. -/
theorem stateAt_yields (hgoal : seek.goal r.body = .ok (bb, (k : Int)))
    (hb : r.body.block bb = .ok b) (hentry : r.entrySet bb = .ok S)
    (hk : k ≤ b.instructions.length) (h : r.analysis.Replayed bb b.instructions S k T) :
    Run.Yields (stateAt (seek.run r)) T := by
  intro s
  obtain ⟨s', hmove⟩ := hr.moveTo_of_replayed .new hb hentry hk h s
  rw [← Seek.run_of_goal hgoal] at hmove
  exact ⟨s', estate_bind_eq_ok.2 ⟨((), _), s', Run.onto_eq_ok.2 hmove, rfl⟩⟩

end Results.Replays

/-- The cursors that a history of seeks leads to, whatever happens to the session in between. Some
of the seeks may have been refused; no other one has failed. -/
inductive Cursor.Sought (r : Results σ) : Cursor → Prop
  | new : Sought r {}
  | accepted {seek : Seek} {c c' : Cursor} {s s' : Session σ} (h : Sought r c)
    (hrun : seek.run r (c, s) = .ok () (c', s')) : Sought r c'
  | refused {seek : Seek} {c c' : Cursor} {s s' : Session σ} {f f' : Fault} (h : Sought r c)
    (hgoal : seek.goal r.body = .error f) (hrun : seek.run r (c, s) = .error f' (c', s')) :
    Sought r c'

/-- An accepted seek takes a cursor to its goal. -/
theorem Results.Replays.exists_of_seek (hr : r.Replays) (hc : c.Placed r)
    (h : seek.run r (c, s) = .ok () (c', s')) :
    ∃ bb b k S T, seek.goal r.body = .ok (bb, ((k : Nat) : Int)) ∧ r.body.block bb = .ok b ∧
      k ≤ b.instructions.length ∧ r.entrySet bb = .ok S ∧
      r.analysis.Replayed bb b.instructions S k T ∧ c' = ⟨some bb, k, some T⟩ := by
  cases hgoal : seek.goal r.body with
  | error f =>
    rw [Seek.run_of_refused hgoal] at h
    cases h
  | ok place =>
    obtain ⟨bb, k⟩ := place
    obtain ⟨hblock, b, hb, k, rfl, hk⟩ := Seek.exists_of_goal hgoal
    obtain ⟨S, hS⟩ := hr.exists_entrySet hblock hb
    rw [Seek.run_of_goal hgoal] at h
    obtain ⟨T, hT, hc'⟩ := hr.replayed_of_moveTo hc hb hS hk h
    exact ⟨bb, b, k, S, T, rfl, hb, hk, hS, hT, hc'⟩

/-- No history of seeks takes a cursor away from what replays from the entry leave. -/
theorem Cursor.Sought.placed (hr : r.Replays) (hc : c.Sought r) : c.Placed r := by
  induction hc with
  | new => exact .new
  | accepted _ hrun ih =>
    obtain ⟨bb, b, k, S, T, _, hb, _, hS, hT, rfl⟩ := hr.exists_of_seek ih hrun
    exact .inside hb hS hT
  | refused _ hgoal hrun ih =>
    rw [Seek.run_of_refused hgoal] at hrun
    cases hrun
    exact ih

end

/-! ### The results of runs -/

namespace Analysis

variable {a a' : Analysis σ} {bb : BlockId} {is : List Instruction} {S T : LocalSet} {k : Nat}

theorem Replayed.congr
    (h : ∀ {i l S T}, Turns (a.instruction i l).run S T → Turns (a'.instruction i l).run S T)
    (hT : a.Replayed bb is S k T) : a'.Replayed bb is S k T := by
  induction hT with
  | entry => exact .entry
  | step _ hi hrun ih => exact ih.step hi (h hrun)

theorem replays_of_solve {limits : Limits} {body : Body} {s s' : Session σ} {r : Results σ}
    (ha : a.Stateless) (h : a.solve limits body s = .ok r s') : r.Replays := by
  obtain ⟨bottom, start, s₁, table, p, s₂, hrun, hbody, hanalysis, hentries, hexits, -⟩ :=
    solved_of_solve h
  obtain ⟨limit, allowed, hiterate⟩ := hrun.iterate_eq
  obtain ⟨hexplored, hconsistent, _⟩ := hrun.ready.tables ha hiterate
  subst hbody hanalysis
  refine ⟨ha, ⟨bottom, hrun.bottom_eq⟩, fun {bb exit} hexit => ?_⟩
  rw [hexits] at hexit
  obtain ⟨entry, hentry⟩ := hconsistent.exists_entry hexit
  have hreach : r.body.Reachable bb := hexplored.reachable_of_visited (by rw [hexit]; rfl)
  have hblock := hrun.valid.hasBlock_of_reachable hreach
  obtain ⟨b, hb⟩ := hrun.valid.exists_block hblock
  refine ⟨hblock, b, entry, hb, hentries ▸ hentry, (replayed_iff s ha hb le_rfl).2 ?_⟩
  rw [← replay_zero_none hb]
  exact hconsistent.replayed hentry hexit

end Analysis

namespace Taint

variable {η : Type} {t : Taint η}

/-- What the strict instance does not give up on, the quiet one does as well. -/
theorem turns_quiet (s : Session (Memory η)) {i : Instruction} {l : Location} {S T : LocalSet}
    (h : Turns (t.analysis.instruction i l).run S T) :
    Turns (t.quiet.analysis.instruction i l).run S T := by
  cases i with
  | terminator i => exact h
  | statement i =>
    change Turns (Rules.statement t.reporter i l).run S T at h
    change Turns (Rules.statement t.quiet.reporter i l).run S T
    rw [Rules.statement_eq] at h ⊢
    cases hv : Rules.verdict i l with
    | report c =>
      rw [hv, Rules.Verdict.effect, reporter] at h
      rw [Rules.Verdict.effect]
      change Turns (record c).run S T
      split at h
      · obtain ⟨_, hs⟩ := h s
        cases hs
      · exact h
    | _ =>
      rw [hv] at h
      exact h

theorem replays_of_solve {limits : Limits} {body : Body} {s s' : Session (Memory η)}
    {r : Results (Memory η)}
    (hmodel : ∀ model, t.settings.callModel = some model → ∀ c l, (model c l).Stateless)
    (h : t.solve limits body s = .ok r s') : r.Replays := by
  obtain ⟨r₀, _, hr₀, hquiet⟩ := estate_bind_eq_ok.1 h
  cases hquiet
  have hreplays := Analysis.replays_of_solve (analysis_stateless hmodel) hr₀
  obtain ⟨_, _, _, _, _, _, _, _, hanalysis, _⟩ := Analysis.solved_of_solve hr₀
  refine ⟨analysis_stateless (t := t.quiet) hmodel, ?_, fun hexit => ?_⟩
  · obtain ⟨bottom, hbottom⟩ := hreplays.bottom
    rw [hanalysis] at hbottom
    exact ⟨bottom, hbottom⟩
  · obtain ⟨hblock, b, entry, hb, hentry, hreplayed⟩ := hreplays.reached hexit
    rw [hanalysis] at hreplayed
    exact ⟨hblock, b, entry, hb, hentry, hreplayed.congr (turns_quiet s)⟩

end Taint

/-- The results that runs of stateless analyses return. Those of the taint analysis are replayed by
its quiet copy, and those of any other analysis by the analysis itself. -/
inductive Results.Returned : {σ : Type} → Results σ → Prop
  | solve {σ : Type} {a : Analysis σ} {limits : Limits} {body : Body} {s s' : Session σ}
    {r : Results σ} (ha : a.Stateless) (h : a.solve limits body s = .ok r s') : r.Returned
  | taint {η : Type} {t : Taint η} {limits : Limits} {body : Body} {s s' : Session (Taint.Memory η)}
    {r : Results (Taint.Memory η)}
    (hmodel : ∀ model, t.settings.callModel = some model → ∀ c l, (model c l).Stateless)
    (h : t.solve limits body s = .ok r s') : r.Returned

theorem Results.Returned.replays {r : Results σ} (h : r.Returned) : r.Replays := by
  cases h with
  | solve ha h => exact Analysis.replays_of_solve ha h
  | taint hmodel h => exact Taint.replays_of_solve hmodel h

namespace Cursor

/-- Wherever a cursor has been: a seek that is refused leaves it untouched; one that is accepted
leaves what the instructions before its goal make of the entry state, as a new cursor would find it;
and at the end of a block that was reached there is the exit state of the block. -/
theorem seek_agrees {r : Results σ} (hr : r.Returned) {c : Cursor} (hc : c.Sought r) (seek : Seek)
    (s : Session σ) :
    (∀ f, seek.goal r.body = .error f → seek.run r (c, s) = .error f (c, s)) ∧
    (∀ c' s', seek.run r (c, s) = .ok () (c', s') →
      ∃ bb b k S T, seek.goal r.body = .ok (bb, ((k : Nat) : Int)) ∧ r.body.block bb = .ok b ∧
        k ≤ b.instructions.length ∧ r.entrySet bb = .ok S ∧
        r.analysis.Replayed bb b.instructions S k T ∧ c'.get = .ok T ∧
        c'.position = some (bb, (k : Int)) ∧
        ∀ l, r.body.validateLocation l = .ok () → l.block = bb →
          (l.index = k → Run.Yields (r.stateBefore l) T) ∧
          (l.index + 1 = k → Run.Yields (r.stateAfter l) T)) ∧
    ∀ bb, r.wasReached bb = true → ∃ c' s' exit,
      (Seek.blockEnd bb).run r (c, s) = .ok () (c', s') ∧ r.exitSet bb = .ok exit ∧
        c'.get = .ok exit ∧ c'.position = some (bb, ((r.body.instructionsOf bb).length : Int)) := by
  have hreplays := hr.replays
  have hplaced := hc.placed hreplays
  refine ⟨fun f hgoal => Seek.run_of_refused hgoal, fun c' s' hrun => ?_, fun bb hreached => ?_⟩
  · obtain ⟨bb, b, k, S, T, hgoal, hb, hk, hS, hT, rfl⟩ := hreplays.exists_of_seek hplaced hrun
    refine ⟨bb, b, k, S, T, hgoal, hb, hk, hS, hT, rfl, rfl, fun l hl hbb =>
      ⟨fun hi => ?_, fun hi => ?_⟩⟩
    · have hbefore : (Seek.before l).goal r.body = .ok (bb, (k : Int)) :=
        except_bind_eq_ok.2 ⟨(), hl, by rw [hbb, hi]; rfl⟩
      exact hreplays.stateAt_yields hbefore hb hS hk hT
    · have hafter : (Seek.after l).goal r.body = .ok (bb, (k : Int)) :=
        except_bind_eq_ok.2 ⟨(), hl, by rw [hbb, hi]; rfl⟩
      exact hreplays.stateAt_yields hafter hb hS hk hT
  · obtain ⟨exit, hexit⟩ := Option.isSome_iff_exists.1 hreached
    obtain ⟨hblock, b, entry, hb, hentry, hT⟩ := hreplays.reached hexit
    obtain ⟨bottom, hbottom⟩ := hreplays.bottom
    have hS : r.entrySet bb = .ok entry := by
      rw [Results.entrySet, Results.stateIn_eq hblock hb hbottom, hentry, Option.getD_some]
    obtain ⟨s', hmove⟩ := hreplays.moveTo_of_replayed hplaced hb hS le_rfl hT s
    rw [← Seek.run_of_goal (Seek.goal_blockEnd hblock hb)] at hmove
    refine ⟨_, s', exit, hmove, ?_, rfl, ?_⟩
    · rw [Results.exitSet, Results.stateIn_eq hblock hb hbottom, hexit, Option.getD_some]
    · rw [Body.instructionsOf_eq hb]
      rfl

end Cursor

end

namespace Cursor

attribute [local instance] Machine.ample

/-- A cursor goes behind the first statement of a block, is asked for an instruction that the block
does not have, and goes on to the end of the block. -/
theorem seek_agrees_wavering :
    ∃ r s₁ c s₂, Analysis.wavering.solve { checkMonotonicity := .bool false } Analysis.roundabout
        ⟨(), []⟩ = .ok r s₁ ∧
      (Seek.after ⟨0, 0⟩).run r ({}, s₁) = .ok () (c, s₂) ∧
      (Seek.before ⟨0, 7⟩).run r (c, s₂) =
        .error (.noSuchInstruction "roundabout" ⟨0, 7⟩) (c, s₂) ∧
      ∃ c' s₃ exit, (Seek.blockEnd 0).run r (c, s₂) = .ok () (c', s₃) ∧ r.exitSet 0 = .ok exit ∧
        c'.get = .ok exit ∧ c'.position = some (0, 2) := by
  obtain ⟨r, s₁, c, s₂, h, hseek, hbody, hreached⟩ : ∃ r s₁ c s₂,
      Analysis.wavering.solve { checkMonotonicity := .bool false } Analysis.roundabout ⟨(), []⟩ =
        .ok r s₁ ∧ (Seek.after ⟨0, 0⟩).run r ({}, s₁) = .ok () (c, s₂) ∧
      r.body = Analysis.roundabout ∧ r.wasReached 0 = true :=
    ⟨_, _, _, _, by cbv, by cbv, rfl, by cbv⟩
  have hr : r.Returned := .solve Analysis.wavering_stateless h
  have hc : c.Sought r := Sought.new.accepted hseek
  have hrefused : (Seek.before ⟨0, 7⟩).goal r.body =
      .error (.noSuchInstruction "roundabout" ⟨0, 7⟩) := by
    rw [hbody]
    rfl
  have hend := (seek_agrees hr hc (.before ⟨0, 7⟩) s₂).2.2 0 hreached
  rw [hbody] at hend
  exact ⟨r, s₁, c, s₂, h, hseek, (seek_agrees hr hc _ s₂).1 _ hrefused, hend⟩

end Cursor

end MayTaint
