import MayTaint.Analysis
import MayTaint.Proofs.Stateless

/-!
Replaying blocks and following edges. Both keep the domain of a set; both are stateless if the
effects of the analysis are, and monotone if these are monotone as well.
-/

namespace MayTaint

namespace Analysis

variable [Machine] {σ : Type}

/-- The effects of the analysis are stateless; they may raise, and need not be monotone. -/
structure Stateless (a : Analysis σ) : Prop where
  statement : ∀ i l, (a.statement i l).Stateless
  terminator : ∀ i l, (a.terminator i l).Stateless
  callReturn : ∀ bb c l, (a.callReturn bb c l).Stateless

structure Monotone (a : Analysis σ) : Prop where
  statement : ∀ i l, (a.statement i l).Monotone
  terminator : ∀ i l, (a.terminator i l).Monotone
  callReturn : ∀ bb c l, (a.callReturn bb c l).Monotone

variable {a : Analysis σ} {body : Body}

theorem Stateless.instruction (ha : a.Stateless) (i : Instruction) (l : Location) :
    (a.instruction i l).Stateless := by
  cases i with
  | statement i => exact ha.statement i l
  | terminator i => exact ha.terminator i l

theorem Monotone.instruction (ha : a.Monotone) (i : Instruction) (l : Location) :
    (a.instruction i l).Monotone := by
  cases i with
  | statement i => exact ha.statement i l
  | terminator i => exact ha.terminator i l

theorem replayFrom_succ {bb : BlockId} {count : Nat} {index : Int} {i : Instruction}
    (hi : body.instructionAt ⟨bb, index⟩ = .ok i) :
    a.replayFrom body bb (count + 1) index =
      (a.instruction i ⟨bb, index⟩).run >>= fun _ => a.replayFrom body bb count (index + 1) := by
  rw [replayFrom, hi]

theorem replayFrom_succ_error {bb : BlockId} {count : Nat} {index : Int} {f : Fault}
    (hi : body.instructionAt ⟨bb, index⟩ = .error f) :
    a.replayFrom body bb (count + 1) index = throw f := by
  rw [replayFrom, hi]

/-- Replaying is done in one go or with a stop on the way. -/
theorem replayFrom_add (bb : BlockId) (m k : Nat) (index : Int) :
    a.replayFrom body bb (m + k) index =
      a.replayFrom body bb m index >>= fun _ => a.replayFrom body bb k (index + m) := by
  induction m generalizing index with
  | zero =>
    rw [Nat.zero_add, Int.natCast_zero, Int.add_zero, replayFrom, pure_bind]
  | succ m ih =>
    rw [Nat.add_right_comm]
    cases hi : body.instructionAt ⟨bb, index⟩ with
    | ok i =>
      have hindex : index + ((m + 1 : Nat) : Int) = index + 1 + m := by omega
      rw [replayFrom_succ hi, replayFrom_succ hi, bind_assoc, hindex, ih]
    | error f =>
      rw [replayFrom_succ_error hi, replayFrom_succ_error hi]
      rfl

theorem replay_of_block {bb : BlockId} {b : Block} (hb : body.block bb = .ok b) (start : Int)
    (stop : Option Int) :
    a.replay body bb start stop =
      a.replayFrom body bb (stop.getD (b.terminatorIndex + 1) - start).toNat start := by
  rw [replay, hb]

theorem Stateless.replayFrom (ha : a.Stateless) (bb : BlockId) (count : Nat) (index : Int) :
    StatelessOn (a.replayFrom body bb count index) := by
  induction count generalizing index with
  | zero => exact StatelessOn.pure
  | succ count ih =>
    cases hi : body.instructionAt ⟨bb, index⟩ with
    | ok i =>
      rw [replayFrom_succ hi]
      exact (ha.instruction i _).seq (ih _)
    | error f =>
      rw [replayFrom_succ_error hi]
      exact StatelessOn.throw f

theorem Stateless.replay (ha : a.Stateless) (bb : BlockId) (start : Int) (stop : Option Int) :
    StatelessOn (a.replay body bb start stop) := by
  cases hb : body.block bb with
  | ok b =>
    rw [replay_of_block hb]
    exact ha.replayFrom bb _ _
  | error f =>
    rw [Analysis.replay, hb]
    exact StatelessOn.throw f

theorem size_replayFrom {bb : BlockId} {count : Nat} {index : Int} {S T : LocalSet}
    {s s' : Session σ} (h : a.replayFrom body bb count index (S, s) = .ok () (T, s')) :
    T.size = S.size := by
  induction count generalizing index S s with
  | zero =>
    cases h
    rfl
  | succ count ih =>
    cases hi : body.instructionAt ⟨bb, index⟩ with
    | ok i =>
      rw [replayFrom_succ hi] at h
      obtain ⟨⟨⟩, ⟨U, t⟩, hU, hT⟩ := estate_bind_eq_ok.1 h
      exact (ih hT).trans (Effect.size_run hU)
    | error f =>
      rw [replayFrom_succ_error hi] at h
      cases h

/-- No replay changes the domain of the set that it works on. -/
theorem size_replay {bb : BlockId} {start : Int} {stop : Option Int} {S T : LocalSet}
    {s s' : Session σ} (h : a.replay body bb start stop (S, s) = .ok () (T, s')) :
    T.size = S.size := by
  cases hb : body.block bb with
  | ok b =>
    rw [replay_of_block hb] at h
    exact size_replayFrom h
  | error f =>
    rw [Analysis.replay, hb] at h
    cases h

theorem replayFrom_mono (s : Session σ) (ha : a.Stateless) (hm : a.Monotone) {bb : BlockId}
    {count : Nat} {index : Int} {S T S' T' : LocalSet} (hle : S ≤ T)
    (hS : Turns (a.replayFrom body bb count index) S S')
    (hT : Turns (a.replayFrom body bb count index) T T') : S' ≤ T' := by
  induction count generalizing index S T with
  | zero =>
    cases hS.eq s (Turns.pure S)
    cases hT.eq s (Turns.pure T)
    exact hle
  | succ count ih =>
    cases hi : body.instructionAt ⟨bb, index⟩ with
    | ok i =>
      rw [replayFrom_succ hi] at hS hT
      obtain ⟨S₁, hS₁, hS⟩ := hS.split s (ha.instruction i _) (ha.replayFrom bb _ _)
      obtain ⟨T₁, hT₁, hT⟩ := hT.split s (ha.instruction i _) (ha.replayFrom bb _ _)
      exact ih ((hm.instruction i _).of_turns s hle hS₁ hT₁) hS hT
    | error f =>
      rw [replayFrom_succ_error hi] at hS
      obtain ⟨_, hs⟩ := hS s
      cases hs

/-- Replaying a block with monotone effects is monotone. -/
theorem replay_mono (s : Session σ) (ha : a.Stateless) (hm : a.Monotone) {bb : BlockId}
    {start : Int} {stop : Option Int} {S T S' T' : LocalSet} (hle : S ≤ T)
    (hS : Turns (a.replay body bb start stop) S S')
    (hT : Turns (a.replay body bb start stop) T T') : S' ≤ T' := by
  cases hb : body.block bb with
  | ok b =>
    rw [replay_of_block hb] at hS hT
    exact replayFrom_mono s ha hm hle hS hT
  | error f =>
    rw [Analysis.replay, hb] at hS
    obtain ⟨_, hs⟩ := hS s
    cases hs

/-- A replay that returns has returned from all its beginnings. -/
theorem exists_replayFrom_of_le (s : Session σ) (ha : a.Stateless) {bb : BlockId} {count k : Nat}
    {index : Int} {S T : LocalSet} (hk : k ≤ count)
    (h : Turns (a.replayFrom body bb count index) S T) :
    ∃ U, Turns (a.replayFrom body bb k index) S U := by
  obtain ⟨rest, rfl⟩ := Nat.exists_eq_add_of_le hk
  rw [replayFrom_add] at h
  obtain ⟨U, hU, _⟩ := h.split s (ha.replayFrom bb _ _) (ha.replayFrom bb _ _)
  exact ⟨U, hU⟩

/-! ### Edges -/

def ReturnsTo (b : Block) (succ : BlockId) (c : Call) : Prop :=
  b.terminator = .call c ∧ c.target = some succ

theorem edgeState_of_returnsTo {pred succ : BlockId} {b : Block} {c : Call} {exit : LocalSet}
    (hb : body.block pred = .ok b) (hc : ReturnsTo b succ c) :
    a.edgeState body pred succ exit =
      Run.onto exit (a.callReturn pred c ⟨pred, b.terminatorIndex⟩).run >>= fun r => pure r.2 := by
  obtain ⟨hcall, htarget⟩ := hc
  simp only [edgeState, hb, Run.ofExcept, pure_bind, hcall, if_pos htarget]

theorem edgeState_of_not_returnsTo {pred succ : BlockId} {b : Block} {exit : LocalSet}
    (hb : body.block pred = .ok b) (hc : ∀ c, ¬ReturnsTo b succ c) :
    a.edgeState body pred succ exit = pure exit := by
  simp only [edgeState, hb, Run.ofExcept, pure_bind]
  split
  · next c hcall => rw [if_neg fun htarget => hc c ⟨hcall, htarget⟩]
  · rfl

theorem yields_edgeState_of_returnsTo {pred succ : BlockId} {b : Block} {c : Call}
    {exit flow : LocalSet} (hb : body.block pred = .ok b) (hc : ReturnsTo b succ c) :
    Run.Yields (a.edgeState body pred succ exit) flow ↔
      Turns (a.callReturn pred c ⟨pred, b.terminatorIndex⟩).run exit flow := by
  rw [edgeState_of_returnsTo hb hc]
  constructor
  · intro h s
    obtain ⟨s', hs⟩ := h s
    obtain ⟨⟨⟨⟩, T⟩, t, hT, hr⟩ := estate_bind_eq_ok.1 hs
    cases hr
    exact ⟨_, Run.onto_eq_ok.1 hT⟩
  · intro h s
    obtain ⟨s', hs⟩ := h s
    exact ⟨s', estate_bind_eq_ok.2 ⟨((), flow), s', Run.onto_eq_ok.2 hs, rfl⟩⟩

theorem yields_edgeState_of_not_returnsTo {pred succ : BlockId} {b : Block} (exit : LocalSet)
    (hb : body.block pred = .ok b) (hc : ∀ c, ¬ReturnsTo b succ c) :
    Run.Yields (a.edgeState body pred succ exit) exit := by
  rw [edgeState_of_not_returnsTo hb hc]
  intro s
  exact ⟨s, rfl⟩

theorem Stateless.edgeState (ha : a.Stateless) (pred succ : BlockId) (exit : LocalSet) :
    Run.Stateless (a.edgeState body pred succ exit) := by
  cases hb : body.block pred with
  | ok b =>
    by_cases hc : ∃ c, ReturnsTo b succ c
    · obtain ⟨c, hc⟩ := hc
      rw [edgeState_of_returnsTo hb hc]
      exact (ha.callReturn pred c _ exit).bind fun r => Run.Stateless.pure r.2
    · rw [edgeState_of_not_returnsTo hb (not_exists.1 hc)]
      exact Run.Stateless.pure exit
  | error f =>
    simp only [Analysis.edgeState, hb]
    exact fun _ _ => rfl

theorem size_edgeState {pred succ : BlockId} {exit flow : LocalSet} {s s' : Session σ}
    (h : a.edgeState body pred succ exit s = .ok flow s') : flow.size = exit.size := by
  cases hb : body.block pred with
  | ok b =>
    by_cases hc : ∃ c, ReturnsTo b succ c
    · obtain ⟨c, hc⟩ := hc
      rw [edgeState_of_returnsTo hb hc] at h
      obtain ⟨⟨⟨⟩, T⟩, t, hT, hr⟩ := estate_bind_eq_ok.1 h
      cases hr
      exact Effect.size_run (Run.onto_eq_ok.1 hT)
    · rw [edgeState_of_not_returnsTo hb (not_exists.1 hc)] at h
      cases h
      rfl
  | error f =>
    simp only [Analysis.edgeState, hb] at h
    cases h

/-- What flows along an edge is monotone in the exit state if the effects are. -/
theorem edgeState_mono (s : Session σ) (hm : a.Monotone) {pred succ : BlockId}
    {S T S' T' : LocalSet} (hle : S ≤ T) (hS : Run.Yields (a.edgeState body pred succ S) S')
    (hT : Run.Yields (a.edgeState body pred succ T) T') : S' ≤ T' := by
  obtain ⟨s₁, hS⟩ := hS s
  obtain ⟨s₂, hT⟩ := hT s
  cases hb : body.block pred with
  | ok b =>
    by_cases hc : ∃ c, ReturnsTo b succ c
    · obtain ⟨c, hc⟩ := hc
      rw [edgeState_of_returnsTo hb hc] at hS hT
      obtain ⟨⟨⟨⟩, S₁⟩, t, hS, hr⟩ := estate_bind_eq_ok.1 hS
      cases hr
      obtain ⟨⟨⟨⟩, T₁⟩, t, hT, hr⟩ := estate_bind_eq_ok.1 hT
      cases hr
      exact hm.callReturn pred c _ hle (Run.onto_eq_ok.1 hS) (Run.onto_eq_ok.1 hT)
    · rw [edgeState_of_not_returnsTo hb (not_exists.1 hc)] at hS hT
      cases hS
      cases hT
      exact hle
  | error f =>
    simp only [Analysis.edgeState, hb] at hS
    cases hS

end Analysis

end MayTaint
