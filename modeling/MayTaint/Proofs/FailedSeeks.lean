import MayTaint.Proofs.Seeks
import MayTaint.Proofs.Visited

/-!
Seeks that fail on the way. A replay that gives up inside a block leaves what it has done so far in
the state of the cursor, while the count of instructions stays where the replay began. A cursor that
goes on from there replays instructions a second time. This is confined: it happens only in blocks
that the run has not reached, and it is over as soon as a seek has to start at the entry of a block
again. The taint analysis does not suffer from it, since a block that was not reached starts with
nothing tainted and nothing becomes tainted there.
-/

namespace MayTaint

section

variable [Machine] {σ : Type}

theorem Analysis.Replayed.exists_of_le {a : Analysis σ} {bb : BlockId} {is : List Instruction}
    {S U : LocalSet} {k n : Nat} (h : a.Replayed bb is S n U) (hk : k ≤ n) :
    ∃ T, a.Replayed bb is S k T := by
  induction h with
  | entry =>
    cases Nat.le_zero.1 hk
    exact ⟨S, .entry⟩
  | @step m _ _ _ h hi hrun ih =>
    by_cases hkm : k ≤ m
    · exact ih hkm
    · obtain rfl : k = m + 1 := by omega
      exact ⟨_, h.step hi hrun⟩

namespace Cursor

/-- The cursors that a history of seeks leads to, whatever happens to the session in between. Seeks
may have been refused, and may have failed on the way. The cursor is intact as long as no seek has
failed since it last had to start over. -/
inductive Driven (r : Results σ) : Bool → Cursor → Prop
  | new : Driven r true {}
  | accepted {intact : Bool} {seek : Seek} {bb : BlockId} {k : Int} {c c' : Cursor}
    {s s' : Session σ} (h : Driven r intact c) (hgoal : seek.goal r.body = .ok (bb, k))
    (hrun : seek.run r (c, s) = .ok () (c', s')) : Driven r (intact || c.mustReset bb k) c'
  | refused {intact : Bool} {seek : Seek} {c c' : Cursor} {s s' : Session σ} {f f' : Fault}
    (h : Driven r intact c) (hgoal : seek.goal r.body = .error f)
    (hrun : seek.run r (c, s) = .error f' (c', s')) : Driven r intact c'
  | failed {intact : Bool} {seek : Seek} {place : BlockId × Int} {c c' : Cursor}
    {s s' : Session σ} {f : Fault} (h : Driven r intact c) (hgoal : seek.goal r.body = .ok place)
    (hrun : seek.run r (c, s) = .error f (c', s')) : Driven r false c'

inductive Counting : Cursor → Prop
  | new : Counting {}
  | inside (bb : BlockId) (j : Nat) (T : LocalSet) : Counting ⟨some bb, j, some T⟩

/-- Where a cursor may stand if seeks can fail: where an intact one may, or anywhere in a block that
was not reached. -/
inductive Stands (r : Results σ) : Bool → Cursor → Prop
  | placed {intact : Bool} {c : Cursor} (h : c.Placed r) : Stands r intact c
  | astray {bb : BlockId} {j : Nat} {T : LocalSet} (h : r.wasReached bb = false) :
    Stands r false ⟨some bb, j, some T⟩

variable {r : Results σ} {intact : Bool} {c c' : Cursor} {bb : BlockId} {b : Block}
  {S T : LocalSet} {s s' : Session σ} {k : Nat} {seek : Seek} {f : Fault}

theorem Stands.counting (h : c.Stands r intact) : c.Counting := by
  cases h with
  | placed h =>
    cases h with
    | new => exact .new
    | inside => exact .inside _ _ _
  | astray => exact .inside _ _ _

omit [Machine] in
theorem Counting.eq_of_keep (h : c.Counting) (hkeep : c.mustReset bb k = false) :
    ∃ (j : Nat) (T : LocalSet), j ≤ k ∧ c = ⟨some bb, j, some T⟩ := by
  cases h with
  | new => cases hkeep
  | inside bb' j T =>
    rw [← Bool.not_eq_true, mustReset_inside, not_or, not_not, Nat.not_lt] at hkeep
    obtain ⟨rfl, hjk⟩ := hkeep
    exact ⟨j, T, hjk, rfl⟩

/-- A move replays from the entry of the block or from where the cursor stands. -/
theorem Counting.exists_moveTo (h : c.Counting) (hb : r.body.block bb = .ok b)
    (hentry : r.entrySet bb = .ok S) (k : Nat) (s : Session σ) :
    ∃ (j : Nat) (T : LocalSet), j ≤ k ∧
      (j : Int) = (if c.mustReset bb k then 0 else c.applied) ∧
      moveTo r bb k (c, s) = arrive bb j k (r.analysis.replayFrom r.body bb (k - j) j (T, s)) := by
  have hkeep : ∀ {j : Nat} {T : LocalSet}, j ≤ k → moveTo r bb k (⟨some bb, j, some T⟩, s) =
      arrive bb j k (r.analysis.replayFrom r.body bb (k - j) j (T, s)) := by
    intro j T hjk
    have hcount : ((k : Int) - j).toNat = k - j := by omega
    rw [moveTo_of_keep hjk, Analysis.replay_of_block hb, Option.getD_some, hcount]
  cases hreset : c.mustReset bb k with
  | true =>
    refine ⟨0, S, Nat.zero_le k, rfl, ?_⟩
    rw [moveTo_of_reset hreset hentry]
    exact hkeep (Nat.zero_le k)
  | false =>
    obtain ⟨j, T, hjk, rfl⟩ := h.eq_of_keep hreset
    exact ⟨j, T, hjk, rfl, hkeep hjk⟩

/-- How a move ends: at its goal if its replay returns, and else with the count that the replay
began with. -/
theorem Counting.moveTo_cases (h : c.Counting) (hb : r.body.block bb = .ok b)
    (hentry : r.entrySet bb = .ok S) (k : Nat) (s : Session σ) :
    ∃ (j : Nat) (T U : LocalSet) (s' : Session σ), j ≤ k ∧
      (j : Int) = (if c.mustReset bb k then 0 else c.applied) ∧
      ((r.analysis.replayFrom r.body bb (k - j) j (T, s) = .ok () (U, s') ∧
        moveTo r bb k (c, s) = .ok () (⟨some bb, k, some U⟩, s')) ∨
      ∃ f, r.analysis.replayFrom r.body bb (k - j) j (T, s) = .error f (U, s') ∧
        moveTo r bb k (c, s) = .error f (⟨some bb, j, some U⟩, s')) := by
  obtain ⟨j, T, hjk, hj, hmove⟩ := h.exists_moveTo hb hentry k s
  rw [hmove]
  cases hrest : r.analysis.replayFrom r.body bb (k - j) j (T, s) with
  | ok _ t => exact ⟨j, T, t.1, t.2, hjk, hj, .inl ⟨hrest, rfl⟩⟩
  | error f t => exact ⟨j, T, t.1, t.2, hjk, hj, .inr ⟨f, hrest, rfl⟩⟩

/-- A move that returns takes the cursor to its goal. -/
theorem Counting.of_moveTo_ok (h : c.Counting) (hb : r.body.block bb = .ok b)
    (hentry : r.entrySet bb = .ok S) (hrun : moveTo r bb k (c, s) = .ok () (c', s')) :
    ∃ T, c' = ⟨some bb, k, some T⟩ := by
  obtain ⟨j, T, U, t, -, -, ⟨-, hmove⟩ | ⟨f, -, hmove⟩⟩ := h.moveTo_cases hb hentry k s
  · rw [hmove] at hrun
    cases hrun
    exact ⟨U, rfl⟩
  · rw [hmove] at hrun
    cases hrun

/-- A move that fails leaves the cursor in the block of its goal. -/
theorem Counting.of_moveTo_error (h : c.Counting) (hb : r.body.block bb = .ok b)
    (hentry : r.entrySet bb = .ok S) (hrun : moveTo r bb k (c, s) = .error f (c', s')) :
    ∃ (j : Nat) (T : LocalSet), (j : Int) = (if c.mustReset bb k then 0 else c.applied) ∧
      c' = ⟨some bb, j, some T⟩ := by
  obtain ⟨j, T, U, t, -, hj, ⟨-, hmove⟩ | ⟨f, -, hmove⟩⟩ := h.moveTo_cases hb hentry k s
  · rw [hmove] at hrun
    cases hrun
  · rw [hmove] at hrun
    cases hrun
    exact ⟨j, U, hj, rfl⟩

/-- A cursor that is in order, or has to start over, moves as one that is in order. -/
theorem exists_placed (hb : r.body.block bb = .ok b) (hentry : r.entrySet bb = .ok S)
    (hc : c.Placed r ∨ c.mustReset bb k = true) :
    ∃ c₀ : Cursor, c₀.Placed r ∧ ∀ s, moveTo r bb k (c, s) = moveTo r bb k (c₀, s) := by
  rcases hc with hc | hreset
  · exact ⟨c, hc, fun _ => rfl⟩
  · exact ⟨⟨some bb, 0, some S⟩, .inside hb hentry .entry, fun _ => moveTo_of_reset hreset hentry⟩

/-- A cursor is in order for a block that was reached, and so is an intact one for every block. -/
theorem Stands.placed_or_mustReset (h : c.Stands r intact)
    (hbb : intact = true ∨ r.wasReached bb = true) : c.Placed r ∨ c.mustReset bb k = true := by
  cases h with
  | placed h => exact .inl h
  | astray hunreached =>
    refine .inr (mustReset_inside.2 (.inl fun heq => ?_))
    rw [heq] at hunreached
    simp [hunreached] at hbb

end Cursor

namespace Results.Replays

variable {r : Results σ} {c c' : Cursor} {bb : BlockId} {b : Block} {S T : LocalSet}
  {s s' : Session σ} {k : Nat}

/-- In a block that was reached every place can be replayed to. -/
theorem exists_replayed (hr : r.Replays) (hbb : r.wasReached bb = true)
    (hb : r.body.block bb = .ok b) (hentry : r.entrySet bb = .ok S)
    (hk : k ≤ b.instructions.length) : ∃ T, r.analysis.Replayed bb b.instructions S k T := by
  obtain ⟨exit, hexit⟩ := Option.isSome_iff_exists.1 hbb
  obtain ⟨hblock, b', entry, hb', hentry', hT⟩ := hr.reached hexit
  obtain ⟨bottom, hbottom⟩ := hr.bottom
  cases hb.symm.trans hb'
  rw [entrySet, stateIn_eq hblock hb hbottom, hentry', Option.getD_some] at hentry
  cases hentry
  exact hT.exists_of_le hk

/-- Where a cursor is in order or has to start over, its move ends as a replay from the entry
does. -/
theorem moveTo_iff (hr : r.Replays) (hc : c.Placed r ∨ c.mustReset bb k = true)
    (hb : r.body.block bb = .ok b) (hentry : r.entrySet bb = .ok S)
    (hk : k ≤ b.instructions.length) (s : Session σ) :
    (∃ s', Cursor.moveTo r bb k (c, s) = .ok () (c', s')) ↔
      ∃ T, c' = ⟨some bb, k, some T⟩ ∧ r.analysis.Replayed bb b.instructions S k T := by
  obtain ⟨c₀, hplaced, hmove⟩ := Cursor.exists_placed hb hentry hc
  rw [hmove]
  constructor
  · rintro ⟨s', h⟩
    obtain ⟨T, hT, rfl⟩ := hr.replayed_of_moveTo hplaced hb hentry hk h
    exact ⟨T, rfl, hT⟩
  · rintro ⟨T, rfl, hT⟩
    exact hr.moveTo_of_replayed hplaced hb hentry hk hT s

theorem moveTo_iff_replayed (hr : r.Replays) (hc : c.Placed r ∨ c.mustReset bb k = true)
    (hb : r.body.block bb = .ok b) (hentry : r.entrySet bb = .ok S)
    (hk : k ≤ b.instructions.length) (s : Session σ) :
    (∃ s', Cursor.moveTo r bb k (c, s) = .ok () (⟨some bb, k, some T⟩, s')) ↔
      r.analysis.Replayed bb b.instructions S k T := by
  rw [hr.moveTo_iff hc hb hentry hk s]
  constructor
  · rintro ⟨U, heq, hU⟩
    cases heq
    exact hU
  · exact fun hT => ⟨T, rfl, hT⟩

theorem stateAt_yields_iff {seek : Seek} (hr : r.Replays)
    (hgoal : seek.goal r.body = .ok (bb, (k : Int))) (hb : r.body.block bb = .ok b)
    (hentry : r.entrySet bb = .ok S) (hk : k ≤ b.instructions.length) (s : Session σ) :
    Run.Yields (stateAt (seek.run r)) T ↔ r.analysis.Replayed bb b.instructions S k T := by
  refine ⟨fun hnew => ?_, hr.stateAt_yields hgoal hb hentry hk⟩
  obtain ⟨s', hs⟩ := hnew s
  obtain ⟨⟨⟨⟩, c'⟩, s₁, honto, hget⟩ := estate_bind_eq_ok.1 hs
  have hmove := Run.onto_eq_ok.1 honto
  rw [Seek.run_of_goal hgoal] at hmove
  obtain ⟨U, hU, rfl⟩ := hr.replayed_of_moveTo .new hb hentry hk hmove
  cases hget
  exact hU

/-- No move fails in a block that was reached. -/
theorem unreached_of_error {intact : Bool} {f : Fault} (hr : r.Replays) (hc : c.Stands r intact)
    (hb : r.body.block bb = .ok b) (hentry : r.entrySet bb = .ok S)
    (hk : k ≤ b.instructions.length)
    (hrun : Cursor.moveTo r bb k (c, s) = .error f (c', s')) : r.wasReached bb = false := by
  by_contra hbb
  rw [Bool.not_eq_false] at hbb
  obtain ⟨T, hT⟩ := hr.exists_replayed hbb hb hentry hk
  obtain ⟨_, hok⟩ :=
    (hr.moveTo_iff_replayed (hc.placed_or_mustReset (.inr hbb)) hb hentry hk s).2 hT
  rw [hok] at hrun
  cases hrun

end Results.Replays

namespace Cursor

variable {r : Results σ} {intact : Bool} {c : Cursor}

/-- Every history of seeks keeps a cursor where it may stand. -/
theorem Driven.stands (hr : r.Replays) (hc : c.Driven r intact) : c.Stands r intact := by
  induction hc with
  | new => exact .placed .new
  | refused _ hgoal hrun ih =>
    rw [Seek.run_of_refused hgoal] at hrun
    cases hrun
    exact ih
  | @accepted intact seek bb k c c' s s' _ hgoal hrun ih =>
    obtain ⟨hblock, b, hb, k, rfl, hk⟩ := Seek.exists_of_goal hgoal
    obtain ⟨S, hS⟩ := hr.exists_entrySet hblock hb
    rw [Seek.run_of_goal hgoal] at hrun
    by_cases hc : c.Placed r ∨ c.mustReset bb k = true
    · obtain ⟨T, rfl, hT⟩ := (hr.moveTo_iff hc hb hS hk s).1 ⟨s', hrun⟩
      exact .placed (.inside hb hS hT)
    · -- the cursor was astray in the block already, and goes on from there
      rw [not_or, Bool.not_eq_true] at hc
      obtain ⟨T, rfl⟩ := ih.counting.of_moveTo_ok hb hS hrun
      obtain ⟨j, U, -, rfl⟩ := ih.counting.eq_of_keep hc.2
      rw [hc.2]
      cases ih with
      | placed h => exact absurd h hc.1
      | astray hunreached => exact .astray hunreached
  | failed _ hgoal hrun ih =>
    obtain ⟨hblock, b, hb, k, hplace, hk⟩ := Seek.exists_of_goal hgoal
    obtain ⟨S, hS⟩ := hr.exists_entrySet hblock hb
    rw [Seek.run_of_goal hgoal, hplace] at hrun
    obtain ⟨j, T, -, rfl⟩ := ih.counting.of_moveTo_error hb hS hrun
    exact .astray (hr.unreached_of_error ih hb hS hk hrun)

/-- The cursor can be relied on to get to a place: it is intact, the block was reached, or the
cursor has to start over. -/
def Reliable (r : Results σ) (intact : Bool) (c : Cursor) (bb : BlockId) (k : Int) : Prop :=
  intact = true ∨ r.wasReached bb = true ∨ c.mustReset bb k = true

/-- What holds of a cursor however many seeks have failed. A seek that is refused leaves it
untouched, and one to a block that was reached returns. A cursor that can be relied on gets to its
goal where a new one does, with the state that the new one finds and that the instructions before
the goal make of the entry state. A seek that fails leaves the cursor in a block that was not
reached, with the count that its replay began with. -/
theorem seek_after_failures (hr : r.Returned) (hc : c.Driven r intact) (seek : Seek)
    (s : Session σ) :
    (∀ f, seek.goal r.body = .error f → seek.run r (c, s) = .error f (c, s)) ∧
    ∀ bb k, seek.goal r.body = .ok (bb, k) → ∃ b S,
      r.body.block bb = .ok b ∧ r.entrySet bb = .ok S ∧
      (r.wasReached bb = true → ∃ c' s', seek.run r (c, s) = .ok () (c', s')) ∧
      (∀ c' s', seek.run r (c, s) = .ok () (c', s') → ∃ T, c' = ⟨some bb, k, some T⟩) ∧
      (Reliable r intact c bb k → ∀ T,
        ((∃ s', seek.run r (c, s) = .ok () (⟨some bb, k, some T⟩, s')) ↔
          Run.Yields (Results.stateAt (seek.run r)) T) ∧
        ((∃ s', seek.run r (c, s) = .ok () (⟨some bb, k, some T⟩, s')) ↔
          r.analysis.Replayed bb b.instructions S k.toNat T)) ∧
      ∀ f c' s', seek.run r (c, s) = .error f (c', s') → r.wasReached bb = false ∧
        c'.position = some (bb, if c.mustReset bb k then 0 else c.applied) := by
  have hreplays := hr.replays
  have hstands := hc.stands hreplays
  refine ⟨fun f hgoal => Seek.run_of_refused hgoal, fun bb k hgoal => ?_⟩
  obtain ⟨hblock, b, hb, k, rfl, hk⟩ := Seek.exists_of_goal hgoal
  obtain ⟨S, hS⟩ := hreplays.exists_entrySet hblock hb
  have hgoes : Reliable r intact c bb k → c.Placed r ∨ c.mustReset bb k = true := by
    rintro (hintact | hbb | hreset)
    · exact hstands.placed_or_mustReset (.inl hintact)
    · exact hstands.placed_or_mustReset (.inr hbb)
    · exact .inr hreset
  rw [Seek.run_of_goal hgoal]
  refine ⟨b, S, hb, hS, fun hbb => ?_, fun c' s' hrun => ?_, fun hc T => ?_, fun f c' s' hrun => ?_⟩
  · obtain ⟨T, hT⟩ := hreplays.exists_replayed hbb hb hS hk
    exact ⟨_, (hreplays.moveTo_iff_replayed (hgoes (.inr (.inl hbb))) hb hS hk s).2 hT⟩
  · exact hstands.counting.of_moveTo_ok hb hS hrun
  · rw [hreplays.moveTo_iff_replayed (hgoes hc) hb hS hk s, Int.toNat_natCast,
      hreplays.stateAt_yields_iff hgoal hb hS hk s]
    exact ⟨Iff.rfl, Iff.rfl⟩
  · obtain ⟨j, T, hj, rfl⟩ := hstands.counting.of_moveTo_error hb hS hrun
    refine ⟨hreplays.unreached_of_error hstands hb hS hk hrun, ?_⟩
    rw [← hj]
    rfl

def stumbling : Analysis Unit where
  name := "Stumbling"
  bottom body := LocalSet.bottom body.localCount
  start _ := Effect.skip
  statement _ l :=
    if l.index = 0 then .ask (.int 0) fun b => Effect.taint (.int (if b then 1 else 0))
    else .raise (.raised "stuck")
  terminator _ _ := Effect.skip
  callReturn _ _ _ := Effect.skip
  unsupported _ := []

theorem stumbling_stateless : stumbling.Stateless where
  statement _ l := by
    apply Effect.Plain.stateless
    show Effect.Plain (if l.index = 0 then _ else _)
    split
    · exact fun _ => trivial
    · trivial
  terminator _ _ := Effect.Plain.stateless trivial
  callReturn _ _ _ := Effect.Plain.stateless trivial

def byway : Body :=
  ⟨2, [⟨[], .ret⟩, ⟨[.nop, .nop], .ret⟩], "byway"⟩

end Cursor

end

namespace Cursor

section

attribute [local instance] Machine.ample

/-- A cursor that has failed in the block beside the way gets to the end of the block that was
reached. -/
theorem seek_after_failures_byway :
    ∃ r s₁ c s₂, stumbling.solve {} byway ⟨(), []⟩ = .ok r s₁ ∧
      (Seek.after ⟨1, 1⟩).run r ({}, s₁) = .error (.raised "stuck") (c, s₂) ∧
      c.position = some (1, 0) ∧
      ∃ c' s₃, (Seek.blockEnd 0).run r (c, s₂) = .ok () (c', s₃) := by
  obtain ⟨r, s₁, c, s₂, h, hseek, hbody, hreached⟩ : ∃ r s₁ c s₂,
      stumbling.solve {} byway ⟨(), []⟩ = .ok r s₁ ∧
      (Seek.after ⟨1, 1⟩).run r ({}, s₁) = .error (.raised "stuck") (c, s₂) ∧
      r.body = byway ∧ r.wasReached 0 = true :=
    ⟨_, _, _, _, by cbv, by cbv, rfl, by cbv⟩
  have hr : r.Returned := .solve stumbling_stateless h
  have hthere : (Seek.after ⟨1, 1⟩).goal r.body = .ok (1, 2) := by
    rw [hbody]
    rfl
  have hend : (Seek.blockEnd 0).goal r.body = .ok (0, 1) := by
    rw [hbody]
    rfl
  have hfailed : c.Driven r false := Driven.new.failed hthere hseek
  obtain ⟨-, hafter⟩ := seek_after_failures hr .new (.after ⟨1, 1⟩) s₁
  obtain ⟨_, _, -, -, -, -, -, hstop⟩ := hafter 1 2 hthere
  obtain ⟨-, hseeks⟩ := seek_after_failures hr hfailed (.blockEnd 0) s₂
  obtain ⟨_, _, -, -, hreturns, -⟩ := hseeks 0 1 hend
  exact ⟨r, s₁, c, s₂, h, hseek, (hstop _ _ _ hseek).2, hreturns hreached⟩

/-- A seek fails behind the first statement of the block beside the way. The seek to the place
behind that statement then returns, but has replayed the statement twice: local 1 is tainted there,
which a new cursor does not find. -/
theorem seek_astray_byway :
    ∃ r s₁ c s₂ c' s₃ T s₄ U, stumbling.solve {} byway ⟨(), []⟩ = .ok r s₁ ∧
      (Seek.after ⟨1, 1⟩).run r ({}, s₁) = .error (.raised "stuck") (c, s₂) ∧
      (Seek.after ⟨1, 0⟩).run r (c, s₂) = .ok () (c', s₃) ∧ c'.position = some (1, 1) ∧
      c'.get = .ok T ∧ T.toList = [0, 1] ∧
      r.stateAfter ⟨1, 0⟩ s₃ = .ok U s₄ ∧ U.toList = [0] :=
  ⟨_, _, _, _, _, _, _, _, _, by cbv, by cbv, by cbv, by cbv, by cbv, by cbv, by cbv, by cbv⟩

end

end Cursor

/-! ### Where nothing is tainted -/

def LocalSet.Untainted (S : LocalSet) : Prop :=
  ∀ i, S.has i = false

theorem LocalSet.untainted_of_bottom {size : Int} {S : LocalSet} (h : bottom size = .ok S) :
    S.Untainted := by
  unfold bottom ofPattern at h
  split at h
  · cases h
  · rw [if_pos rfl] at h
    cases h
    exact has_empty _

variable {σ : Type}

def Spares (x : EStateM Fault (LocalSet × Session σ) Unit) (S : LocalSet) : Prop :=
  ∀ s, ∃ s', x (S, s) = .ok () (S, s') ∨ ∃ f, x (S, s) = .error f (S, s')

theorem Spares.eq_of_ok {x : EStateM Fault (LocalSet × Session σ) Unit} {S T : LocalSet}
    {s s' : Session σ} (hx : Spares x S) (h : x (S, s) = .ok () (T, s')) : T = S := by
  obtain ⟨t, ht | ⟨f, ht⟩⟩ := hx s
  · rw [ht] at h
    cases h
    rfl
  · rw [ht] at h
    cases h

theorem Spares.eq_of_error {x : EStateM Fault (LocalSet × Session σ) Unit} {S T : LocalSet}
    {s s' : Session σ} {f : Fault} (hx : Spares x S) (h : x (S, s) = .error f (T, s')) : T = S := by
  obtain ⟨t, ht | ⟨f, ht⟩⟩ := hx s
  · rw [ht] at h
    cases h
  · rw [ht] at h
    cases h
    rfl

variable [Machine]

namespace Analysis

variable {a : Analysis σ} {body : Body} {bb : BlockId} {is : List Instruction} {S T : LocalSet}
  {k : Nat}

theorem spares_replayFrom (ha : ∀ i l, Spares (a.instruction i l).run S) (count : Nat)
    (index : Int) : Spares (a.replayFrom body bb count index) S := by
  induction count generalizing index with
  | zero => exact fun s => ⟨s, .inl rfl⟩
  | succ count ih =>
    intro s
    cases hi : body.instructionAt ⟨bb, index⟩ with
    | error f =>
      rw [replayFrom_succ_error hi]
      exact ⟨s, .inr ⟨f, rfl⟩⟩
    | ok i =>
      rw [replayFrom_succ hi]
      obtain ⟨s₁, hfirst | ⟨f, hfirst⟩⟩ := ha i ⟨bb, index⟩ s
      · rw [estate_bind_of_ok hfirst]
        exact ih (index + 1) s₁
      · exact ⟨s₁, .inr ⟨f, estate_bind_of_error hfirst⟩⟩

theorem Replayed.eq_of_spares (s : Session σ) (ha : ∀ i l, Spares (a.instruction i l).run S)
    (h : a.Replayed bb is S k T) : T = S := by
  induction h with
  | entry => rfl
  | step _ _ hrun ih =>
    subst ih
    obtain ⟨s', hs⟩ := hrun s
    exact (ha _ _).eq_of_ok hs

end Analysis

namespace Rules

variable {S : LocalSet}

theorem anyTainted_of_untainted (hS : S.Untainted) (sources : List Datum) (s : Session σ) :
    (anyTainted sources).run (S, s) = .ok false (S, s) ∨
      ∃ f, (anyTainted sources).run (S, s) = .error f (S, s) := by
  induction sources with
  | nil => exact .inl rfl
  | cons d sources ih =>
    cases hd : S.contains d with
    | error f =>
      refine .inr ⟨f, ?_⟩
      simp only [anyTainted, Effect.run, show Accumulator.contains S d = .error f from hd]
    | ok b =>
      have hb : b = false := by
        obtain ⟨i, _, hb⟩ := except_bind_eq_ok.1 hd
        cases hb
        exact hS i
      simp only [anyTainted, Effect.run, show Accumulator.contains S d = .ok b from hd, hb]
      exact ih

theorem spares_clean (hS : S.Untainted) (d : Datum) :
    Spares (Effect.setTaint (σ := σ) false d).run S := by
  intro s
  show ∃ s', (Effect.kill d (.done ())).run (S, s) = .ok () (S, s') ∨
    ∃ f, (Effect.kill d (.done ())).run (S, s) = .error f (S, s')
  cases hkill : Accumulator.kill S d with
  | error f => exact ⟨s, .inr ⟨f, by simp only [Effect.run, hkill]⟩⟩
  | ok T =>
    obtain ⟨i, _, rfl⟩ := Effect.kill_eq_ok.1 hkill
    have herase : S.erase i = S := LocalSet.eq_of_has (S.size_erase i) fun j => by
      rw [LocalSet.has_erase, hS j, Bool.false_and]
    rw [herase] at hkill
    exact ⟨s, .inl (by simp only [Effect.run, hkill])⟩

/-- Where nothing is tainted, a verdict taints nothing. -/
theorem Verdict.spares {report : Reporter σ} (hreport : ∀ c, Spares (report c).run S)
    (hS : S.Untainted) (v : Verdict) : Spares (v.effect report).run S := by
  cases v with
  | keep => exact fun s => ⟨s, .inl rfl⟩
  | report c => exact hreport c
  | refuse f => exact fun s => ⟨s, .inr ⟨f, rfl⟩⟩
  | flow target sources =>
    intro s
    rw [Verdict.effect, Effect.run_bind]
    rcases anyTainted_of_untainted hS sources s with h | ⟨f, h⟩
    · rw [estate_bind_of_ok h]
      exact spares_clean hS target s
    · exact ⟨s, .inr ⟨f, estate_bind_of_error h⟩⟩

end Rules

namespace Taint

variable {η : Type} {t : Taint η} {r : Results (Memory η)} {limits : Limits} {body : Body}
  {s₀ s₁ : Session (Memory η)} {intact : Bool} {c : Cursor}

theorem spares_instruction {S : LocalSet} (hS : S.Untainted) (i : Instruction) (l : Location) :
    Spares (t.analysis.instruction i l).run S := by
  cases i with
  | terminator i =>
    intro s
    cases i with
    | statement | foreign => exact ⟨s, .inr ⟨_, rfl⟩⟩
    | _ => exact ⟨s, .inl rfl⟩
  | statement i =>
    show Spares (Rules.statement t.reporter i l).run S
    rw [Rules.statement_eq]
    refine Rules.Verdict.spares (fun c s => ?_) hS _
    unfold reporter
    split
    · exact ⟨s, .inr ⟨_, rfl⟩⟩
    · exact ⟨note c s, .inl (run_record c S s)⟩

theorem analysis_of_solve (h : t.solve limits body s₀ = .ok r s₁) :
    r.analysis = t.quiet.analysis := by
  obtain ⟨r₀, _, _, hquiet⟩ := estate_bind_eq_ok.1 h
  cases hquiet
  rfl

theorem untainted_of_unreached (h : t.solve limits body s₀ = .ok r s₁) {bb : BlockId}
    (hbb : r.wasReached bb = false) {S : LocalSet} (hS : r.entrySet bb = .ok S) : S.Untainted := by
  obtain ⟨r₀, _, hr₀, hquiet⟩ := estate_bind_eq_ok.1 h
  cases hquiet
  obtain ⟨hexits, hentries⟩ := Analysis.mem_blocks_of_solve hr₀ bb
  rw [Table.mem_blocks] at hexits hentries
  have hnone : r₀.entries.get? bb = none := by
    rw [← Option.not_isSome_iff_eq_none, hentries, ← hexits]
    exact Bool.eq_false_iff.1 hbb
  obtain ⟨⟨⟩, _, hstate⟩ := except_bind_eq_ok.1 hS
  simp only [hnone] at hstate
  exact LocalSet.untainted_of_bottom hstate

/-- However many seeks have failed, a cursor through the results of the taint analysis is in
order. -/
theorem placed_of_driven
    (hmodel : ∀ model, t.settings.callModel = some model → ∀ c l, (model c l).Stateless)
    (h : t.solve limits body s₀ = .ok r s₁) (hc : c.Driven r intact) : c.Placed r := by
  have hr := replays_of_solve hmodel h
  induction hc with
  | new => exact .new
  | refused _ hgoal hrun ih =>
    rw [Seek.run_of_refused hgoal] at hrun
    cases hrun
    exact ih
  | accepted _ _ hrun ih =>
    obtain ⟨bb, b, k, S, T, _, hb, _, hS, hT, rfl⟩ := hr.exists_of_seek ih hrun
    exact .inside hb hS hT
  | @failed intact seek place c c' s s' f _ hgoal hrun ih =>
    obtain ⟨bb, k⟩ := place
    obtain ⟨hblock, b, hb, k, rfl, hk⟩ := Seek.exists_of_goal hgoal
    obtain ⟨S, hS⟩ := hr.exists_entrySet hblock hb
    rw [Seek.run_of_goal hgoal] at hrun
    have hstands : c.Stands r intact := .placed ih
    have huntainted : S.Untainted :=
      untainted_of_unreached h (hr.unreached_of_error hstands hb hS hk hrun) hS
    have hspares : ∀ i l, Spares (r.analysis.instruction i l).run S := by
      rw [analysis_of_solve h]
      exact spares_instruction huntainted
    -- the replay that gives up began with the entry state and has left it as it was
    obtain ⟨j, T, -, hT, hmove⟩ := ih.exists_moveTo hb hS k s
    cases hT.eq_of_spares s hspares
    rw [hmove] at hrun
    cases hrest : r.analysis.replayFrom r.body bb (k - j) j (S, s) with
    | ok _ u =>
      rw [hrest] at hrun
      cases hrun
    | error _ u =>
      obtain ⟨U, u⟩ := u
      rw [hrest] at hrun
      cases hrun
      cases (Analysis.spares_replayFrom hspares _ _).eq_of_error hrest
      exact .inside hb hS hT

/-- A cursor through the results of the taint analysis agrees with a new one after any failures. -/
theorem seek_as_new
    (hmodel : ∀ model, t.settings.callModel = some model → ∀ c l, (model c l).Stateless)
    (h : t.solve limits body s₀ = .ok r s₁) (hc : c.Driven r intact) {seek : Seek} {c' : Cursor}
    {s s' : Session (Memory η)} (hrun : seek.run r (c, s) = .ok () (c', s')) :
    ∃ T, c'.get = .ok T ∧ Run.Yields (Results.stateAt (seek.run r)) T := by
  have hr := replays_of_solve hmodel h
  obtain ⟨bb, b, k, S, T, hgoal, hb, hk, hS, hT, rfl⟩ :=
    hr.exists_of_seek (placed_of_driven hmodel h hc) hrun
  exact ⟨T, rfl, hr.stateAt_yields hgoal hb hS hk hT⟩

end Taint

end MayTaint
