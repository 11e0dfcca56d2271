import MayTaint.Cursor
import MayTaint.Proofs.Replay
import MayTaint.Proofs.WellFormed

/-!
Queries. A question about a location is answered by a new cursor, which goes to the entry of the
block and replays its instructions up to the location.
-/

namespace MayTaint

variable [Machine] {σ : Type} {r : Results σ} {bb : BlockId} {l : Location} {S T : LocalSet}
  {d : Datum}
  {s s' : Session σ}

namespace Cursor

/-- A new cursor replays a block from its entry. -/
theorem moveTo_new_eq {applied : Int} (hentry : r.entrySet bb = .ok S) :
    moveTo r bb applied ({}, s) =
      match r.analysis.replay r.body bb 0 (some applied) (S, s) with
      | .ok () (T, s') => .ok () (⟨some bb, applied, some T⟩, s')
      | .error f (T, s') => .error f (⟨some bb, 0, some T⟩, s') := by
  have hreset : reset r bb ({}, s) = .ok () (⟨some bb, 0, some S⟩, s) := by
    unfold reset
    rw [hentry]
    rfl
  unfold moveTo
  refine Eq.trans (estate_bind_of_ok rfl) ?_
  refine Eq.trans (estate_bind_of_ok hreset) ?_
  refine Eq.trans (estate_bind_of_ok rfl) ?_
  dsimp only
  cases r.analysis.replay r.body bb 0 (some applied) (S, s) <;> rfl

theorem moveTo_new {applied : Int} (hentry : r.entrySet bb = .ok S)
    (hreplay : r.analysis.replay r.body bb 0 (some applied) (S, s) = .ok () (T, s')) :
    moveTo r bb applied ({}, s) = .ok () (⟨some bb, applied, some T⟩, s') := by
  rw [moveTo_new_eq hentry, hreplay]

end Cursor

namespace Results

omit [Machine] in
/-- The state of a block in a table is the one that the run found, or else the least one. -/
theorem stateIn_eq {bottom : LocalSet} {b : Block} (hblock : r.body.hasBlock bb = true)
    (hb : r.body.block bb = .ok b) (hbottom : r.analysis.bottom r.body = .ok bottom)
    (t : Table LocalSet) : r.stateIn t bb = .ok ((t.get? bb).getD bottom) := by
  have hentry : r.body.validateLocation ⟨bb, 0⟩ = .ok () :=
    Body.validateLocation_eq_ok_iff.2 ⟨hblock, b, hb, le_rfl, Int.natCast_nonneg _⟩
  refine except_bind_eq_ok.2 ⟨(), hentry, ?_⟩
  cases t.get? bb with
  | some entry => rfl
  | none => exact hbottom

omit [Machine] in
theorem entrySet_eq {bottom : LocalSet} (hl : r.body.validateLocation l = .ok ())
    (hbottom : r.analysis.bottom r.body = .ok bottom) :
    r.entrySet l.block = .ok ((r.entries.get? l.block).getD bottom) := by
  obtain ⟨hblock, b, hb, _⟩ := Body.validateLocation_eq_ok_iff.1 hl
  exact stateIn_eq hblock hb hbottom r.entries

theorem stateBefore_eq {bottom : LocalSet} (hl : r.body.validateLocation l = .ok ())
    (hbottom : r.analysis.bottom r.body = .ok bottom) (s : Session σ) :
    r.stateBefore l s = match r.analysis.replay r.body l.block 0 (some l.index)
        ((r.entries.get? l.block).getD bottom, s) with
      | .ok () (T, s') => .ok T s'
      | .error f (_, s') => .error f s' := by
  have hchecked : Cursor.checked r l ({}, s) = .ok () ({}, s) := by
    rw [Cursor.checked, hl]
    rfl
  have hseek : Cursor.seekBefore r l ({}, s) = Cursor.moveTo r l.block l.index ({}, s) :=
    estate_bind_of_ok hchecked
  rw [Cursor.moveTo_new_eq (entrySet_eq hl hbottom)] at hseek
  cases hreplay : r.analysis.replay r.body l.block 0 (some l.index)
      ((r.entries.get? l.block).getD bottom, s) with
  | ok _ p =>
    rw [hreplay] at hseek
    exact estate_bind_of_ok (Run.onto_eq_ok.2 hseek)
  | error f p =>
    rw [hreplay] at hseek
    exact estate_bind_of_error (Run.onto_eq_error.2 ⟨_, hseek⟩)

/-- Whether a local may be tainted is looked up in what the replay up to the location leaves. -/
theorem isPossiblyTainted_yields {bottom : LocalSet} (hl : r.body.validateLocation l = .ok ())
    (hbottom : r.analysis.bottom r.body = .ok bottom)
    (hreplay : Turns (r.analysis.replay r.body l.block 0 (some l.index))
      ((r.entries.get? l.block).getD bottom) T)
    (hd : ∃ b, T.contains d = .ok b) : Run.Yields (r.isPossiblyTainted d l) (T.holds d) := by
  intro s
  obtain ⟨s', hrun⟩ := hreplay s
  obtain ⟨b, hb⟩ := hd
  have hstate : r.stateBefore l s = .ok T s' := by rw [stateBefore_eq hl hbottom, hrun]
  rw [LocalSet.holds_of_contains hb]
  exact ⟨s', estate_bind_eq_ok.2 ⟨T, s', hstate, Run.ofExcept_eq_ok.2 ⟨hb, rfl⟩⟩⟩

/-- A question is answered only if the block can be replayed up to the location. -/
theorem exists_replay_of_isPossiblyTainted {bottom : LocalSet} {answer : Bool}
    (hl : r.body.validateLocation l = .ok ()) (hbottom : r.analysis.bottom r.body = .ok bottom)
    (h : r.isPossiblyTainted d l s = .ok answer s') :
    ∃ T s₁, r.analysis.replay r.body l.block 0 (some l.index)
      ((r.entries.get? l.block).getD bottom, s) = .ok () (T, s₁) := by
  obtain ⟨T, s₁, hstate, _⟩ := estate_bind_eq_ok.1 h
  rw [stateBefore_eq hl hbottom] at hstate
  split at hstate
  · next T' s'' hreplay => exact ⟨T', s'', hreplay⟩
  · cases hstate

end Results

end MayTaint
