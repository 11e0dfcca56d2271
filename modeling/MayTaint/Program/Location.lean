import MayTaint.Datum
import MayTaint.Sorted

/-!
Program points and edges. A location names a block and the index of an instruction in it; the index
after the last statement is that of the terminator. Locations are ordered by block, then by index.
Edges of the control flow are classified by the way a terminator takes them.
-/

namespace MayTaint

/-- Blocks are numbered from zero; other numbers name no block. -/
abbrev BlockId := Int

structure Location where
  block : BlockId
  index : Int
  deriving DecidableEq, Repr, Inhabited

namespace Location

def spelling (l : Location) : Spelling :=
  "bb" ++ .number l.block ++ "[" ++ .number l.index ++ "]"

def text (l : Location) : String :=
  l.spelling.text

def datum (l : Location) : Datum :=
  .record "Location" [("block", .int l.block), ("statement_index", .int l.index)]

def precedes (l m : Location) : Bool :=
  l.block < m.block || (l.block == m.block && l.index < m.index)

theorem precedes_iff {l m : Location} :
    l.precedes m = true ↔ l.block < m.block ∨ (l.block = m.block ∧ l.index < m.index) := by
  simp [precedes]

theorem precedes_trans {l m n : Location} (h : l.precedes m = true) (h' : m.precedes n = true) :
    l.precedes n = true := by
  grind [precedes_iff]

theorem precedes_or_precedes {l m : Location} (h : l ≠ m) :
    l.precedes m = true ∨ m.precedes l = true := by
  obtain ⟨bb, i⟩ := l
  obtain ⟨bb', j⟩ := m
  grind [precedes_iff]

def notAfter (l m : Location) : Bool :=
  l.precedes m || l == m

def sort (ls : List Location) : List Location :=
  Sorted.sort precedes ls

end Location

inductive EdgeKind where
  | goto
  | switchCase
  | switchOtherwise
  | callReturn
  | assertOk
  | dropDone
  | unwind
  deriving DecidableEq, Repr, Inhabited

instance : Family EdgeKind where
  family := "EdgeKind"
  members := [.goto, .switchCase, .switchOtherwise, .callReturn, .assertOk, .dropDone, .unwind]
  name
    | .goto => "GOTO"
    | .switchCase => "SWITCH_CASE"
    | .switchOtherwise => "SWITCH_OTHERWISE"
    | .callReturn => "CALL_RETURN"
    | .assertOk => "ASSERT_OK"
    | .dropDone => "DROP_DONE"
    | .unwind => "UNWIND"
  value
    | .goto => "goto"
    | .switchCase => "switch-case"
    | .switchOtherwise => "otherwise"
    | .callReturn => "return"
    | .assertOk => "success"
    | .dropDone => "drop"
    | .unwind => "unwind"

end MayTaint
