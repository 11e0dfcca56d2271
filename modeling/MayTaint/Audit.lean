import MayTaint.Fault

/-!
Unsupported constructs: instructions that the rules leave untouched, kept for an audit. An audit log
has at most one record for a location and kind, the first one made, and keeps its records in order.
-/

namespace MayTaint

inductive UnsupportedKind where
  | rvalue
  | callReturn
  deriving DecidableEq, Repr, Inhabited

instance : Family UnsupportedKind where
  family := "UnsupportedKind"
  members := [.rvalue, .callReturn]
  name
    | .rvalue => "RVALUE"
    | .callReturn => "CALL_RETURN"
  value
    | .rvalue => "rvalue"
    | .callReturn => "call-return"

/-- An instruction that the rules left untouched. -/
structure Construct where
  location : Location
  kind : UnsupportedKind
  detail : String
  deriving DecidableEq, Repr, Inhabited

namespace Construct

def text (c : Construct) : String :=
  c.location.text ++ ": unsupported " ++ Family.value c.kind ++ ": " ++ c.detail

def datum (c : Construct) : Datum :=
  .record "UnsupportedConstruct"
    [("location", c.location.datum), ("kind", Family.datum c.kind), ("detail", .text c.detail)]

/-- Compares field by field, the first unequal field decides. Kinds have no order. -/
def lessThan (c d : Construct) : Except Fault Bool :=
  if c.location ≠ d.location then .ok (c.location.precedes d.location)
  else if c.kind ≠ d.kind then
    .error (.unordered (Family.family UnsupportedKind) (Family.family UnsupportedKind))
  else .ok (decide (c.detail < d.detail))

def sameKey (c d : Construct) : Bool :=
  c.location == d.location && c.kind == d.kind

theorem sameKey_iff {c d : Construct} :
    c.sameKey d = true ↔ c.location = d.location ∧ c.kind = d.kind := by
  rw [sameKey, Bool.and_eq_true, beq_iff_eq, beq_iff_eq]

/-- The order of an audit: by location, then by the value of the kind. -/
def listedBefore (c d : Construct) : Bool :=
  c.location.precedes d.location ||
    (c.location == d.location && decide (Family.value c.kind < Family.value d.kind))

end Construct

/-- The unsupported constructs of one run, in audit order. -/
structure AuditLog where
  body : String := "<body>"
  entries : List Construct := []

namespace AuditLog

def covers (log : AuditLog) (c : Construct) : Bool :=
  log.entries.any c.sameKey

/-- Adds a record, unless there is one about its location and kind already. -/
def record (log : AuditLog) (c : Construct) : AuditLog :=
  if log.covers c then log
  else { log with entries := Sorted.insert Construct.listedBefore c log.entries }

theorem covers_iff {log : AuditLog} {c : Construct} :
    log.covers c = true ↔ ∃ d ∈ log.entries, c.sameKey d = true :=
  List.any_eq_true

theorem covers_record {log : AuditLog} {c d : Construct} :
    (log.record c).covers d = true ↔ d.sameKey c = true ∨ log.covers d = true := by
  unfold record
  split
  · grind [covers_iff, Construct.sameKey_iff]
  · grind [covers_iff, Sorted.mem_insert]

theorem body_record (log : AuditLog) (c : Construct) : (log.record c).body = log.body := by
  unfold record
  split <;> rfl

theorem record_of_covers {log : AuditLog} {c : Construct} (h : log.covers c = true) :
    log.record c = log := by
  rw [record, if_pos h]

theorem perm_record {log : AuditLog} {c : Construct} (h : log.covers c = false) :
    (log.record c).entries.Perm (c :: log.entries) := by
  rw [record, if_neg (by simp [h])]
  exact Sorted.perm_insert _ c log.entries

/-- Records about different locations stay in the order of their locations. -/
theorem pairwise_record {log : AuditLog} {c : Construct}
    (h : log.entries.Pairwise fun d e => d.location.precedes e.location = true)
    (hnew : ∀ d ∈ log.entries, c.location ≠ d.location) :
    (log.record c).entries.Pairwise fun d e => d.location.precedes e.location = true := by
  unfold record
  split
  · exact h
  · refine Sorted.pairwise_insert ?_ h fun d hd => ⟨fun hbefore => ?_, fun hnot => ?_⟩
    · intro d e f
      exact Location.precedes_trans
    · simpa [Construct.listedBefore, hnew d hd] using hbefore
    · apply (Location.precedes_or_precedes (hnew d hd)).resolve_left
      intro hprecedes
      simp [Construct.listedBefore, hprecedes] at hnot

end AuditLog

end MayTaint
