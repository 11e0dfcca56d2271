import MayTaint.Program.Location

/-!
Reports: the analysis's own family of errors. Each report has a kind, a stable code, a text and
perhaps a location; kinds form a tree under the general one.
-/

namespace MayTaint

/-- Stable codes. The thousands tell unsupported constructs, broken preconditions and broken
invariants apart. -/
inductive Code where
  | unsupportedRvalue
  | unsupportedCallReturn
  | localOutOfRange
  | domainMismatch
  | malformedBody
  | nonConvergence
  | nonMonotone
  deriving DecidableEq, Repr, Inhabited

instance : Family Code where
  family := "ErrorCode"
  members := [.unsupportedRvalue, .unsupportedCallReturn, .localOutOfRange, .domainMismatch,
    .malformedBody, .nonConvergence, .nonMonotone]
  name
    | .unsupportedRvalue => "UNSUPPORTED_RVALUE"
    | .unsupportedCallReturn => "UNSUPPORTED_CALL_RETURN"
    | .localOutOfRange => "LOCAL_OUT_OF_RANGE"
    | .domainMismatch => "DOMAIN_MISMATCH"
    | .malformedBody => "MALFORMED_BODY"
    | .nonConvergence => "NON_CONVERGENCE"
    | .nonMonotone => "NON_MONOTONE"
  value
    | .unsupportedRvalue => "TF-1001"
    | .unsupportedCallReturn => "TF-1002"
    | .localOutOfRange => "TF-2001"
    | .domainMismatch => "TF-2002"
    | .malformedBody => "TF-2101"
    | .nonConvergence => "TF-9001"
    | .nonMonotone => "TF-9002"

namespace Report

inductive Kind where
  | general
  | unsupportedConstruct
  | localIndex
  | domainMismatch
  | malformedBody
  | internalInvariant
  | nonConvergence
  | monotonicity
  deriving DecidableEq, Repr, Inhabited

def Kind.name : Kind → String
  | .general => "TaintFlowError"
  | .unsupportedConstruct => "UnsupportedConstructError"
  | .localIndex => "LocalIndexError"
  | .domainMismatch => "DomainMismatchError"
  | .malformedBody => "MalformedBodyError"
  | .internalInvariant => "InternalInvariantError"
  | .nonConvergence => "NonConvergenceError"
  | .monotonicity => "MonotonicityError"

def Kind.parent? : Kind → Option Kind
  | .general => none
  | .nonConvergence | .monotonicity => some .internalInvariant
  | _ => some .general

def Kind.all : List Kind :=
  [.general, .unsupportedConstruct, .localIndex, .domainMismatch, .malformedBody,
    .internalInvariant, .nonConvergence, .monotonicity]

/-- A kind, the kind that it is a case of, and so on up to the general one. -/
def Kind.lineage (k : Kind) : List Kind :=
  match k.parent? with
  | none => [k]
  | some p =>
    match p.parent? with
    | none => [k, p]
    | some q => [k, p, q]

/-- The built-in errors that a kind is a case of besides, the nearest one first. -/
def Kind.builtinBases : Kind → List String
  | .localIndex => ["IndexError", "LookupError"]
  | .domainMismatch | .malformedBody => ["ValueError"]
  | _ => []

def Kind.bases (k : Kind) : List String :=
  k.lineage.map name ++ k.builtinBases ++ ["Exception", "BaseException", "object"]

def Kind.code : Kind → Code
  | .general | .malformedBody => .malformedBody
  | .unsupportedConstruct => .unsupportedRvalue
  | .localIndex => .localOutOfRange
  | .domainMismatch => .domainMismatch
  | .internalInvariant | .nonConvergence => .nonConvergence
  | .monotonicity => .nonMonotone

end Report

/-- An error of the analysis. The numerals are the numbers that its text spells out, and the details
the values that the text was made from. -/
structure Report where
  kind : Report.Kind
  code : Code
  text : Datum
  numerals : List Int
  location : Option Location := none
  details : List (String × Datum) := []

namespace Report

def message (r : Report) : String :=
  let place := match r.location with
    | some l => " (at " ++ l.text ++ ")"
    | none => ""
  "[" ++ Family.value r.code ++ "] " ++ r.text.inText ++ place

def plain (kind : Kind) (text : Datum) (code : Option Code) (location : Option Location) : Report :=
  ⟨kind, code.getD kind.code, text, text.mention.numerals, location, []⟩

def composed (kind : Kind) (text : Spelling) (details : List (String × Datum)) : Report :=
  ⟨kind, kind.code, .text text.text, text.numerals, none, details⟩

def localIndex (index size : Datum) : Report :=
  composed .localIndex
    ("local _" ++ index.mention ++ " is outside the domain [0, " ++ size.mention ++ ")")
    [("local", index), ("domain_size", size)]

def domainMismatch (left right : Datum) : Report :=
  composed .domainMismatch
    ("cannot combine bit-sets of domain size " ++ left.mention ++ " and " ++ right.mention)
    [("left", left), ("right", right)]

def nonConvergence (body limit : Datum) : Report :=
  composed .nonConvergence
    ("taint analysis of " ++ body.spelling ++ " did not converge in " ++ limit.mention
      ++ " iterations")
    [("body_name", body), ("max_iterations", limit)]

/-- An exit state that lost locals; `lost` is a collection of them and `names` its items. -/
def monotonicity (body block lost : Datum) (names : List Datum) : Report :=
  composed .monotonicity
    ("exit state of bb" ++ block.mention ++ " in " ++ body.spelling ++ " lost "
      ++ .bracketed "\x7b" "\x7d" (names.map fun d => "_" ++ d.mention)
      ++ "; the transfer function is not monotone")
    [("body_name", body), ("block", block), ("lost", lost)]

end Report

end MayTaint
