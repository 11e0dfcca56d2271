import MayTaint.Report

/-!
Faults: every reason for which an operation of the library can stop, and how it is told. Some are
errors of the analysis and come with a report; the others are plain misuse or refusals of the
machine. Telling a fault spells out the numbers in its message, which the machine may refuse in
turn.
-/

namespace MayTaint

/-- The parts of an instruction that something else can wrongly stand for. -/
inductive Role where
  | operand
  | rvalue
  | statement
  | terminator
  deriving DecidableEq, Repr

def Role.described : Role → String
  | .operand => "an operand"
  | .rvalue => "an rvalue"
  | .statement => "a statement"
  | .terminator => "a terminator"

inductive Fault where
  -- sets of locals
  | negativeDomain (size : Int)
  | patternTooWide (pattern size : Int)
  | notAnIndex (given : Datum)
  | localOutOfRange (index : Int) (size : Nat)
  | domainMismatch (left right : Nat)
  -- what the machine refuses
  | tooManyDigits
  | outOfMemory
  | numeralTooLong (most : Nat)
  -- programs
  | misplaced (expected : Role) (given : Datum)
  | lacks (kind feature : String)
  | indexOutOfRange
  | positionTooWide
  | noPredecessors (block : BlockId)
  | negativeLocalCount (body : String) (count : Int)
  | noBlocks (body : String)
  | danglingEdge (body : String) (kind : EdgeKind) (target : BlockId) (location : Location)
  | noSuchBlock (body : String) (block : BlockId)
  | noSuchInstruction (body : String) (location : Location)
  -- runs; the first two where constructs without a rule or a model are refused
  | unsupported (detail : String) (location : Location)
  | unmodelledCall (call : String) (location : Location)
  | diverged (body : String) (limit : Datum)
  | shrank (body : String) (block : BlockId) (lost : List Nat)
  | duplicateBody (name : String)
  | cursorNotPlaced
  | raised (text : String)
  -- settings and data
  | unknownSettings (names : List String)
  | limitNotPositive (given : Datum)
  | unordered (left right : String)
  | notAMember (family : String) (given : Datum)
  | notACollection (kind : String)
  | unfitKey (kind : String)
  | notANumber (text : String)
  | notHexadecimal (position : Nat)
  | notBytes (kind : String)
  -- arguments of what makes reports; `named` counts those that are given by name
  | unknownArgument (maker name : String)
  | missingArguments (maker : String) (names : List String)
  | surplusArguments (maker : String) (taken given named : Nat)
  -- the catalogue
  | noSection (name reason : String)
  | nestedTooDeep
  | notExported (sectionName name : String)
  | lockedName

namespace Fault

def hexText (n : Int) : String :=
  (if n < 0 then "-0x" else "0x") ++ String.ofList (Text.hex 1 n.natAbs)

/-- Quoted names in a row, the last one after a conjunction. -/
def nameSeries : List String → String
  | [] => ""
  | [a] => quoted a
  | [a, b] => quoted a ++ " and " ++ quoted b
  | names => String.intercalate ", " (names.dropLast.map quoted) ++ ", and "
      ++ String.join (names.getLast?.toList.map quoted)
where
  quoted (name : String) : String := "'" ++ name ++ "'"

def plural (n : Nat) : String :=
  if n = 1 then "" else "s"

/-- The words for a fault: a message for misuse, a report for an error of the analysis. Numbers come
from the data at hand; positions of what is there, and counts of it, are never long. -/
def wording : Fault → Spelling ⊕ Report
  | negativeDomain size => .inl ("domain size must be non-negative, got " ++ .number size)
  | patternTooWide pattern size =>
    .inl ("bit pattern " ++ hexText pattern ++ " does not fit a domain of " ++ .number size
      ++ " locals")
  | notAnIndex given => .inl ("local index must be an int, got " ++ given.spelling)
  | localOutOfRange index size => .inr (.localIndex (.int index) (.int size))
  | domainMismatch left right => .inr (.domainMismatch (.int left) (.int right))
  | tooManyDigits => .inl "too many digits in integer"
  | outOfMemory => .inl ""
  | numeralTooLong most =>
    .inl ("Exceeds the limit (" ++ toString most ++ " digits) for integer string conversion; "
      ++ "use sys.set_int_max_str_digits() to increase the limit")
  | misplaced expected given => .inl ("not " ++ expected.described ++ ": " ++ given.spelling)
  | lacks kind feature => .inl ("'" ++ kind ++ "' object has no attribute '" ++ feature ++ "'")
  | indexOutOfRange => .inl "tuple index out of range"
  | positionTooWide => .inl "cannot fit 'int' into an index-sized integer"
  | noPredecessors block => .inl (toString block)
  | negativeLocalCount body count =>
    malformed (body ++ ": negative local count " ++ .number count) none
  | noBlocks body => malformed (body ++ ": body has no basic blocks") none
  | danglingEdge body kind target location =>
    malformed (body ++ ": " ++ Family.value kind ++ " edge to non-existent bb" ++ .number target)
      location
  | noSuchBlock body block => malformed (body ++ ": no block bb" ++ .number block) none
  | noSuchInstruction body location =>
    malformed (body ++ ": bb" ++ toString location.block ++ " has no instruction "
      ++ .number location.index) none
  | unsupported detail location =>
    .inr (.plain .unsupportedConstruct (.text detail) (some .unsupportedRvalue) location)
  | unmodelledCall call location =>
    .inr (.plain .unsupportedConstruct
      (.text ("call-return effect of `" ++ call ++ "` is not modelled"))
      (some .unsupportedCallReturn) location)
  | diverged body limit => .inr (.nonConvergence (.text body) limit)
  | shrank body block lost =>
    let names := lost.map fun i : Nat => Datum.int i
    .inr (.monotonicity (.text body) (.int block) (.list names) names)
  | duplicateBody name => .inl ("duplicate body name " ++ Text.quote name)
  | cursorNotPlaced => .inl "cursor has not been positioned; call seek_before() first"
  | raised text => .inl text
  | unknownSettings names => .inl ("unknown analysis settings: " ++ String.intercalate ", " names)
  | limitNotPositive given => .inl ("max_iterations must be positive, got " ++ given.mention)
  | unordered left right =>
    .inl ("'<' not supported between instances of '" ++ left ++ "' and '" ++ right ++ "'")
  | notAMember family given => .inl (given.spelling ++ " is not a valid " ++ family)
  | notACollection kind => .inl ("'" ++ kind ++ "' object is not iterable")
  | unfitKey kind => .inl ("unhashable type: '" ++ kind ++ "'")
  | notANumber text => .inl ("could not convert string to float: " ++ Text.quote text)
  | notHexadecimal position =>
    .inl ("non-hexadecimal number found in fromhex() arg at position " ++ toString position)
  | notBytes kind => .inl ("a bytes-like object is required, not '" ++ kind ++ "'")
  | unknownArgument maker name =>
    .inl (maker ++ ".__init__() got an unexpected keyword argument '" ++ name ++ "'")
  | missingArguments maker names =>
    .inl (maker ++ ".__init__() missing " ++ toString names.length
      ++ " required positional argument" ++ plural names.length ++ ": " ++ nameSeries names)
  | surplusArguments maker taken given named =>
    -- what is made counts as the first argument
    let besides :=
      if named = 0 then ""
      else " positional arguments (and " ++ toString named ++ " keyword-only argument"
        ++ plural named ++ ")"
    .inl (maker ++ ".__init__() takes " ++ toString (taken + 1) ++ " positional arguments but "
      ++ toString (given + 1) ++ besides ++ " were given")
  | noSection name reason =>
    .inl ("taintflow: required submodule '" ++ name ++ "' failed to import: " ++ reason)
  | nestedTooDeep => .inl "maximum recursion depth exceeded"
  | notExported sectionName name =>
    .inl ("taintflow." ++ sectionName ++ " does not export '" ++ name ++ "'")
  | lockedName => .inl "readonly attribute"
where
  malformed (text : Spelling) (location : Option Location) : Spelling ⊕ Report :=
    .inr { Report.composed .malformedBody text [] with location }

def numerals (f : Fault) : List Int :=
  match f.wording with
  | .inl text => text.numerals
  | .inr report => report.numerals

/-- The built-in error that misuse is. -/
def misuseName : Fault → String
  | notAnIndex _ | misplaced _ _ | unordered _ _ | notACollection _ | unfitKey _ | notBytes _
  | unknownArgument _ _ | missingArguments _ _ | surplusArguments _ _ _ _ => "TypeError"
  | lacks _ _ | notExported _ _ | lockedName => "AttributeError"
  | indexOutOfRange | positionTooWide => "IndexError"
  | tooManyDigits => "OverflowError"
  | outOfMemory => "MemoryError"
  | noPredecessors _ => "KeyError"
  | cursorNotPlaced | raised _ => "RuntimeError"
  | noSection _ _ => "ImportError"
  | nestedTooDeep => "RecursionError"
  | _ => "ValueError"

def name (f : Fault) : String :=
  match f.wording with
  | .inl _ => f.misuseName
  | .inr report => report.kind.name

section

variable [Machine]

/-- What comes of telling a fault. A number that the machine does not write takes its place. -/
def told (f : Fault) : Fault :=
  if f.numerals.all Machine.writes then f else numeralTooLong (Machine.digits.getD 0)

def report? (f : Fault) : Option Report :=
  f.told.wording.getRight?

def message (f : Fault) : String :=
  match f.told.wording with
  | .inl text => text.text
  | .inr report => report.message

def errorName (f : Fault) : String :=
  f.told.name

theorem told_of_writes {f : Fault} (h : f.numerals.all Machine.writes = true) : f.told = f :=
  if_pos h

theorem told_of_not_writes {f : Fault} (h : f.numerals.all Machine.writes = false) :
    f.told = numeralTooLong (Machine.digits.getD 0) :=
  if_neg (Bool.eq_false_iff.1 h)

end

end Fault

def Spelling.written [Machine] (t : Spelling) : Except Fault String :=
  if t.isWritten then .ok t.text else .error (.numeralTooLong (Machine.digits.getD 0))

namespace Spelling

variable [Machine] {t : Spelling} {text : String}

theorem written_of_isWritten (h : t.isWritten = true) : t.written = .ok t.text :=
  if_pos h

theorem written_of_not_isWritten (h : t.isWritten = false) :
    t.written = .error (.numeralTooLong (Machine.digits.getD 0)) :=
  if_neg (Bool.eq_false_iff.1 h)

theorem written_eq_ok_iff : t.written = .ok text ↔ t.isWritten = true ∧ text = t.text := by
  cases h : t.isWritten with
  | true => simp [written_of_isWritten h, eq_comm]
  | false => simp [written_of_not_isWritten h]

end Spelling

def Family.find {α : Type} [Family α] (d : Datum) : Except Fault α :=
  match Family.find? d with
  | some a => .ok a
  | none => .error (.notAMember (Family.family α) d)

end MayTaint
