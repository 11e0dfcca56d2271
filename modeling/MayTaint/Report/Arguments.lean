import MayTaint.Fault

/-!
Reports made from arguments, as a host makes them. A kind whose text is composed takes the details
of the text and nothing else. The other kinds take the text, and a code and a location may be given
by name.
-/

namespace MayTaint.Report

def Kind.parameters : Kind → List String
  | .localIndex => ["local", "domain_size"]
  | .domainMismatch => ["left", "right"]
  | .nonConvergence => ["body_name", "max_iterations"]
  | .monotonicity => ["body_name", "block", "lost"]
  | _ => ["message"]

/-- The kind whose arguments a kind takes: its own, or those of the general kind. -/
def Kind.maker : Kind → Kind
  | .localIndex => .localIndex
  | .domainMismatch => .domainMismatch
  | .nonConvergence => .nonConvergence
  | .monotonicity => .monotonicity
  | _ => .general

def Kind.misfit (kind : Kind) (given named : Nat) : Fault :=
  if kind.parameters.length < given then
    .surplusArguments kind.maker.name kind.parameters.length given named
  else .missingArguments kind.maker.name (kind.parameters.drop given)

def namedArguments (code : Option Code) (location : Option Location) : List String :=
  (code.toList.map fun _ => "code") ++ location.toList.map fun _ => "location"

/-- The report, if the machine writes its message, in which the location stands too. -/
def written [Machine] (r : Report) : Except Fault Report :=
  let place := (r.location.map fun l => l.spelling.numerals).getD []
  if (r.numerals ++ place).all Machine.writes then .ok r
  else .error (.numeralTooLong (Machine.digits.getD 0))

def make [Machine] (kind : Kind) (args : List Datum) (code : Option Code)
    (location : Option Location) : Except Fault Report :=
  let named := namedArguments code location
  match kind.maker, named, args with
  | .general, _, [text] => (plain kind text code location).written
  | .general, _, _ => .error (kind.misfit args.length named.length)
  | maker, name :: _, _ => .error (.unknownArgument maker.name name)
  | .localIndex, [], [index, size] => (localIndex index size).written
  | .domainMismatch, [], [left, right] => (domainMismatch left right).written
  | .nonConvergence, [], [body, limit] => (nonConvergence body limit).written
  | .monotonicity, [], [body, block, lost] =>
    match lost.items? with
    | some names => (monotonicity body block lost names).written
    | none => .error (.notACollection lost.typeName)
  | _, [], _ => .error (kind.misfit args.length 0)

end MayTaint.Report
