import MayTaint.Program.Terminator
import MayTaint.Effect

/-!
Settings of a run. They can be read from a mapping, which may name every setting at most once and
must name no other. A flag may be given as any datum and means its truth value; the limit may be
given as any number.
-/

namespace MayTaint

/-- What happens to the destination of a call when no model of calls is installed. -/
inductive CallReturnPolicy where
  | noEffect
  | fail
  deriving DecidableEq, Repr, Inhabited

instance : Family CallReturnPolicy where
  family := "CallReturnPolicy"
  members := [.noEffect, .fail]
  name
    | .noEffect => "NO_EFFECT"
    | .fail => "FAIL"
  value
    | .noEffect => "no-effect"
    | .fail => "fail"

/-- A model of calls: the effect of a call at a location on the edge to its continuation. -/
abbrev CallModel (η : Type) := Call → Location → Effect η Unit

structure Limits where
  /-- The greatest number of visits; by default one that is derived from the body. -/
  maxIterations : Datum := .null
  checkMonotonicity : Datum := .bool true

structure Settings (η : Type) extends Limits where
  /-- Whether to give up on an rvalue without a rule. -/
  strict : Datum := .bool false
  callReturn : CallReturnPolicy := .noEffect
  /-- A model of calls, which replaces the policy. -/
  callModel : Option (CallModel η) := none

namespace Datum

def belowOne : Datum → Except Fault Bool
  | bool b => .ok (ofTruth b < 1)
  | int n => .ok (n < 1)
  | float (.infinite negative) => .ok negative
  | float .nan => .ok false
  | float x => .ok (match x.floor? with
    | some n => n < 1
    | none => false)
  | d => .error (.unordered d.typeName "int")

/-- The least count that reaches a number, if some count does. -/
def leastCount? : Datum → Option Nat
  | bool b => some (ofTruth b).toNat
  | int n => some n.toNat
  | float x => x.ceil?.map Int.toNat
  | _ => none

end Datum

namespace Limits

/-- A number of visits that a body with these counts can never exceed as long as its exit states
only grow. -/
def derivedBound (blocks edges localCount : Int) : Int :=
  blocks + edges * (localCount + 1) + 1

def bound (limits : Limits) (blocks edges localCount : Int) : Datum :=
  match limits.maxIterations with
  | .null => .int (derivedBound blocks edges localCount)
  | d => d

def allowance [Machine] (limits : Limits) (blocks edges localCount : Int) : Nat :=
  (limits.bound blocks edges localCount).leastCount?.getD Machine.patience

def guardsGrowth (limits : Limits) : Bool :=
  limits.checkMonotonicity.truth

end Limits

namespace Settings

variable {η : Type}

def isStrict (s : Settings η) : Bool :=
  s.strict.truth

def names : List String :=
  ["max_iterations", "strict", "call_return", "call_return_hook", "check_monotonicity"]

/-- Reads settings from a mapping; the model of calls, which is no datum, comes beside it. -/
def ofMapping (mapping : List (String × Datum)) (callModel : Option (CallModel η)) :
    Except Fault (Settings η) := do
  let unknown := Sorted.names ((mapping.map (·.1)).filter fun n => !names.contains n)
  unless unknown.isEmpty do throw (.unknownSettings unknown)
  let limit := (mapping.lookup "max_iterations").getD .null
  match limit with
  | .null => pure ()
  | d => if ← d.belowOne then throw (.limitNotPositive d)
  let callReturn ← match mapping.lookup "call_return" with
    | some d => Family.find d
    | none => pure .noEffect
  return {
    maxIterations := limit
    checkMonotonicity := (mapping.lookup "check_monotonicity").getD (.bool true)
    strict := (mapping.lookup "strict").getD (.bool false)
    callReturn, callModel }

def datum (s : Settings η) : Datum :=
  .record "AnalysisConfig"
    [("max_iterations", s.maxIterations), ("strict", s.strict),
     ("call_return", Family.datum s.callReturn), ("call_return_hook", .null),
     ("check_monotonicity", s.checkMonotonicity)]

end Settings

end MayTaint
