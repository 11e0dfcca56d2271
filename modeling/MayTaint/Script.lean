import MayTaint.Taint.Analysis

/-!
Scripts: models of calls, and whole analyses, written as data. A script is a list of steps that run
in order for one instruction. It counts its invocations, and steps can depend on that count, so a
scripted effect need not do the same thing twice.
-/

namespace MayTaint

namespace Script

inductive Place where
  | given (d : Datum)
  | destination
  | target
  /-- A place that cannot be made out, and why. The script gives up when it gets there. -/
  | unreadable (reason : Fault)

inductive Step where
  | gen (place : Place)
  | kill (place : Place)
  /-- Taints the destination of the call if one of its arguments is tainted, and else cleans it. -/
  | fromArguments
  | ifTainted (place : Place) (thenSteps elseSteps : List Step)
  /-- Steps for the invocation with the given number, counted from one. -/
  | nth (n : Int) (steps : List Step)
  | after (n : Int) (steps : List Step)
  | atLocation (l : Location) (steps : List Step)
  | rule
  | giveUp (text : String)

variable [Machine] {σ : Type}

def Place.resolve (i : Instruction) : Place → Except Fault Datum
  | .given d => .ok d
  | .destination => feature "destination"
  | .target => feature "target"
  | .unreadable reason => .error reason
where
  feature (name : String) : Except Fault Datum :=
    match i.datum.field? name with
    | some d => .ok d
    | none => .error (.lacks i.datum.typeName name)

def argumentLocals (i : Instruction) : Except Fault (List Datum) :=
  match i.datum.field? "args" with
  | some (.tuple args) => do
    return (← args.mapM fun d => (Operand.ofDatum d).source?).filterMap id
  | _ => .error (.lacks i.datum.typeName "args")

/-- Whether one of the locals is tainted; it asks no further than the first that is. -/
def anyTainted : List Datum → Effect σ Bool
  | [] => pure false
  | d :: rest => do if ← Effect.contains d then return true else anyTainted rest

/-- The propagation rule for an instruction, which reports nothing. A statement has the rule of a
statement wherever it stands, and everything else is taken for a terminator. -/
def ruleEffect (i : Instruction) (l : Location) : Effect σ Unit :=
  match i with
  | .statement (.foreign thing) =>
    if terminatorNames.contains thing.datum.typeName then .skip
    else Rules.terminator (.foreign thing)
  | .statement s | .terminator (.statement s) => Rules.statement Rules.ignore s l
  | .terminator t => Rules.terminator t
where
  terminatorNames : List String :=
    ["Goto", "SwitchInt", "Return", "Call", "Assert", "Drop", "Unreachable", "Resume"]

mutual

/-- The effect of a step at an instruction, in the invocation with the given number. -/
def Step.effect (count : Nat) (i : Instruction) (l : Location) : Step → Effect σ Unit
  | .gen place => do Effect.taint (← Effect.ofExcept (place.resolve i))
  | .kill place => do Effect.clean (← Effect.ofExcept (place.resolve i))
  | .fromArguments => do
    let tainted ← anyTainted (← Effect.ofExcept (argumentLocals i))
    Effect.setTaint tainted (← Effect.ofExcept (Place.destination.resolve i))
  | .ifTainted place thenSteps elseSteps => do
    if ← Effect.contains (← Effect.ofExcept (place.resolve i)) then
      stepEffects count i l thenSteps
    else stepEffects count i l elseSteps
  | .nth n steps => if (count : Int) = n then stepEffects count i l steps else Effect.skip
  | .after n steps => if n < (count : Int) then stepEffects count i l steps else Effect.skip
  | .atLocation l' steps => if l = l' then stepEffects count i l steps else Effect.skip
  | .rule => ruleEffect i l
  | .giveUp text => Effect.raise (.raised text)

def stepEffects (count : Nat) (i : Instruction) (l : Location) : List Step → Effect σ Unit
  | [] => Effect.skip
  | step :: rest => do
    step.effect count i l
    stepEffects count i l rest

end

/-- One invocation of a script; the memory is the number of invocations. -/
def invoke (script : List Step) (i : Instruction) (l : Location) : Effect Nat Unit := do
  let count ← Effect.memory
  Effect.remember (count + 1)
  stepEffects (count + 1) i l script

def callModel (script : List Step) : CallModel Nat := fun c l =>
  invoke script (.terminator (.call c)) l

structure Counts where
  statement : Nat := 0
  terminator : Nat := 0
  callReturn : Nat := 0

end Script

structure ScriptedAnalysis where
  name : String := "GenKillAnalysis"
  statement : List Script.Step := []
  terminator : List Script.Step := []
  callReturn : List Script.Step := []
  /-- The locals that are tainted at the entry, one after the other. One that cannot be made out is
  given by the reason, and the analysis gives up when it gets there. -/
  start : List (Except Fault Datum) := []
  /-- The size of the domain; by default the number of locals of the body. -/
  domain : Option Int := none

namespace ScriptedAnalysis

open Script

variable [Machine]

def analysis (a : ScriptedAnalysis) : Analysis Counts where
  name := a.name
  bottom body := LocalSet.bottom (a.domain.getD body.localCount)
  start _ := a.start.forM fun d => do Effect.taint (← Effect.ofExcept d)
  statement s l :=
    (invoke a.statement (.statement s) l).within Counts.statement fun n c =>
      { c with statement := n }
  terminator t l :=
    (invoke a.terminator (.terminator t) l).within Counts.terminator fun n c =>
      { c with terminator := n }
  callReturn _ call l :=
    (invoke a.callReturn (.terminator (.call call)) l).within Counts.callReturn fun n c =>
      { c with callReturn := n }
  unsupported _ := []

end ScriptedAnalysis

end MayTaint
