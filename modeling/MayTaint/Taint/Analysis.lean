import MayTaint.Fixpoint
import MayTaint.Taint.Rules

/-!
The may-taint analysis: which locals may carry a value derived from a source. The sources are the
locals of the seed; whether a sink receives a tainted value is for the caller to ask. The effect of
a call on its destination is not modelled unless the settings bring a model of calls; without one
the destination keeps its state and the call is recorded, or the run gives up, as the settings say.
-/

namespace MayTaint

structure Taint (η : Type) where
  seed : List Datum := []
  settings : Settings η := {}

namespace Taint

variable [Machine] {η : Type}

/-- What the analysis remembers: the audit log of the current run and the memory of the model of
calls. -/
structure Memory (η : Type) where
  audit : AuditLog := {}
  model : η

/-- Records a construct and tells the log of it, unless it was recorded before. -/
def record (c : Construct) : Effect (Memory η) Unit := do
  let m ← Effect.memory
  if m.audit.covers c then Effect.skip
  else
    Effect.remember { m with audit := m.audit.record c }
    Effect.report m.audit.body c Effect.skip

/-- Gives up on an rvalue without a rule if the settings are strict, and else records it. -/
def reporter (t : Taint η) : Reporter (Memory η) := fun c =>
  if t.settings.isStrict then .raise (.unsupported c.detail c.location) else record c

def unmodelled (c : Call) (l : Location) : Construct :=
  ⟨l, .callReturn,
    "return value of `" ++ c.text ++ "` is assumed to keep its previous taint state"⟩

def callReturn (t : Taint η) (c : Call) (l : Location) : Effect (Memory η) Unit :=
  match t.settings.callModel, t.settings.callReturn with
  | some model, _ => (model c l).within Memory.model fun h m => { m with model := h }
  | none, .fail => do Effect.raise (.unmodelledCall (← Effect.ofExcept c.spelling.written) l)
  | none, .noEffect => do
    let _ ← Effect.ofExcept c.spelling.written
    record (unmodelled c l)

def start (t : Taint η) (body : Body) : Effect (Memory η) Unit := do
  let m ← Effect.memory
  Effect.remember { m with audit := { body := body.name } }
  t.seed.forM Effect.taint

def analysis (t : Taint η) : Analysis (Memory η) where
  name := "MaybeTaintedLocals"
  bottom body := LocalSet.bottom body.localCount
  start := t.start
  statement := Rules.statement t.reporter
  terminator term _ := Rules.terminator term
  callReturn _ := t.callReturn
  unsupported m := m.audit.entries

/-- The instance that replays results: it records what the strict one gives up on. -/
def quiet (t : Taint η) : Taint η :=
  { t with settings := { t.settings with strict := .bool false } }

/-- Runs the analysis over a body. The limits may be other ones than those of its settings. -/
def solve (t : Taint η) (limits : Limits) (body : Body) : Run (Memory η) (Results (Memory η)) := do
  let r ← t.analysis.solve limits body
  return { r with analysis := t.quiet.analysis }

end Taint

variable [Machine] {η : Type}

/-- Analyses a body: which locals may be tainted where, if those of the seed are tainted at its
entry. -/
def analyze (body : Body) (seed : List Datum) (settings : Settings η) :
    Run (Taint.Memory η) (Results (Taint.Memory η)) := do
  modify fun s => { s with memory := { s.memory with audit := {} } }
  Taint.solve ⟨seed, settings⟩ settings.toLimits body

/-- Analyses bodies in turn, each with the seed under its name. Nothing but the memory of the model
of calls passes from one body to the next. -/
def analyzeBodies (bodies : List Body) (seeds : List (String × List Datum))
    (settings : Settings η) : Run (Taint.Memory η) (List (String × Results (Taint.Memory η))) := do
  let results ← bodies.foldlM (fun results body => do
    if results.any (·.1 == body.name) then throw (.duplicateBody body.name)
    let r ← analyze body ((seeds.lookup body.name).getD []) settings
    return results ++ [(body.name, r)]) []
  let unused := (seeds.map (·.1)).filter fun name => !results.any (·.1 == name)
  unless unused.isEmpty do Run.tell (.unusedSeeds (Sorted.names unused))
  return results

end MayTaint
