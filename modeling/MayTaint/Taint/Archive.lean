import MayTaint.Taint.Analysis

/-!
One instance of the analysis that is used for one run after another. Every run starts an audit log
of its own and puts the one before aside. Results keep hold of the log of their run: the quiet
instance that replays them goes on recording there, whatever log the instance itself has come to.
Logs are therefore kept for good and referred to by their number.
-/

namespace MayTaint

def Analysis.within {σ τ : Type} (get : τ → σ) (set : σ → τ → τ) (a : Analysis σ) : Analysis τ where
  name := a.name
  bottom := a.bottom
  start body := (a.start body).within get set
  statement i l := (a.statement i l).within get set
  terminator i l := (a.terminator i l).within get set
  callReturn bb c l := (a.callReturn bb c l).within get set
  unsupported t := a.unsupported (get t)

namespace Taint

/-- What an instance remembers from run to run: the audit logs and the memory of the model of
calls. -/
structure Archive (η : Type) where
  /-- The logs that were put aside, the oldest first. -/
  earlier : List AuditLog := []
  audit : AuditLog := {}
  model : η

namespace Archive

variable {η : Type}

def current (a : Archive η) : Memory η :=
  ⟨a.audit, a.model⟩

def setCurrent (m : Memory η) (a : Archive η) : Archive η :=
  { a with audit := m.audit, model := m.model }

/-- The log with a number. The logs that were put aside come first, the current one after them. -/
def log (a : Archive η) (k : Nat) : AuditLog :=
  a.earlier.getD k a.audit

def setLog (k : Nat) (log : AuditLog) (a : Archive η) : Archive η :=
  if k < a.earlier.length then { a with earlier := a.earlier.set k log }
  else { a with audit := log }

def past (k : Nat) (a : Archive η) : Memory η :=
  ⟨a.log k, a.model⟩

def setPast (k : Nat) (m : Memory η) (a : Archive η) : Archive η :=
  { a.setLog k m.audit with model := m.model }

/-- Puts the current log aside. A new one has to take its place. -/
def putAside (a : Archive η) : Archive η :=
  { a with earlier := a.earlier ++ [a.audit] }

end Archive

variable [Machine] {η : Type}

/-- The analysis of an instance that is used again and again. -/
def lasting (t : Taint η) : Analysis (Archive η) :=
  { t.analysis.within Archive.current Archive.setCurrent with
    start := fun body => do
      let a ← Effect.memory
      Effect.remember a.putAside
      (t.start body).within Archive.current Archive.setCurrent }

/-- The quiet instance that results keep: it records in the log with a number. -/
def keeper (t : Taint η) (k : Nat) : Analysis (Archive η) :=
  t.quiet.analysis.within (Archive.past k) (Archive.setPast k)

def solveAgain (t : Taint η) (limits : Limits) (body : Body) :
    Run (Archive η) (Results (Archive η)) := do
  let r ← t.lasting.solve limits body
  let s ← get
  return { r with analysis := t.keeper s.memory.earlier.length }

end Taint

end MayTaint
