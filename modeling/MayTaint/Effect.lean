import MayTaint.Accumulator
import MayTaint.Log

/-!
Effects: finite programs of requests to an accumulator. Later requests may depend on earlier
answers and on a memory that lasts from one effect to the next; an effect may also give up, and may
tell of a construct that it leaves untouched. Since an effect is data, one and the same effect can
be run on a set and on a batch. It acts on the accumulator that it is run on; one that an earlier
effect was run on is out of its reach.
-/

namespace MayTaint

inductive Effect (σ : Type) (α : Type) where
  | done (a : α)
  | raise (f : Fault)
  | gen (d : Datum) (next : Effect σ α)
  | kill (d : Datum) (next : Effect σ α)
  | ask (d : Datum) (next : Bool → Effect σ α)
  | read (next : σ → Effect σ α)
  | write (memory : σ) (next : Effect σ α)
  /-- Tells the log of an unsupported construct of a body. -/
  | report (body : String) (construct : Construct) (next : Effect σ α)

/-- What lasts through a run and the queries after it: the memory of an analysis and the log. -/
structure Session (σ : Type) where
  memory : σ
  /-- The events so far, the newest first. -/
  told : List Event := []

namespace Session

variable {σ : Type}

def tell (s : Session σ) (e : Event) : Session σ :=
  { s with told := e :: s.told }

def log (s : Session σ) : List Event :=
  s.told.reverse

theorem log_tell (s : Session σ) (e : Event) : (s.tell e).log = s.log ++ [e] := by
  simp [log, tell]

end Session

/-- A computation in a session. What it did to the session stays when it gives up. -/
abbrev Run (σ : Type) := EStateM Fault (Session σ)

namespace Effect

variable {σ τ α β : Type}

def bind : Effect σ α → (α → Effect σ β) → Effect σ β
  | done a, f => f a
  | raise e, _ => raise e
  | gen d next, f => gen d (next.bind f)
  | kill d next, f => kill d (next.bind f)
  | ask d next, f => ask d fun b => (next b).bind f
  | read next, f => read fun s => (next s).bind f
  | write s next, f => write s (next.bind f)
  | report body c next, f => report body c (next.bind f)

theorem bind_done (x : Effect σ α) : x.bind done = x := by
  induction x with
  | done => rfl
  | raise => rfl
  | gen d next ih => exact congrArg _ ih
  | kill d next ih => exact congrArg _ ih
  | ask d next ih => exact congrArg _ (funext ih)
  | read next ih => exact congrArg _ (funext ih)
  | write m next ih => exact congrArg _ ih
  | report body c next ih => exact congrArg _ ih

theorem bind_assoc {γ : Type} (x : Effect σ α) (f : α → Effect σ β) (g : β → Effect σ γ) :
    (x.bind f).bind g = x.bind fun a => (f a).bind g := by
  induction x with
  | done => rfl
  | raise => rfl
  | gen d next ih => exact congrArg _ ih
  | kill d next ih => exact congrArg _ ih
  | ask d next ih => exact congrArg _ (funext ih)
  | read next ih => exact congrArg _ (funext ih)
  | write m next ih => exact congrArg _ ih
  | report body c next ih => exact congrArg _ ih

instance : Monad (Effect σ) where
  pure := done
  bind := bind

instance : LawfulMonad (Effect σ) :=
  LawfulMonad.mk' _ bind_done (fun _ _ => rfl) bind_assoc

def skip : Effect σ Unit := done ()

def contains (d : Datum) : Effect σ Bool := ask d done

def taint (d : Datum) : Effect σ Unit := gen d skip

def clean (d : Datum) : Effect σ Unit := kill d skip

def setTaint (tainted : Bool) (d : Datum) : Effect σ Unit :=
  if tainted then taint d else clean d

def memory : Effect σ σ := read done

def remember (s : σ) : Effect σ Unit := write s skip

def ofExcept : Except Fault α → Effect σ α
  | .ok a => done a
  | .error f => raise f

/-- Runs an effect on a part of a larger memory. -/
def within (get : τ → σ) (set : σ → τ → τ) : Effect σ α → Effect τ α
  | done a => done a
  | raise f => raise f
  | gen d next => gen d (next.within get set)
  | kill d next => kill d (next.within get set)
  | ask d next => ask d fun b => (next b).within get set
  | read next => read fun t => (next (get t)).within get set
  | write s next => read fun t => write (set s t) (next.within get set)
  | report body c next => report body c (next.within get set)

/-- Runs an effect on an accumulator. A request that is refused ends the run and changes nothing;
the requests before it stay done. -/
def run {γ : Type} [Accumulator γ] : Effect σ α → EStateM Fault (γ × Session σ) α
  | done a => fun s => .ok a s
  | raise f => fun s => .error f s
  | gen d next => fun (acc, s) =>
    match Accumulator.gen acc d with
    | .ok acc' => next.run (acc', s)
    | .error f => .error f (acc, s)
  | kill d next => fun (acc, s) =>
    match Accumulator.kill acc d with
    | .ok acc' => next.run (acc', s)
    | .error f => .error f (acc, s)
  | ask d next => fun (acc, s) =>
    match Accumulator.contains acc d with
    | .ok b => (next b).run (acc, s)
    | .error f => .error f (acc, s)
  | read next => fun (acc, s) => (next s.memory).run (acc, s)
  | write m next => fun (acc, s) => next.run (acc, { s with memory := m })
  | report body c next => fun (acc, s) => next.run (acc, s.tell (.unsupported body c))

/-- Running one effect after the other is running both in sequence. -/
theorem run_bind {γ : Type} [Accumulator γ] (x : Effect σ α) (f : α → Effect σ β) :
    (x.bind f).run = (x.run >>= fun a => (f a).run : EStateM Fault (γ × Session σ) β) := by
  funext s
  change _ = EStateM.bind _ _ s
  induction x generalizing s with
  | done => rfl
  | raise => rfl
  | gen d next ih =>
    simp only [Effect.bind, Effect.run, EStateM.bind]
    split
    · exact ih _
    · rfl
  | kill d next ih =>
    simp only [Effect.bind, Effect.run, EStateM.bind]
    split
    · exact ih _
    · rfl
  | ask d next ih =>
    simp only [Effect.bind, Effect.run, EStateM.bind]
    split
    · exact ih _ _
    · rfl
  | read next ih => exact ih _ _
  | write m next ih => exact ih _
  | report body c next ih => exact ih _

end Effect

namespace Run

variable {σ γ α : Type}

def tell (e : Event) : Run σ Unit :=
  modify (·.tell e)

def ofExcept : Except Fault α → Run σ α
  | .ok a => pure a
  | .error f => throw f

/-- Runs a computation on an accumulator of its own, which is lost when the computation gives up. -/
def onto (acc : γ) (x : EStateM Fault (γ × Session σ) α) : Run σ (α × γ) := fun s =>
  match x (acc, s) with
  | .ok a (acc', s') => .ok (a, acc') s'
  | .error f (_, s') => .error f s'

end Run

end MayTaint
