import MayTaint.LocalSet

/-!
Accumulators: where the effect of an instruction goes. An effect declares that a local becomes
tainted (`gen`) or clean (`kill`) and may ask whether a local is tainted right now. A set takes each
request at once. A batch collects the requests over a base that it leaves alone, and can apply them
to a set later.
-/

namespace MayTaint

class Accumulator (α : Type) where
  gen : α → Datum → Except Fault α
  kill : α → Datum → Except Fault α
  /-- Whether a local is tainted after the requests so far. -/
  contains : α → Datum → Except Fault Bool

instance [Machine] : Accumulator LocalSet where
  gen s d := do return (← s.insert d).2
  kill s d := do return (← s.remove d).2
  contains := LocalSet.contains

/-- Requests over an unmodified base; the last request for a local counts. -/
structure Batch where
  base : LocalSet
  gens : LocalSet
  kills : LocalSet

namespace Batch

def ofBase (base : LocalSet) : Batch :=
  ⟨base, base.clear, base.clear⟩

def gen [Machine] (b : Batch) (d : Datum) : Except Fault Batch := do
  let (_, gens) ← b.gens.insert d
  let (_, kills) ← b.kills.remove d
  return { b with gens, kills }

def kill [Machine] (b : Batch) (d : Datum) : Except Fault Batch := do
  let (_, kills) ← b.kills.insert d
  let (_, gens) ← b.gens.remove d
  return { b with gens, kills }

def contains (b : Batch) (d : Datum) : Except Fault Bool := do
  if ← b.gens.contains d then return true
  if ← b.kills.contains d then return false
  b.base.contains d

def isIdentity (b : Batch) : Bool :=
  b.gens.isEmpty && b.kills.isEmpty

/-- The set without what was killed and with what was generated. -/
def apply (b : Batch) (s : LocalSet) : Except Fault LocalSet := do
  let t ← (← s.difference b.kills).join b.gens
  s.overwrite t

def result (b : Batch) : Except Fault LocalSet :=
  b.apply b.base

def text (b : Batch) : String :=
  "GenKillSet(gen=" ++ b.gens.text ++ ", kill=" ++ b.kills.text ++ ")"

end Batch

instance [Machine] : Accumulator Batch where
  gen := Batch.gen
  kill := Batch.kill
  contains := Batch.contains

end MayTaint
