import MayTaint.Results

/-!
States inside blocks, found by replaying them from the entry. A cursor keeps its place, so that
walking forwards through a block replays it once. The state at a location is the one before the
instruction there.
-/

namespace MayTaint

/-- A cursor: the block that it stands in, how many of its instructions it has replayed, and the
state after them. -/
structure Cursor where
  block : Option BlockId := none
  applied : Int := 0
  state : Option LocalSet := none

namespace Cursor

variable [Machine] {σ : Type}

def position (c : Cursor) : Option (BlockId × Int) :=
  c.block.map fun bb => (bb, c.applied)

def mustReset (c : Cursor) (bb : BlockId) (applied : Int) : Bool :=
  c.state.isNone || c.block != some bb || applied < c.applied

/-- Moves to the entry of a block. The state follows only if the block has one. -/
def reset (r : Results σ) (bb : BlockId) : EStateM Fault (Cursor × Session σ) Unit := do
  modify fun (c, s) => ({ c with block := some bb, applied := 0 }, s)
  match r.entrySet bb with
  | .ok state => modify fun (c, s) => ({ c with state := some state }, s)
  | .error f => throw f

/-- Moves to the place after `applied` instructions of a block. A replay that gives up half-way
leaves its changes in the state, but not in the count. -/
def moveTo (r : Results σ) (bb : BlockId) (applied : Int) :
    EStateM Fault (Cursor × Session σ) Unit := do
  if (← get).1.mustReset bb applied then reset r bb
  let (c, s) ← get
  match c.state with
  | none => throw .cursorNotPlaced
  | some state =>
    match r.analysis.replay r.body bb c.applied (some applied) (state, s) with
    | .ok _ (state', s') => set ({ c with applied, state := some state' }, s')
    | .error f (state', s') =>
      set ({ c with state := some state' }, s')
      throw f

def checked (r : Results σ) (l : Location) : EStateM Fault (Cursor × Session σ) Unit :=
  match r.body.validateLocation l with
  | .ok _ => pure ()
  | .error f => throw f

def seekBefore (r : Results σ) (l : Location) : EStateM Fault (Cursor × Session σ) Unit := do
  checked r l
  moveTo r l.block l.index

def seekAfter (r : Results σ) (l : Location) : EStateM Fault (Cursor × Session σ) Unit := do
  checked r l
  moveTo r l.block (l.index + 1)

def seekToBlockEnd (r : Results σ) (bb : BlockId) : EStateM Fault (Cursor × Session σ) Unit := do
  match r.body.terminatorLocation bb with
  | .ok l => seekAfter r l
  | .error f => throw f

def get (c : Cursor) : Except Fault LocalSet :=
  match c.state with
  | some s => .ok s
  | none => .error .cursorNotPlaced

def contains (c : Cursor) (d : Datum) : Except Fault Bool := do
  (← c.get).contains d

end Cursor

namespace Results

variable [Machine] {σ : Type}

def stateAt (move : EStateM Fault (Cursor × Session σ) Unit) : Run σ LocalSet := do
  let ((), c) ← Run.onto ({} : Cursor) move
  Run.ofExcept c.get

def stateBefore (r : Results σ) (l : Location) : Run σ LocalSet :=
  stateAt (Cursor.seekBefore r l)

def stateAfter (r : Results σ) (l : Location) : Run σ LocalSet :=
  stateAt (Cursor.seekAfter r l)

/-- Whether a local may hold a tainted value just before a location. -/
def isPossiblyTainted (r : Results σ) (d : Datum) (l : Location) : Run σ Bool := do
  Run.ofExcept ((← r.stateBefore l).contains d)

end Results

end MayTaint
