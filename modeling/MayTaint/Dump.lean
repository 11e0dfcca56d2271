import MayTaint.Results

/-!
Dumps of results as text: every block with the states at its entry and exit and with what each of
its instructions requested. Blocks that can be reached come first, in reverse postorder.
-/

namespace MayTaint

namespace Results

variable [Machine] {σ : Type}

def requestsOf (r : Results σ) (i : Instruction) (l : Location) (state : LocalSet) :
    Run σ Batch := do
  let ((), batch) ← Run.onto (Batch.ofBase state) (r.analysis.instruction i l).run
  return batch

/-- The requests of statements from an index on, and the state after them. -/
def statementRequests (r : Results σ) (bb : BlockId) :
    Int → List Statement → LocalSet → Run σ (List (String × Batch) × LocalSet)
  | _, [], state => return ([], state)
  | index, s :: rest, state => do
    let batch ← r.requestsOf (.statement s) ⟨bb, index⟩ state
    let state ← Run.ofExcept (batch.apply state)
    let text ← Run.ofExcept s.spelling.written
    let (others, state) ← r.statementRequests bb (index + 1) rest state
    return ((text, batch) :: others, state)

def instructionRequests (r : Results σ) (bb : BlockId) : Run σ (List (String × Batch)) := do
  let b ← Run.ofExcept (r.body.block bb)
  let entry ← Run.ofExcept (r.entrySet bb)
  let (found, state) ← r.statementRequests bb 0 b.statements entry
  let last ← r.requestsOf (.terminator b.terminator) ⟨bb, b.terminatorIndex⟩ state
  let text ← Run.ofExcept b.terminator.spelling.written
  return found ++ [(text, last)]

end Results

namespace Dump

variable [Machine] {σ : Type}

def note (b : Batch) : String :=
  let gens := if b.gens.isEmpty then [] else ["gen " ++ b.gens.text]
  let kills := if b.kills.isEmpty then [] else ["kill " ++ b.kills.text]
  String.intercalate "; " (gens ++ kills)

def instructionLine (text : String) (b : Batch) : String :=
  Text.trimEnd ("    " ++ Text.padEnd 40 text ++ " " ++ note b)

def blockLines (r : Results σ) (bb : BlockId) : Run σ (List String) := do
  let name := "bb" ++ toString bb
  if r.wasReached bb then
    let entry ← Run.ofExcept (r.entrySet bb)
    let requests ← r.instructionRequests bb
    let exit ← Run.ofExcept (r.exitSet bb)
    return [name ++ ": entry " ++ entry.text]
      ++ requests.map (fun (text, batch) => instructionLine text batch)
      ++ ["  exit " ++ exit.text]
  else return [name ++ ": unreachable"]

/-- The order of the blocks in a dump: reverse postorder, then the rest. -/
def blockOrder (body : Body) : Except Fault (List BlockId) := do
  let order ← body.reversePostorder
  return order ++ body.blockIds.filter fun bb => !order.contains bb

def text (r : Results σ) : Run σ String := do
  let locals ← Run.ofExcept (Spelling.number r.body.localCount).written
  let header := r.analysis.name ++ "(" ++ r.body.name ++ "): " ++ locals ++ " locals, "
    ++ toString r.body.size ++ " blocks, " ++ toString r.iterations ++ " iterations"
  let order ← Run.ofExcept (blockOrder r.body)
  let blocks ← order.mapM (blockLines r)
  let audit :=
    if r.unsupported.isEmpty then []
    else "unsupported:" :: r.unsupported.map fun c => "    " ++ c.text
  return String.intercalate "\n" (header :: blocks.flatten ++ audit)

end Dump

end MayTaint
