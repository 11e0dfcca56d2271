import MayTaint.Program.Instruction

/-!
Terminators: the last instruction of a block, and the edges that lead from it to other blocks. A
statement may stand in the place of a terminator; it leads nowhere, and asking it for edges fails.
-/

namespace MayTaint

/-- A call. It continues at `target` when it returns, and at `cleanup` when it unwinds; a call
without a target never returns. -/
structure Call where
  func : Operand
  args : List Operand := []
  destination : Option Datum := none
  target : Option BlockId := none
  cleanup : Option BlockId := none
  deriving Inhabited

def blockDatum (target : Option BlockId) : Datum :=
  match target with
  | some bb => .int bb
  | none => .null

namespace Call

def spelling (c : Call) : Spelling :=
  let destination : Spelling := match c.destination with
    | some d => localName d ++ " = "
    | none => ""
  let target : Spelling := match c.target with
    | some bb => " -> bb" ++ .number bb
    | none => ""
  let cleanup : Spelling := match c.cleanup with
    | some bb => " unwind bb" ++ .number bb
    | none => ""
  destination ++ c.func.spelling ++ "(" ++ operandSpellings c.args ++ ")" ++ target ++ cleanup

def text (c : Call) : String :=
  c.spelling.text

def datum (c : Call) : Datum :=
  .record "Call"
    [("func", c.func.datum), ("args", .tuple (c.args.map Operand.datum)),
     ("destination", c.destination.getD .null), ("target", blockDatum c.target),
     ("cleanup", blockDatum c.cleanup)]

end Call

inductive Terminator where
  | goto (target : BlockId)
  | switchInt (discriminant : Operand) (arms : List (Datum × BlockId)) (otherwise : BlockId)
  | ret
  | call (c : Call)
  | check (condition : Operand) (expected : Datum) (target : BlockId) (cleanup : Option BlockId)
  | drop (place : Datum) (target : BlockId) (unwind : Option BlockId)
  | unreachable
  | resume
  /-- A statement in the place of a terminator. -/
  | statement (s : Statement)
  | foreign (thing : Foreign)
  deriving Inhabited

namespace Terminator

/-- The edges to other blocks, in the order in which the terminator names them. -/
def edges : Terminator → Except Fault (List (BlockId × EdgeKind))
  | goto target => .ok [(target, .goto)]
  | switchInt _ arms otherwise =>
    .ok (arms.map (fun (_, bb) => (bb, .switchCase)) ++ [(otherwise, .switchOtherwise)])
  | call c => .ok (edgeTo .callReturn c.target ++ edgeTo .unwind c.cleanup)
  | check _ _ target cleanup => .ok ((target, .assertOk) :: edgeTo .unwind cleanup)
  | drop _ target unwind => .ok ((target, .dropDone) :: edgeTo .unwind unwind)
  | ret | unreachable | resume => .ok []
  | statement s => .error (.lacks s.datum.typeName "edges")
  | foreign thing => .error (.lacks thing.datum.typeName "edges")
where
  edgeTo (kind : EdgeKind) (target : Option BlockId) : List (BlockId × EdgeKind) :=
    target.toList.map fun bb => (bb, kind)

def spelling : Terminator → Spelling
  | goto target => "goto -> bb" ++ .number target
  | switchInt discriminant arms otherwise =>
    let arms : List Spelling := arms.map fun (value, bb) => value.mention ++ ": bb" ++ .number bb
    let last : Spelling := "otherwise: bb" ++ .number otherwise
    "switchInt(" ++ discriminant.spelling ++ ") -> " ++ .bracketed "[" "]" (arms ++ [last])
  | ret => "return"
  | call c => c.spelling
  | check condition expected target _ =>
    "assert(" ++ (if expected.truth then "" else "!") ++ condition.spelling ++ ") -> bb"
      ++ .number target
  | drop place target _ => "drop(" ++ localName place ++ ") -> bb" ++ .number target
  | unreachable => "unreachable"
  | resume => "resume"
  | statement s => s.spelling
  | foreign thing => thing.spelling

def text (t : Terminator) : String :=
  t.spelling.text

def datum : Terminator → Datum
  | goto target => .record "Goto" [("target", .int target)]
  | switchInt discriminant arms otherwise =>
    .record "SwitchInt"
      [("discr", discriminant.datum),
       ("targets", .tuple (arms.map fun (value, bb) => .tuple [value, .int bb])),
       ("otherwise", .int otherwise)]
  | ret => .record "Return" []
  | call c => c.datum
  | check condition expected target cleanup =>
    .record "Assert"
      [("cond", condition.datum), ("expected", expected), ("target", .int target),
       ("cleanup", blockDatum cleanup)]
  | drop place target unwind =>
    .record "Drop" [("local", place), ("target", .int target), ("unwind", blockDatum unwind)]
  | unreachable => .record "Unreachable" []
  | resume => .record "Resume" []
  | statement s => s.datum
  | foreign thing => thing.datum

end Terminator

end MayTaint
