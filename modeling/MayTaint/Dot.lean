import MayTaint.Dump

/-!
Results as a graph in the DOT language: one box per block with its states and instructions, red if
something is tainted at its exit, and one arrow per edge.
-/

namespace MayTaint.Dot

variable [Machine] {σ : Type}

/-- Text inside the quotes of a label: backslashes and quotes are escaped. -/
def escape (s : String) : String :=
  String.ofList (s.toList.flatMap fun c =>
    if c == Text.backslash || c == Text.doubleQuote then [Text.backslash, c] else [c])

def quoted (s : String) : String :=
  "\"" ++ s ++ "\""

def rowEnd : String := "\\l"

def label (rows : List String) : String :=
  String.join (rows.map fun row => escape row ++ rowEnd)

def fill (color : String) : String :=
  ", style=filled, fillcolor=" ++ quoted color

def blockLine (r : Results σ) (bb : BlockId) : Run σ String := do
  let name := toString bb
  if r.wasReached bb then
    let entry ← Run.ofExcept (r.entrySet bb)
    let requests ← r.instructionRequests bb
    let exit ← Run.ofExcept (r.exitSet bb)
    let rows := ["bb" ++ name, "in:  " ++ entry.text] ++ requests.map (·.1)
      ++ ["out: " ++ exit.text]
    let color :=
      if !exit.isEmpty then fill "#ffcccc" else if bb = Body.entry then fill "#ccffcc" else ""
    return "  BB" ++ name ++ " [label=" ++ quoted (label rows) ++ color ++ "];"
  else
    return "  BB" ++ name ++ " [label=" ++ quoted ("bb" ++ name ++ "\\n(unreachable)")
      ++ ", style=dashed, color=gray];"

def edgeLine (src dst : BlockId) (kind : EdgeKind) : Except Fault String := do
  let target ← (Spelling.number dst).written
  let style := match kind with
    | .callReturn => ", color=blue, fontcolor=blue"
    | .unwind => ", style=dotted"
    | _ => ""
  return "  BB" ++ toString src ++ " -> BB" ++ target ++ " [label=" ++ quoted (Family.value kind)
    ++ style ++ "];"

def edgeLines (body : Body) : Except Fault (List String) := do
  let found ← body.blockIds.mapM fun src => do
    (← (← body.block src).terminator.edges).mapM fun (dst, kind) => edgeLine src dst kind
  return found.flatten

/-- The title of a graph: the given one, or the name of the body if what is given counts as none. A
title has to be a text, since characters in it have to be replaced by others. -/
def titleOf (r : Results σ) (title : Datum) : Except Fault String :=
  if title.truth then
    match title with
    | .text t => .ok t
    | .bytes _ => .error (.notBytes (Datum.text "").typeName)
    | d => .error (.lacks d.typeName "replace")
  else .ok r.body.name

def text (r : Results σ) (title : Datum) : Run σ String := do
  let title ← Run.ofExcept (titleOf r title)
  let blocks ← r.body.blockIds.mapM (blockLine r)
  let edges ← Run.ofExcept (edgeLines r.body)
  return String.intercalate "\n"
    (["digraph TaintFlow \x7b",
      "  label=" ++ quoted (escape title) ++ ";",
      "  node [shape=box, fontname=monospace, fontsize=10];"]
      ++ blocks ++ edges ++ ["\x7d"])

/-- An order to a layout program: the graph, the file to write and its format. -/
structure Drawing where
  source : String
  outfile : String
  format : Datum
  cleanup : Bool

def defaultFormat : Datum := .text "svg"

/-- Orders a drawing of results. The format is handed on as it is. -/
def drawing (r : Results σ) (outfile format title : Datum) : Run σ Drawing := do
  let source ← text r title
  return ⟨source, ← Run.ofExcept outfile.mention.written, format, true⟩

end MayTaint.Dot
