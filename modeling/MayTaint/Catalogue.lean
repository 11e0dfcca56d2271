import MayTaint.Fault

/-!
The catalogue of public names. Names are grouped in sections; a section lists the names that it
makes public and knows others besides, its own and those that it takes from other sections.
-/

namespace MayTaint.Catalogue

def version : String := "0.1.0"

def license : String := "MIT"

structure Section where
  name : String
  exports : List String
  /-- Names that the section knows and does not export. -/
  others : List String

def sections : List Section :=
  [⟨"errors",
    ["ErrorCode", "TaintFlowError", "UnsupportedConstructError", "LocalIndexError",
     "DomainMismatchError", "MalformedBodyError", "InternalInvariantError", "NonConvergenceError",
     "MonotonicityError"],
    ["Enum", "unique", "TYPE_CHECKING", "Optional"]⟩,
   ⟨"config",
    ["AnalysisConfig", "CallReturnPolicy", "configure_logging"],
    ["enum", "logging", "sys", "dataclass", "fields", "Any", "Callable", "Mapping", "Optional",
     "CallReturnHook", "DEFAULT_CONFIG", "_HANDLER_NAME", "_VERBOSITY_LEVELS"]⟩,
   ⟨"bitset",
    ["LocalBitSet"],
    ["FrozenSet", "Iterable", "Iterator", "List", "DomainMismatchError", "LocalIndexError",
     "bottom", "join", "contains"]⟩,
   ⟨"ir",
    ["Constant", "Copy", "Move", "Use", "BinaryOp", "CheckedBinaryOp", "UnaryOp", "Ref",
     "AddressOf", "Cast", "Aggregate", "Repeat", "Len", "Discriminant", "NullaryOp", "Assign",
     "StorageLive", "StorageDead", "Nop", "Goto", "SwitchInt", "Return", "Call", "Assert", "Drop",
     "Unreachable", "Resume", "EdgeKind", "BasicBlockData", "Body", "Location"],
    ["enum", "dataclass", "field", "Any", "Dict", "Iterator", "List", "Optional", "Sequence",
     "Tuple", "Union", "MalformedBodyError", "Local", "BlockId", "local_name", "Operand",
     "operand_local", "Rvalue", "Statement", "Terminator"]⟩,
   ⟨"genkill",
    ["GenKill", "StateAccumulator", "GenKillSet"],
    ["Protocol", "runtime_checkable", "LocalBitSet"]⟩,
   ⟨"transfer",
    ["TransferFunction", "UnsupportedConstruct", "UnsupportedKind"],
    ["enum", "dataclass", "Callable", "Optional", "GenKill", "AddressOf", "Aggregate", "Assert",
     "Assign", "BinaryOp", "Call", "Cast", "CheckedBinaryOp", "Discriminant", "Drop", "Goto",
     "Len", "Local", "Location", "Nop", "NullaryOp", "Ref", "Repeat", "Resume", "Return", "Rvalue",
     "Statement", "StorageDead", "StorageLive", "SwitchInt", "Terminator", "UnaryOp",
     "Unreachable", "Use", "operand_local", "UnsupportedReporter", "_ignore_unsupported"]⟩,
   ⟨"results",
    ["TaintResults", "ResultsCursor"],
    ["dataclass", "field", "TYPE_CHECKING", "Any", "Dict", "List", "Optional", "Tuple",
     "LocalBitSet", "BlockId", "Body", "Location"]⟩,
   ⟨"engine",
    ["GenKillAnalysis", "FixpointEngine"],
    ["abc", "logging", "deque", "Any", "Callable", "Deque", "Dict", "Optional", "Set", "Tuple",
     "LocalBitSet", "DEFAULT_CONFIG", "AnalysisConfig", "MonotonicityError", "NonConvergenceError",
     "GenKill", "StateAccumulator", "BlockId", "Body", "Call", "Location", "Statement",
     "Terminator", "TaintResults", "logger", "BlockObserver"]⟩,
   ⟨"analysis",
    ["MaybeTaintedLocals", "analyze", "analyze_bodies"],
    ["logging", "replace", "Dict", "Iterable", "Mapping", "Optional", "Tuple", "LocalBitSet",
     "DEFAULT_CONFIG", "AnalysisConfig", "CallReturnPolicy", "BlockObserver", "FixpointEngine",
     "GenKillAnalysis", "ErrorCode", "UnsupportedConstructError", "GenKill", "BlockId", "Body",
     "Call", "Location", "Statement", "Terminator", "TaintResults", "TransferFunction",
     "UnsupportedConstruct", "UnsupportedKind", "logger", "AuditLog"]⟩,
   ⟨"render",
    ["format_results", "to_dot"],
    ["Path", "List", "Optional", "Tuple", "Union", "GenKillSet", "BlockId", "EdgeKind", "Location",
     "TaintResults", "_instruction_effects", "_effect_text", "_escape", "render"]⟩]

def commonNames : List String :=
  ["__annotations__", "__builtins__", "__cached__", "__class__", "__delattr__", "__dict__",
   "__dir__", "__doc__", "__eq__", "__file__", "__format__", "__ge__", "__getattribute__",
   "__getstate__", "__gt__", "__hash__", "__init__", "__init_subclass__", "__le__", "__loader__",
   "__lt__", "__name__", "__ne__", "__new__", "__package__", "__reduce__", "__reduce_ex__",
   "__repr__", "__setattr__", "__sizeof__", "__spec__", "__str__", "__subclasshook__",
   "annotations"]

/-- The names that keep their meaning in the whole catalogue, so that no section can give its own
one. -/
def lockedNames : List String := ["__dict__"]

def Section.knows (s : Section) (name : String) : Bool :=
  s.exports.contains name || s.others.contains name || commonNames.contains name

def sectionNames : List String :=
  Sorted.names (sections.map (·.name))

/-- All public names: those of each section followed by the section itself, then the two that
belong to none. -/
def publicNames : List String :=
  sections.flatMap (fun s => s.exports ++ [s.name]) ++ ["list_submodules", "__version__"]

def below (outer name : String) : String :=
  outer ++ "." ++ name

def root : String := "taintflow"

/-- The name under which the catalogue stands inside itself. -/
def selfName : String := "__init__"

def nothingNamed (name : String) : String :=
  "No module named " ++ Text.quote name

def nothingBelow (outer name : String) : String :=
  nothingNamed (below outer name) ++ "; " ++ Text.quote outer ++ " is not a package"

/-- Why a section cannot be opened: it or the section around it is not there, or the latter has no
sections of its own. The catalogue inside itself has no sections either, so that opening it fails
at the first one. -/
def missing [Machine] (name : String) : String :=
  match name.splitOn "." with
  | [] => nothingNamed (below root name)
  | outer :: inner =>
    if outer == selfName then
      String.join ((sections.take 1).map fun s =>
        (Fault.noSection s.name (nothingBelow (below root outer) s.name)).message)
    else
      match inner with
      | name :: _ =>
        if sections.any (·.name == outer) then nothingBelow (below root outer) name
        else nothingNamed (below root outer)
      | [] => nothingNamed (below root outer)

/-- The number of sections that are being opened at the same time on the way to a name: one for each
of its parts, except that the sections of the catalogue are open already, and that the catalogue
inside itself takes two more for its own first section. -/
def nesting (name : String) : Nat :=
  match name.splitOn "." with
  | [] => 0
  | outer :: inner =>
    if sections.any (·.name == outer) then inner.length
    else if outer == selfName then inner.length + 3
    else inner.length + 1

def publish [Machine] (name : String) (names : List String) : Except Fault (List String) := do
  let some s := sections.find? (·.name == name)
    | throw (if Machine.nesting < nesting name then .nestedTooDeep
        else .noSection name (missing name))
  names.forM fun n => do
    unless s.knows n do throw (.notExported name n)
    if lockedNames.contains n then throw .lockedName
  return names ++ if publicNames.contains name then [] else [name]

end MayTaint.Catalogue
