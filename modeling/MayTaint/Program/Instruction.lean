import MayTaint.Fault

/-!
Operands, rvalues and statements. A host hands its instructions over as they are, so a part of one
can turn out to be something else; such a foreign part is kept, prints like everything else, and is
refused by whoever has to interpret it. Locals, operators and flags are data for the same reason.
-/

namespace MayTaint

/-- Something that stands where a part of an instruction belongs. -/
structure Foreign where
  spelling : Spelling
  datum : Datum
  deriving Inhabited

def localName (d : Datum) : Spelling :=
  "_" ++ d.mention

inductive Operand where
  | constant (value : Datum)
  | copy (source : Datum)
  | move (source : Datum)
  | foreign (thing : Foreign)
  deriving Inhabited

namespace Operand

def spelling : Operand → Spelling
  | constant value => "const " ++ value.spelling
  | copy source => "copy " ++ localName source
  | move source => "move " ++ localName source
  | foreign thing => thing.spelling

def datum : Operand → Datum
  | constant value => .record "Constant" [("value", value)]
  | copy source => .record "Copy" [("local", source)]
  | move source => .record "Move" [("local", source)]
  | foreign thing => thing.datum

/-- The local that an operand reads, if it reads one. A read of nothing is no read. -/
def source? : Operand → Except Fault (Option Datum)
  | constant _ => .ok none
  | copy .null | move .null => .ok none
  | copy source | move source => .ok (some source)
  | foreign thing => .error (.misplaced .operand thing.datum)

def ofDatum : Datum → Operand
  | .record "Constant" [("value", value)] => constant value
  | .record "Copy" [("local", source)] => copy source
  | .record "Move" [("local", source)] => move source
  | d => foreign ⟨d.mention, d⟩

end Operand

inductive Rvalue where
  | use (operand : Operand)
  | binary (op : Datum) (lhs rhs : Operand)
  /-- A binary operation that also yields whether it overflowed. -/
  | checkedBinary (op : Datum) (lhs rhs : Operand)
  | unary (op : Datum) (operand : Operand)
  | ref (place mutable : Datum)
  | addressOf (place mutable : Datum)
  | cast (kind : Datum) (operand : Operand)
  | aggregate (kind : Datum) (operands : List Operand)
  /-- An array of `count` equal elements. -/
  | replicate (operand : Operand) (count : Datum)
  | len (place : Datum)
  | discriminant (place : Datum)
  | nullary (op : Datum)
  | foreign (thing : Foreign)
  deriving Inhabited

def operandSpellings (operands : List Operand) : Spelling :=
  .intercalate ", " (operands.map Operand.spelling)

namespace Rvalue

def spelling : Rvalue → Spelling
  | use operand => operand.spelling
  | binary op lhs rhs => op.mention ++ "(" ++ lhs.spelling ++ ", " ++ rhs.spelling ++ ")"
  | checkedBinary op lhs rhs =>
    "Checked" ++ op.mention ++ "(" ++ lhs.spelling ++ ", " ++ rhs.spelling ++ ")"
  | unary op operand => op.mention ++ "(" ++ operand.spelling ++ ")"
  | ref place mutable => "&" ++ (if mutable.truth then "mut " else "") ++ localName place
  | addressOf place mutable =>
    "&raw " ++ (if mutable.truth then "mut" else "const") ++ " " ++ localName place
  | cast kind operand => operand.spelling ++ " as " ++ kind.mention
  | aggregate kind operands => kind.mention ++ "(" ++ operandSpellings operands ++ ")"
  | replicate operand count => "[" ++ operand.spelling ++ "; " ++ count.mention ++ "]"
  | len place => "Len(" ++ localName place ++ ")"
  | discriminant place => "discriminant(" ++ localName place ++ ")"
  | nullary op => op.mention ++ "()"
  | foreign thing => thing.spelling

def text (r : Rvalue) : String :=
  r.spelling.text

def datum : Rvalue → Datum
  | use operand => .record "Use" [("operand", operand.datum)]
  | binary op lhs rhs =>
    .record "BinaryOp" [("op", op), ("lhs", lhs.datum), ("rhs", rhs.datum)]
  | checkedBinary op lhs rhs =>
    .record "CheckedBinaryOp" [("op", op), ("lhs", lhs.datum), ("rhs", rhs.datum)]
  | unary op operand => .record "UnaryOp" [("op", op), ("operand", operand.datum)]
  | ref place mutable => .record "Ref" [("local", place), ("mutable", mutable)]
  | addressOf place mutable => .record "AddressOf" [("local", place), ("mutable", mutable)]
  | cast kind operand => .record "Cast" [("kind", kind), ("operand", operand.datum)]
  | aggregate kind operands =>
    .record "Aggregate" [("kind", kind), ("operands", .tuple (operands.map Operand.datum))]
  | replicate operand count =>
    .record "Repeat" [("operand", operand.datum), ("count", count)]
  | len place => .record "Len" [("local", place)]
  | discriminant place => .record "Discriminant" [("local", place)]
  | nullary op => .record "NullaryOp" [("op", op)]
  | foreign thing => thing.datum

end Rvalue

inductive Statement where
  | assign (target : Datum) (rvalue : Rvalue)
  | storageLive (place : Datum)
  | storageDead (place : Datum)
  | nop
  | foreign (thing : Foreign)
  deriving Inhabited

namespace Statement

def spelling : Statement → Spelling
  | assign target rvalue => localName target ++ " = " ++ rvalue.spelling
  | storageLive place => "StorageLive(" ++ localName place ++ ")"
  | storageDead place => "StorageDead(" ++ localName place ++ ")"
  | nop => "nop"
  | foreign thing => thing.spelling

def text (s : Statement) : String :=
  s.spelling.text

def datum : Statement → Datum
  | assign target rvalue => .record "Assign" [("target", target), ("rvalue", rvalue.datum)]
  | storageLive place => .record "StorageLive" [("local", place)]
  | storageDead place => .record "StorageDead" [("local", place)]
  | nop => .record "Nop" []
  | foreign thing => thing.datum

end Statement

end MayTaint
