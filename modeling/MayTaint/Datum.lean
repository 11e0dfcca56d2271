import MayTaint.Text.Quoted
import MayTaint.Decimal.Shortest
import MayTaint.Machine

/-!
Data: the constants of a body, the values of settings, and the printable form of everything that
can be dumped. Printing and comparing are done once, here: an instruction or a location is first
turned into a record, and its literal and its equality are those of the record.
-/

namespace MayTaint

/-- A datum. A record has a name and named fields; a member belongs to a named family of constants
and has a name and a value of its own. -/
inductive Datum where
  | null
  | bool (b : Bool)
  | int (n : Int)
  | float (x : Binary64)
  | text (s : String)
  | bytes (bs : List UInt8)
  | list (items : List Datum)
  | tuple (items : List Datum)
  | mapping (entries : List (Datum × Datum))
  | record (name : String) (fields : List (String × Datum))
  | member (family name value : String)
  deriving Inhabited

namespace Datum

def tupleSpelling : List Spelling → Spelling
  | [item] => "(" ++ item ++ ",)"
  | items => .bracketed "(" ")" items

mutual

def spelling : Datum → Spelling
  | null => "None"
  | bool b => if b then "True" else "False"
  | int n => .number n
  | float x => x.text
  | text s => Text.quote s
  | bytes bs => Text.quoteBytes bs
  | list items => .bracketed "[" "]" (spellings items)
  | tuple items => tupleSpelling (spellings items)
  | mapping entries => .bracketed "\x7b" "\x7d" (entrySpellings entries)
  | record name fields => name ++ .bracketed "(" ")" (fieldSpellings fields)
  | member family name value => "<" ++ family ++ "." ++ name ++ ": " ++ Text.quote value ++ ">"

def spellings : List Datum → List Spelling
  | [] => []
  | d :: rest => d.spelling :: spellings rest

def entrySpellings : List (Datum × Datum) → List Spelling
  | [] => []
  | (key, value) :: rest => (key.spelling ++ ": " ++ value.spelling) :: entrySpellings rest

def fieldSpellings : List (String × Datum) → List Spelling
  | [] => []
  | (name, value) :: rest => (name ++ "=" ++ value.spelling) :: fieldSpellings rest

end

def literal (d : Datum) : String :=
  d.spelling.text

/-- A datum inside running text: a text is itself, everything else is quoted. -/
def mention : Datum → Spelling
  | text s => s
  | d => d.spelling

def inText (d : Datum) : String :=
  d.mention.text

def typeName : Datum → String
  | null => "NoneType"
  | bool _ => "bool"
  | int _ => "int"
  | float _ => "float"
  | text _ => "str"
  | bytes _ => "bytes"
  | list _ => "list"
  | tuple _ => "tuple"
  | mapping _ => "dict"
  | record name _ => name
  | member family _ _ => family

def ofTruth (b : Bool) : Int := if b then 1 else 0

mutual

/-- Equality of data. Numbers of any kind are equal when their values are, sequences and records
member by member, and mappings whatever the order of their entries. -/
def same : Datum → Datum → Bool
  | null, null => true
  | bool a, bool b => a == b
  | bool a, int n => ofTruth a == n
  | bool a, float x => x.isInt (ofTruth a)
  | int n, bool b => n == ofTruth b
  | int n, int m => n == m
  | int n, float x => x.isInt n
  | float x, bool b => x.isInt (ofTruth b)
  | float x, int n => x.isInt n
  | float x, float y => x.same y
  | text s, text t => s == t
  | bytes a, bytes b => a == b
  | list xs, list ys => sameItems xs ys
  | tuple xs, tuple ys => sameItems xs ys
  | mapping xs, mapping ys => xs.length == ys.length && sameEntries xs ys
  | record name fields, record name' fields' => name == name' && sameFields fields fields'
  | member family name _, member family' name' _ => family == family' && name == name'
  | _, _ => false

def sameItems : List Datum → List Datum → Bool
  | [], [] => true
  | x :: xs, y :: ys => x.same y && sameItems xs ys
  | _, _ => false

def sameEntries : List (Datum × Datum) → List (Datum × Datum) → Bool
  | [], _ => true
  | (key, value) :: rest, others =>
    others.any (fun (key', value') => key.same key' && value.same value') &&
      sameEntries rest others

def sameFields : List (String × Datum) → List (String × Datum) → Bool
  | [], [] => true
  | (name, value) :: rest, (name', value') :: rest' =>
    name == name' && value.same value' && sameFields rest rest'
  | _, _ => false

end

/-- What a datum means as a flag: nothing, zero and emptiness are off. -/
def truth : Datum → Bool
  | null => false
  | bool b => b
  | int n => n != 0
  | float x => !x.isZero
  | text s => s != ""
  | bytes bs => !bs.isEmpty
  | list items => !items.isEmpty
  | tuple items => !items.isEmpty
  | mapping entries => !entries.isEmpty
  | record _ _ => true
  | member _ _ _ => true

def items? : Datum → Option (List Datum)
  | text s => some (s.toList.map fun c => text (String.singleton c))
  | bytes bs => some (bs.map fun b => int b.toNat)
  | list items => some items
  | tuple items => some items
  | mapping entries => some (entries.map (·.1))
  | _ => none

def field? (d : Datum) (name : String) : Option Datum :=
  match d with
  | record _ fields => fields.lookup name
  | _ => none

mutual

/-- The kind of the first part of a datum that cannot be a key of a mapping. -/
def unfitKey? : Datum → Option String
  | list _ => some "list"
  | mapping _ => some "dict"
  | tuple items => unfitItem? items
  | _ => none

def unfitItem? : List Datum → Option String
  | [] => none
  | d :: rest => d.unfitKey?.or (unfitItem? rest)

end

/-- Sets a key of a mapping. A key that is there stays as it was spelled first. -/
def putEntry (key value : Datum) : List (Datum × Datum) → List (Datum × Datum)
  | [] => [(key, value)]
  | (key', value') :: rest =>
    if key'.same key then (key', value) :: rest else (key', value') :: putEntry key value rest

def mappingOf (entries : List (Datum × Datum)) : Datum :=
  mapping (entries.foldl (fun es (key, value) => putEntry key value es) [])

end Datum

/-- A finite family of named constants, each known by a value. -/
class Family (α : Type) where
  family : String
  members : List α
  name : α → String
  value : α → String

namespace Family

variable {α : Type} [Family α]

def datum (a : α) : Datum := .member (family α) (name a) (value a)

def find? (d : Datum) : Option α :=
  members.find? fun a => d.same (.text (value a))

end Family

end MayTaint
