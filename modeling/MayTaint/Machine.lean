/-!
The machine that runs the library. It keeps a set of locals as a pattern of bits and writes numbers
in decimal digits, and there are patterns and numerals that it refuses; nor does it follow names
that go through too many sections, or a run without a limit for ever. Whatever can fail for such a
reason takes the machine as a parameter, so that what is proved holds of every machine.
-/

namespace MayTaint

class Machine where
  /-- Whether a pattern with the given bit fits the memory. -/
  fits : Nat → Bool
  /-- The greatest number of digits of a numeral that is written, if there is one. -/
  digits : Option Nat
  /-- The number of sections, one inside the other, that can be opened at the same time. -/
  nesting : Nat
  /-- The number of visits after which a run whose limit no count reaches is given up. -/
  patience : Nat

namespace Machine

/-- The number of digits of 30 bits at which a pattern cannot be addressed, on any machine. -/
def addressableDigits : Nat := 2305843009213693945

def addresses (i : Nat) : Bool :=
  (i + 29) / 30 < addressableDigits

/-- A machine that refuses nothing that it can address, and writes every number. -/
@[reducible] def ample : Machine where
  fits _ := true
  digits := none
  nesting := 1000
  patience := 1000

variable [Machine]

/-- Whether a bit can be set or cleared: the pattern with this bit alone has to be made. -/
def sets (i : Nat) : Bool :=
  addresses i && fits i

theorem sets_of_not_addresses {i : Nat} (h : addresses i = false) : sets i = false := by
  rw [sets, h, Bool.false_and]

/-- Whether a number is written out. A sign is no digit. -/
def writes (n : Int) : Bool :=
  digits.all fun most => (Nat.toDigits 10 n.natAbs).length ≤ most

theorem writes_of_digits_eq_none (h : digits = none) (n : Int) : writes n = true := by
  rw [writes, h]
  rfl

end Machine

/-- A text and the numbers that are spelled out in it. -/
structure Spelling where
  text : String
  numerals : List Int
  deriving Inhabited

namespace Spelling

instance : Coe String Spelling := ⟨fun text => ⟨text, []⟩⟩

instance : Append Spelling := ⟨fun a b => ⟨a.text ++ b.text, a.numerals ++ b.numerals⟩⟩

def number (n : Int) : Spelling := ⟨toString n, [n]⟩

def intercalate (separator : String) (parts : List Spelling) : Spelling :=
  ⟨String.intercalate separator (parts.map text), parts.flatMap numerals⟩

def bracketed (opening closing : String) (items : List Spelling) : Spelling :=
  opening ++ intercalate ", " items ++ closing

def isWritten [Machine] (t : Spelling) : Bool :=
  t.numerals.all Machine.writes

theorem isWritten_of_digits_eq_none [Machine] (h : Machine.digits = none) (t : Spelling) :
    t.isWritten = true :=
  List.all_eq_true.2 fun n _ => Machine.writes_of_digits_eq_none h n

end Spelling

end MayTaint
