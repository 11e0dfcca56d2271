import MayTaint.Text.Characters

/-!
Double-precision numbers as exact values. A finite number is a signed multiple of a power of two, so
reading decimal text and comparing with whole numbers are exact integer arithmetic.
-/

namespace MayTaint

/-- A double-precision number. A finite one is `mantissa * 2 ^ exponent` with a sign, kept normal:
the mantissa is below `2 ^ 53`, the exponent at least `-1074`, and the mantissa reaches `2 ^ 52`
unless the exponent is the least one. -/
inductive Binary64 where
  | nan
  | infinite (negative : Bool)
  | finite (negative : Bool) (mantissa : Nat) (exponent : Int)
  deriving DecidableEq, Repr, Inhabited

namespace Binary64

def leastExponent : Int := -1074

def greatestExponent : Int := 971

def leastNormal : Nat := 1 <<< 52

/-- `num / den` as a pair of natural numbers, scaled by `2 ^ e`. -/
def scaleByTwo (num den : Nat) (e : Int) : Nat × Nat :=
  if 0 ≤ e then (num <<< e.toNat, den) else (num, den <<< (-e).toNat)

def scaleByTen (num den : Nat) (e : Int) : Nat × Nat :=
  if 0 ≤ e then (num * Nat.pow 10 e.toNat, den) else (num, den * Nat.pow 10 (-e).toNat)

/-- The quotient rounded to the nearest natural number, a half to the even one. -/
def roundToEven (num den : Nat) : Nat :=
  let q := num / den
  let r := num % den
  if den < 2 * r || (2 * r == den && q % 2 == 1) then q + 1 else q

/-- The exponent at which `num / den` has a mantissa of 53 bits, or the least one. -/
def exponentOf (num den : Nat) : Int :=
  let e : Int := (num.log2 : Int) - den.log2 - 52
  let (n, d) := scaleByTwo num den (-e)
  let e := if n / d < leastNormal then e - 1 else e
  if e < leastExponent then leastExponent else e

/-- The number nearest to `num / den`, ties to the even mantissa. -/
def ofRatio (negative : Bool) (num den : Nat) : Binary64 :=
  if num = 0 then finite negative 0 leastExponent
  else
    let e := exponentOf num den
    let (n, d) := scaleByTwo num den (-e)
    let m := roundToEven n d
    let (m, e) := if m = 2 * leastNormal then (leastNormal, e + 1) else (m, e)
    if greatestExponent < e then infinite negative else finite negative m e

/-- The number nearest to `digits * 10 ^ e`. Beyond four hundred places the answer is zero or
infinite, whatever the digits are. -/
def ofDecimal (negative : Bool) (digits : Nat) (e : Int) : Binary64 :=
  let places : Int := (Nat.toDigits 10 digits).length + e
  if digits = 0 || places < -400 then finite negative 0 leastExponent
  else if 400 < places then infinite negative
  else
    let (n, d) := scaleByTen digits 1 e
    ofRatio negative n d

def readSign : List Char → Bool × List Char
  | '-' :: cs => (true, cs)
  | '+' :: cs => (false, cs)
  | cs => (false, cs)

def readDigits (cs : List Char) : Nat :=
  cs.foldl (fun n c => 10 * n + (c.toNat - '0'.toNat)) 0

def readExponent : List Char → Option Int
  | [] => some 0
  | c :: cs =>
    let (negative, ds) := readSign cs
    if c.toLower == 'e' && !ds.isEmpty && ds.all Char.isDigit then
      some (if negative then -(readDigits ds : Int) else readDigits ds)
    else none

def dropMarks : List Char → List Char
  | c :: '_' :: d :: rest =>
    if c.isDigit && d.isDigit then c :: dropMarks (d :: rest) else c :: '_' :: dropMarks (d :: rest)
  | c :: rest => c :: dropMarks rest
  | [] => []

/-- Reads a decimal with an optional sign, point and exponent, or one of the names of the numbers
that have no digits. Digits of any script are taken, and neither the blanks around the number nor
the marks between its digits count. -/
def ofText? (s : String) : Option Binary64 :=
  let (negative, cs) := readSign (dropMarks (Text.trim (s.toList.map Text.plainNumeral)))
  match String.ofList (cs.map Char.toLower) with
  | "nan" => some nan
  | "inf" | "infinity" => some (infinite negative)
  | _ =>
    let whole := cs.takeWhile Char.isDigit
    let rest := cs.dropWhile Char.isDigit
    let (fraction, rest) := match rest with
      | '.' :: ds => (ds.takeWhile Char.isDigit, ds.dropWhile Char.isDigit)
      | ds => ([], ds)
    if whole.isEmpty && fraction.isEmpty then none
    else (readExponent rest).map fun e =>
      ofDecimal negative (readDigits (whole ++ fraction)) (e - fraction.length)

def floor? : Binary64 → Option Int
  | finite negative m e =>
    let (n, d) := scaleByTwo m 1 e
    some (if negative then Int.fdiv (-(n : Int)) d else n / d)
  | _ => none

def ceil? : Binary64 → Option Int
  | finite negative m e => (floor? (finite (!negative) m e)).map (- ·)
  | _ => none

def isInt (x : Binary64) (n : Int) : Bool :=
  floor? x == some n && ceil? x == some n

def isZero (x : Binary64) : Bool :=
  isInt x 0

/-- Numeric equality: the two zeros are equal, and `nan` is not equal to itself. -/
def same : Binary64 → Binary64 → Bool
  | finite s m e, finite s' m' e' => m == m' && (m == 0 || (s == s' && e == e'))
  | infinite s, infinite s' => s == s'
  | _, _ => false

end Binary64

end MayTaint
