import MayTaint.Decimal.Binary64

/-!
The text of a double-precision number: the fewest decimal digits that read back as the number, of
those the nearest to it. A layout says where the digits stand.
-/

namespace MayTaint

structure Decimal where
  digits : Nat
  exponent : Int
  deriving DecidableEq, Repr

namespace Decimal

def stripZeros : Nat → Decimal → Decimal
  | 0, d => d
  | fuel + 1, d =>
    if d.digits != 0 && d.digits % 10 == 0 then stripZeros fuel ⟨d.digits / 10, d.exponent + 1⟩
    else d

/-- The reals that round to `m * 2 ^ e`, in units of `2 ^ (e - 2)`: the lower end, the number
itself and the upper end. Below a power of two the gap is half as wide. -/
def roundingInterval (m : Nat) (e : Int) : Nat × Nat × Nat :=
  let below := if m = Binary64.leastNormal ∧ Binary64.leastExponent < e then 1 else 2
  (4 * m - below, 4 * m, 4 * m + 2)

/-- The exponent `p` with `10 ^ (p - 1) ≤ num / den < 10 ^ p`, for a ratio above `10 ^ (-400)`. -/
def magnitude (num den : Nat) : Int :=
  (Nat.toDigits 10 (num * Nat.pow 10 400 / den)).length - 400

/-- The candidate on the grid of the multiples of `10 ^ grid`, if one of the two neighbours of
`m * 2 ^ e` there reads back; of two that do, the nearer one. -/
def onGrid? (m : Nat) (e grid : Int) : Option Decimal :=
  let (lo, mid, hi) := roundingInterval m e
  -- one step of the grid is `step / unit` of the interval's unit
  let (gridNum, gridDen) := Binary64.scaleByTen 1 1 grid
  let (unitNum, unitDen) := Binary64.scaleByTwo 1 1 (e - 2)
  let step := gridNum * unitDen
  let unit := gridDen * unitNum
  let within (c : Nat) : Bool :=
    if m % 2 = 0 then lo * unit ≤ c * step && c * step ≤ hi * unit
    else lo * unit < c * step && c * step < hi * unit
  let under := mid * unit / step
  let above := under + 1
  match within under, within above with
  | true, false => some ⟨under, grid⟩
  | false, true => some ⟨above, grid⟩
  | true, true =>
    let down := mid * unit - under * step
    let up := above * step - mid * unit
    some ⟨if down < up || (down == up && under % 2 == 0) then under else above, grid⟩
  | false, false => none

/-- The fewest digits that read back as `m * 2 ^ e`; seventeen always suffice. -/
def shortest (m : Nat) (e : Int) : Decimal :=
  let (num, den) := Binary64.scaleByTwo m 1 e
  let top := magnitude num den
  let found := (List.range 17).findSome? fun n : Nat => onGrid? m e (top - (n + 1))
  stripZeros 17 (found.getD ⟨m, e⟩)

structure Layout where
  /-- Scientific exponents from here on up to `scientificFrom` are written positionally. -/
  positionalFrom : Int
  scientificFrom : Int
  exponentWidth : Nat
  /-- What follows a positional number without a fraction. -/
  wholeMark : String
  nan : String
  infinite : String

/-- Numbers are positional from `0.0001` up to sixteen digits before the point, and always show a
point; exponents have a sign and two digits. -/
def Layout.standard : Layout :=
  ⟨-4, 16, 2, ".0", "nan", "inf"⟩

def positional (layout : Layout) (d : Decimal) : String :=
  let ds := Nat.toDigits 10 d.digits
  let point : Int := ds.length + d.exponent
  if point ≤ 0 then
    "0." ++ String.ofList (List.replicate (-point).toNat '0' ++ ds)
  else if ds.length ≤ point then
    String.ofList (ds ++ List.replicate (point.toNat - ds.length) '0') ++ layout.wholeMark
  else
    String.ofList (ds.take point.toNat) ++ "." ++ String.ofList (ds.drop point.toNat)

def scientific (layout : Layout) (d : Decimal) : String :=
  let ds := Nat.toDigits 10 d.digits
  let e : Int := ds.length + d.exponent - 1
  let fraction := ds.drop 1
  let mark := if fraction.isEmpty then "" else "."
  let exponent := Nat.toDigits 10 e.natAbs
  let filled := List.replicate (layout.exponentWidth - exponent.length) '0' ++ exponent
  String.ofList (ds.take 1) ++ mark ++ String.ofList fraction ++ "e"
    ++ (if e < 0 then "-" else "+") ++ String.ofList filled

def text (layout : Layout) (d : Decimal) : String :=
  let e : Int := (Nat.toDigits 10 d.digits).length + d.exponent - 1
  if layout.positionalFrom ≤ e && e < layout.scientificFrom then positional layout d
  else scientific layout d

end Decimal

def Binary64.text (x : Binary64) : String :=
  let layout := Decimal.Layout.standard
  match x with
  | .nan => layout.nan
  | .infinite negative => (if negative then "-" else "") ++ layout.infinite
  | .finite negative m e =>
    let body := if m = 0 then "0" ++ layout.wholeMark else (Decimal.shortest m e).text layout
    (if negative then "-" else "") ++ body

end MayTaint
