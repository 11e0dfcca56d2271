import MayTaint.Text.Characters

/-!
Quoted text and quoted bytes. The quote is single unless the content has a single quote and no
double one. The quote in use and the backslash are escaped by a backslash, tabulator and line ends
have names, and everything that is not printable is written by its number.
-/

namespace MayTaint.Text

def singleQuote : Char := Char.ofNat 39

def doubleQuote : Char := Char.ofNat 34

def backslash : Char := Char.ofNat 92

def hex (width n : Nat) : List Char :=
  let digits := Nat.toDigits 16 n
  List.replicate (width - digits.length) '0' ++ digits

def hexValue? (c : Char) : Option Nat :=
  if c.isDigit then some (c.toNat - '0'.toNat)
  else
    let letter := c.toLower
    if 'a' ≤ letter && letter ≤ 'f' then some (letter.toNat - 'a'.toNat + 10) else none

/-- The bytes that are spelled by pairs of hexadecimal digits, with blanks between the pairs, or the
position of the first character that does not fit. The text starts at the given position. -/
def unhexFrom (position : Nat) : List Char → Except Nat (List UInt8)
  | [] => .ok []
  | [a] =>
    if isAsciiBlank a then .ok []
    else .error (if (hexValue? a).isSome then position + 1 else position)
  | a :: b :: rest =>
    if isAsciiBlank a then unhexFrom (position + 1) (b :: rest)
    else
      match hexValue? a, hexValue? b with
      | some high, some low =>
        (unhexFrom (position + 2) rest).map (UInt8.ofNat (16 * high + low) :: ·)
      | none, _ => .error position
      | some _, none => .error (position + 1)

/-- The bytes that a text spells. A character outside ASCII is told before any other misfit. -/
def unhex (s : String) : Except Nat (List UInt8) :=
  match s.toList.findIdx? (fun c => 0x80 ≤ c.toNat) with
  | some position => .error position
  | none => unhexFrom 0 s.toList

/-- The quote that surrounds the given content. -/
def quoteFor (cs : List Char) : Char :=
  if cs.contains singleQuote && !cs.contains doubleQuote then doubleQuote else singleQuote

/-- The characters with an escape of their own inside the quote `q`. -/
def namedEscape? (q c : Char) : Option (List Char) :=
  if c == q || c == backslash then some [backslash, c]
  else if c == '\t' then some [backslash, 't']
  else if c == '\n' then some [backslash, 'n']
  else if c == '\r' then some [backslash, 'r']
  else none

def escapeChar (q c : Char) : List Char :=
  match namedEscape? q c with
  | some cs => cs
  | none =>
    if isPrintable c then [c]
    else if c.toNat < 0x100 then backslash :: 'x' :: hex 2 c.toNat
    else if c.toNat < 0x10000 then backslash :: 'u' :: hex 4 c.toNat
    else backslash :: 'U' :: hex 8 c.toNat

def quote (s : String) : String :=
  let q := quoteFor s.toList
  String.ofList (q :: s.toList.flatMap (escapeChar q) ++ [q])

def escapeByte (q : Char) (b : UInt8) : List Char :=
  let c := Char.ofNat b.toNat
  match namedEscape? q c with
  | some cs => cs
  | none => if 0x20 ≤ b && b ≤ 0x7E then [c] else backslash :: 'x' :: hex 2 b.toNat

def quoteBytes (bs : List UInt8) : String :=
  let q := quoteFor (bs.map fun b => Char.ofNat b.toNat)
  String.ofList ('b' :: q :: bs.flatMap (escapeByte q) ++ [q])

end MayTaint.Text
