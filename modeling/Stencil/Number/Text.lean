import Stencil.Number.Shortest
import Stencil.Text.Blank
import Stencil.Text.Cut

/-! # The text of a number

Numbers are written positionally, with the fewest digits that read back and never with
an exponent. Reading takes decimal numbers with or without a point and an exponent, and
the words for infinity and for no number.
-/

namespace Stencil.Number

/-- Digits with the point behind the first `point` of them. -/
def positional (digits : List Char) (point : Int) : List Char :=
  if point ≤ 0 then '0' :: '.' :: List.replicate (-point).toNat '0' ++ digits
  else
    let whole := point.toNat
    if digits.length ≤ whole then digits ++ List.replicate (whole - digits.length) '0'
    else digits.take whole ++ '.' :: digits.drop whole

/-- The text of a number. Zero has no sign. -/
def text (x : Float) : String :=
  if x.isNaN then "NaN"
  else if x.isInf then if Binary.isNegative x then "-Infinity" else "Infinity"
  else if x == 0 then "0"
  else
    let (digits, point) := shortest x
    let magnitude := positional digits point
    String.ofList (if Binary.isNegative x then '-' :: magnitude else magnitude)

/-- The number that decimal digits write. -/
def ofDigits (digits : List Char) : Nat :=
  digits.foldl (fun n c => 10 * n + (c.toNat - '0'.toNat)) 0

/-- The double nearest to `mantissa * 10 ^ exponent`. Powers beyond the range of doubles
are not computed. -/
def ofDecimal (mantissa : List Char) (exponent : Int) : Float :=
  let significant := mantissa.dropWhile (· == '0')
  let magnitude := exponent + significant.length
  if significant.isEmpty || magnitude < -400 then 0
  else if 400 < magnitude then 1 / 0
  else Float.ofScientific (ofDigits significant) (exponent < 0) exponent.natAbs

/-- An exponent: a sign or none, and at least one digit, with nothing behind. -/
def readExponent? (cs : List Char) : Option Int :=
  let (negative, digits) := match cs with
    | '-' :: digits => (true, digits)
    | '+' :: digits => (false, digits)
    | digits => (false, digits)
  if digits.isEmpty || !digits.all Char.isDigit then none
  else if negative then some (-(ofDigits digits : Int)) else some (ofDigits digits)

/-- A number without its sign. -/
def readMagnitude? (cs : List Char) : Option Float :=
  let word := Text.lowercase cs
  if word == "inf".toList || word == "infinity".toList then some (1 / 0)
  else if word == "nan".toList then some (0 / 0)
  else
    let whole := cs.takeWhile Char.isDigit
    let (fraction, behind) := match cs.dropWhile Char.isDigit with
      | '.' :: rest => (rest.takeWhile Char.isDigit, rest.dropWhile Char.isDigit)
      | rest => ([], rest)
    if whole.isEmpty && fraction.isEmpty then none
    else
      let exponent := match behind with
        | [] => some 0
        | c :: digits => if c == 'e' || c == 'E' then readExponent? digits else none
      exponent.map fun e => ofDecimal (whole ++ fraction) (e - fraction.length)

/-- The number that a text writes, if it is one. -/
def read? (cs : List Char) : Option Float :=
  match cs with
  | '-' :: magnitude => (readMagnitude? magnitude).map fun x => -x
  | '+' :: magnitude => readMagnitude? magnitude
  | magnitude => readMagnitude? magnitude

/-- The index below `2 ^ 64` that decimal digits write, with an optional plus sign. -/
def index? (cs : List Char) : Option Nat :=
  let digits := match cs with
    | '+' :: digits => digits
    | digits => digits
  if digits.isEmpty || !digits.all Char.isDigit then none
  else if ofDigits digits < Nat.pow 2 64 then some (ofDigits digits) else none

end Stencil.Number
