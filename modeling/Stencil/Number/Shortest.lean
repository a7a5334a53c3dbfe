import Stencil.Number.Binary

/-! # The shortest decimal

The fewest digits that read back as a given double, and among those the digits nearest
to its value. Of two equally near ones the larger is taken.
-/

namespace Stencil.Number

/-- The number `digits * 10 ^ exponent`. -/
structure Decimal where
  digits : Nat
  exponent : Int
  deriving DecidableEq, Repr

/-- Ten to a power of either sign. -/
def power10 (e : Int) : Ratio :=
  { num := Nat.pow 10 e.toNat, den := Nat.pow 10 (-e).toNat }

/-- The number of zeros behind the point of `num / den`, below one, looking at `fuel` places. -/
def leadingZeros (num den : Nat) : Nat → Nat
  | 0 => 0
  | fuel + 1 => if den ≤ num * 10 then 0 else 1 + leadingZeros (num * 10) den fuel

/-- The number of digits before the point, or minus the number of zeros behind it. -/
def pointOf (r : Rounding) : Int :=
  if r.den ≤ r.value then (Nat.toDigits 10 (r.value / r.den)).length
  else -(leadingZeros r.value r.den 400 : Int)

/-- The decimal of `length` digits that is nearest to the value, if one of the two
neighbours of the value reads back. -/
def nearest? (r : Rounding) (point : Int) (length : Nat) : Option Decimal :=
  let exponent := point - length
  let unit := power10 exponent
  let below := r.value * unit.den / (r.den * unit.num)
  let above := below + 1
  match r.admits below unit, r.admits above unit with
  | false, false => none
  | true, false => some ⟨below, exponent⟩
  | false, true => some ⟨above, exponent⟩
  | true, true =>
      let middle := (2 * below + 1) * unit.num * r.den
      if middle ≤ 2 * r.value * unit.den then some ⟨above, exponent⟩ else some ⟨below, exponent⟩

/-- The first length from `length` on, of at most `fuel`, with a decimal that reads back. -/
def shortestFrom (r : Rounding) (point : Int) (length : Nat) : Nat → Decimal
  | 0 => ⟨0, point - length⟩
  | fuel + 1 =>
      match nearest? r point length with
      | some d => d
      | none => shortestFrom r point (length + 1) fuel

/-- The decimal in place of a finite double other than zero, by magnitude, as digits and
the number of digits before the point. -/
def shortest (x : Float) : List Char × Int :=
  let r := Rounding.ofBinary (Binary.ofFloat x)
  let point := pointOf r
  let d := shortestFrom r point 1 17
  let digits := Nat.toDigits 10 d.digits
  let kept := (digits.reverse.dropWhile (· == '0')).reverse
  (kept, d.exponent + digits.length)

end Stencil.Number
