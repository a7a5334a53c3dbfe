/-! # Binary numbers

A finite double is a signed whole number of units in the last place. The numbers nearer
to it than to its neighbours form an interval, whose ends belong to it when the whole
number is even.
-/

namespace Stencil.Number

/-- A positive number `mantissa * 2 ^ exponent`. -/
structure Binary where
  mantissa : Nat
  exponent : Int
  /-- Whether the number below lies half as far away as the one above. -/
  narrowBelow : Bool
  deriving DecidableEq, Repr

namespace Binary

/-- The magnitude of a finite double other than zero. -/
def ofFloat (x : Float) : Binary :=
  let bits : Nat := x.toBits.toNat
  let fraction : Nat := bits % Nat.pow 2 52
  let biased : Nat := bits / Nat.pow 2 52 % Nat.pow 2 11
  if biased = 0 then { mantissa := fraction, exponent := -1074, narrowBelow := false }
  else
    { mantissa := Nat.pow 2 52 + fraction
      exponent := (biased : Int) - 1075
      narrowBelow := fraction == 0 && 1 < biased }

/-- Whether the double carries a minus sign. -/
def isNegative (x : Float) : Bool := x.toBits.toNat / Nat.pow 2 63 == 1

end Binary

/-- A positive fraction. -/
structure Ratio where
  num : Nat
  den : Nat
  deriving DecidableEq, Repr

/-- The numbers that round to one double, and that double's own value. -/
structure Rounding where
  low : Nat
  value : Nat
  high : Nat
  /-- The denominator of all three. -/
  den : Nat
  closed : Bool
  deriving DecidableEq, Repr

namespace Rounding

/-- The interval of the numbers that round to `b`. -/
def ofBinary (b : Binary) : Rounding :=
  let quarter := b.exponent - 2
  let scale := Nat.pow 2 quarter.toNat
  { low := (4 * b.mantissa - if b.narrowBelow then 1 else 2) * scale
    value := 4 * b.mantissa * scale
    high := (4 * b.mantissa + 2) * scale
    den := Nat.pow 2 (-quarter).toNat
    closed := b.mantissa % 2 == 0 }

/-- Whether `digits * num / den` lies in the interval. -/
def admits (r : Rounding) (digits : Nat) (unit : Ratio) : Bool :=
  let point := digits * unit.num * r.den
  let below := r.low * unit.den
  let above := r.high * unit.den
  if r.closed then below ≤ point && point ≤ above else below < point && point < above

end Rounding

end Stencil.Number
