/-!
# Shortest decimals

Every positive number `mantissa * 2 ^ exponent` of a binary format owns the interval of reals that
round to it. `shortest` finds the decimal of fewest digits in that interval, and of those the one
nearest to the number. All comparisons are exact, in natural numbers.
-/

namespace ValueTrace.Decimal

/-- A positive number of a binary floating-point format. -/
structure Binary where
  mantissa : Nat
  exponent : Int
  /-- Whether the next number below is half as far away as the next one above. -/
  closeBelow : Bool

/-- A power of two. -/
def twoPow (n : Nat) : Nat := Nat.pow 2 n

/-- A power of ten. -/
def tenPow (n : Nat) : Nat := Nat.pow 10 n

/-- The number `digits * 10 ^ exponent`. -/
structure Scaled where
  digits : Nat
  exponent : Int

namespace Binary

/-- Whether `10 ^ e` is at most the number. -/
def reaches (x : Binary) (e : Int) : Bool :=
  tenPow e.toNat * twoPow (-x.exponent).toNat ≤
    x.mantissa * twoPow x.exponent.toNat * tenPow (-e).toNat

/-- The decimal exponent of the number's leading digit. The logarithm to base two gives it up to
one, as `log 2` is close to 30103 parts in 100000. -/
def decimalExponent (x : Binary) : Int :=
  let guess := ((x.mantissa.log2 : Int) + x.exponent) * 30103 / 100000
  if x.reaches (guess + 1) then guess + 1
  else if x.reaches guess then guess
  else guess - 1

/-- The better of the number's two neighbours on the grid of the multiples of `10 ^ k`, if one of
them rounds to the number. In quarters of a unit of the mantissa the interval reaches from two, or
one, below the number to two above it, and its ends belong to it when the mantissa is even. -/
def onGrid (x : Binary) (k : Int) : Option Nat :=
  let scale := twoPow x.exponent.toNat * tenPow (-k).toNat
  let unit := 4 * twoPow (-x.exponent).toNat * tenPow k.toNat
  let low := (4 * x.mantissa - if x.closeBelow then 1 else 2) * scale
  let high := (4 * x.mantissa + 2) * scale
  let number := 4 * x.mantissa * scale
  let below := number / unit
  let rounds (d : Nat) : Bool :=
    if x.mantissa % 2 = 0 then low ≤ d * unit && d * unit ≤ high
    else low < d * unit && d * unit < high
  match rounds below, rounds (below + 1) with
  | false, false => none
  | true, false => some below
  | false, true => some (below + 1)
  | true, true =>
    match compare (number - below * unit) ((below + 1) * unit - number) with
    | .lt => some below
    | .gt => some (below + 1)
    | .eq => some (if below % 2 = 0 then below else below + 1)

/-- The decimal of fewest digits that rounds to the number. Seventeen digits always suffice. -/
def shortest (x : Binary) : Scaled :=
  let top := x.decimalExponent
  let found := (List.range 17).findSome? fun n : Nat =>
    (x.onGrid (top - n)).map fun d => ⟨d, top - n⟩
  found.getD ⟨x.mantissa, 0⟩

end Binary

end ValueTrace.Decimal
