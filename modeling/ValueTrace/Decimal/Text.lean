import ValueTrace.Decimal.Shortest

/-!
# Floating-point numbers as text

`text` writes a double with the fewest digits that read back. Exponents from -4 to 15 are written
positionally, always with a fraction; others in scientific form, with a signed exponent of at least
two digits. `ofText?` reads decimal literals, rounding to the nearest double.
-/

namespace ValueTrace.Decimal

/-! ## Writing -/

/-- Whether a number with this decimal exponent is written without an exponent. -/
def isPositional (e : Int) : Bool := -4 ≤ e && e < 16

/-- Digits with the point after the place of exponent zero. -/
def positional (digits : List Char) (e : Int) : List Char :=
  if e < 0 then
    '0' :: '.' :: List.replicate (-e - 1).toNat '0' ++ digits
  else
    let places := (e + 1).toNat
    let whole := digits.take places ++ List.replicate (places - digits.length) '0'
    let fraction := digits.drop places
    whole ++ '.' :: if fraction.isEmpty then ['0'] else fraction

/-- Digits with the point after the first of them, and an exponent. -/
def scientific (digits : List Char) (e : Int) : List Char :=
  let fraction := digits.drop 1
  let size := Nat.toDigits 10 e.natAbs
  digits.take 1 ++ (if fraction.isEmpty then [] else '.' :: fraction) ++
    'e' :: (if e < 0 then '-' else '+') :: List.replicate (2 - size.length) '0' ++ size

/-- A positive decimal, without trailing zeros. -/
def Scaled.chars (x : Scaled) : List Char :=
  let all := Nat.toDigits 10 x.digits
  let digits := (all.reverse.dropWhile (· == '0')).reverse
  let e := (all.length : Int) - 1 + x.exponent
  if isPositional e then positional digits e else scientific digits e

/-- The magnitude held in the exponent and fraction fields of a double. -/
def magnitude (biased fraction : Nat) : List Char :=
  if biased = 0x7ff then
    if fraction = 0 then ['i', 'n', 'f'] else ['n', 'a', 'n']
  else if biased = 0 then
    if fraction = 0 then ['0', '.', '0']
    else (Binary.shortest ⟨fraction, -1074, false⟩).chars
  else
    (Binary.shortest ⟨twoPow 52 + fraction, biased - 1075, fraction == 0 && biased != 1⟩).chars

/-- A double with the fewest digits that read back. -/
def text (x : Float) : String :=
  let bits := x.toBits.toNat
  let fraction := bits % twoPow 52
  let biased := bits / twoPow 52 % twoPow 11
  let negative := bits / twoPow 63 = 1 ∧ ¬(biased = 0x7ff ∧ fraction ≠ 0)
  String.ofList (if negative then '-' :: magnitude biased fraction else magnitude biased fraction)

/-! ## Reading -/

/-- The number that a list of decimal digits spells. -/
def ofDigits (cs : List Char) : Nat :=
  cs.foldl (fun n c => n * 10 + (c.toNat - '0'.toNat)) 0

/-- The double nearest to a scaled number. Numbers far out of the range of doubles are settled
without forming their powers of ten. -/
def Scaled.toFloat (x : Scaled) : Float :=
  let size := (Nat.toDigits 10 x.digits).length + x.exponent
  if x.digits = 0 ∨ size < -400 then 0.0
  else if 400 < size then 1.0 / 0.0
  else Float.ofScientific x.digits (x.exponent < 0) x.exponent.natAbs

/-- Reads an optional exponent up to the end of the text. -/
def exponent? : List Char → Option Int
  | [] => some 0
  | mark :: cs =>
    if mark ≠ 'e' ∧ mark ≠ 'E' then none
    else
      let (negative, digits) := match cs with
        | '-' :: ds => (true, ds)
        | '+' :: ds => (false, ds)
        | ds => (false, ds)
      if digits.isEmpty ∨ !digits.all Char.isDigit then none
      else some (if negative then -(ofDigits digits : Int) else ofDigits digits)

/-- Reads an unsigned decimal literal: digits with at most one point among or around them, and an
optional exponent. -/
def unsigned? (cs : List Char) : Option Scaled :=
  let whole := cs.takeWhile Char.isDigit
  let rest := cs.dropWhile Char.isDigit
  let (fraction, tail) := match rest with
    | '.' :: ds => (ds.takeWhile Char.isDigit, ds.dropWhile Char.isDigit)
    | ds => ([], ds)
  if whole.isEmpty ∧ fraction.isEmpty then none
  else (exponent? tail).map fun e => ⟨ofDigits (whole ++ fraction), e - fraction.length⟩

/-- Reads a double: a decimal literal, `inf` or `nan`, each with an optional minus sign. -/
def ofText? (s : String) : Option Float :=
  let magnitude? : List Char → Option Float
    | ['i', 'n', 'f'] => some (1.0 / 0.0)
    | ['n', 'a', 'n'] => some (0.0 / 0.0)
    | cs => (unsigned? cs).map Scaled.toFloat
  match s.toList with
  | '-' :: cs => (magnitude? cs).map (- ·)
  | cs => magnitude? cs

end ValueTrace.Decimal
