import ValueTrace.Decimal.Shortest

/-!
# Integers as text

Integers are read and written with a limited number of digits. Beyond the limit a text of digits is
not read as an integer, and an integer, which may come about in another way, has no text.
-/

namespace ValueTrace.Decimal

/-- The most decimal digits that an integer is read or written with. -/
def maxDigits : Nat := 4300

/-- The decimal text of an integer, unless it takes too many digits. -/
def integerText? (n : Int) : Option String :=
  if n.natAbs < tenPow maxDigits then some (toString n) else none

end ValueTrace.Decimal
