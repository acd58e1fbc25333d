import ValueTrace.Text.Ranges

/-!
# Blank characters

Which characters count as blank around the parts of a descriptor, and how they are trimmed. The
class is wider than the one of `Char.isWhitespace`: it takes in the separators of the information
category and every space of Unicode.
-/

namespace ValueTrace.Text

/-- The blank characters, as inclusive ranges of code points. -/
def blankRanges : List (Nat × Nat) :=
  [(0x09, 0x0d), (0x1c, 0x20), (0x85, 0x85), (0xa0, 0xa0), (0x1680, 0x1680), (0x2000, 0x200a),
   (0x2028, 0x2029), (0x202f, 0x202f), (0x205f, 0x205f), (0x3000, 0x3000)]

def isBlank (c : Char) : Bool := inRanges blankRanges c.toNat

/-- Drops the blanks at both ends. -/
def trim (cs : List Char) : List Char :=
  ((cs.dropWhile isBlank).reverse.dropWhile isBlank).reverse

theorem length_dropWhile_le {α : Type} (p : α → Bool) (xs : List α) :
    (xs.dropWhile p).length ≤ xs.length :=
  (List.dropWhile_sublist p).length_le

theorem length_trim_le (cs : List Char) : (trim cs).length ≤ cs.length := by
  simp only [trim, List.length_reverse]
  calc ((cs.dropWhile isBlank).reverse.dropWhile isBlank).length
      ≤ (cs.dropWhile isBlank).reverse.length := length_dropWhile_le _ _
    _ = (cs.dropWhile isBlank).length := List.length_reverse
    _ ≤ cs.length := length_dropWhile_le _ _

end ValueTrace.Text
