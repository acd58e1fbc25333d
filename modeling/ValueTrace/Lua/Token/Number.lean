import ValueTrace.Decimal.Integer
import ValueTrace.Decimal.Text
import ValueTrace.Lua.Token
import ValueTrace.Lua.Token.Escape

/-!
# Numbers in Lua

Reads a number off the front of a text. Digits alone are an integer unless there are too many of
them, and a fraction or an exponent makes a float. A number ends where no longer one fits.
-/

namespace ValueTrace.Lua

/-- Takes an exponent off the front of a text, if a whole one is there. -/
def exponentSpan (isMark : Char → Bool) (cs : List Char) : List Char × List Char :=
  let digitsAfter (mark rest : List Char) : List Char × List Char :=
    match rest.takeWhile Char.isDigit with
    | [] => ([], cs)
    | ds => (mark ++ ds, rest.dropWhile Char.isDigit)
  match cs with
  | m :: '+' :: rest => if isMark m then digitsAfter [m, '+'] rest else ([], cs)
  | m :: '-' :: rest => if isMark m then digitsAfter [m, '-'] rest else ([], cs)
  | m :: rest => if isMark m then digitsAfter [m] rest else ([], cs)
  | [] => ([], cs)

def isExponentMark (c : Char) : Bool := c = 'e' || c = 'E'

def isBinaryExponentMark (c : Char) : Bool := c = 'p' || c = 'P'

/-- The number of a text of digits. Zero is an integer however it is written; any other value is a
float if there are zeros in front of it or too many digits for an integer. -/
def digitsLexeme (digits : List Char) : Lexeme :=
  let n := Decimal.ofDigits digits
  let isInt := n = 0 ∨ (digits.head? ≠ some '0' ∧ digits.length ≤ Decimal.maxDigits)
  if isInt then .int n else .float (some (Decimal.Scaled.toFloat ⟨n, 0⟩))

/-- The number of a text of decimal digits with a fraction or an exponent. -/
def floatLexeme (cs : List Char) : Lexeme :=
  .float (some ((Decimal.unsigned? cs).elim 0.0 Decimal.Scaled.toFloat))

/-- Reads a decimal number. -/
def decimalNumber (cs : List Char) : Lexeme × List Char :=
  let whole := cs.takeWhile Char.isDigit
  match cs.dropWhile Char.isDigit with
  | '.' :: rest =>
    let fraction := rest.takeWhile Char.isDigit
    let (exponent, rest) := exponentSpan isExponentMark (rest.dropWhile Char.isDigit)
    (floatLexeme (whole ++ '.' :: fraction ++ exponent), rest)
  | rest =>
    match exponentSpan isExponentMark rest with
    | ([], rest) => (digitsLexeme whole, rest)
    | (exponent, rest) => (floatLexeme (whole ++ exponent), rest)

/-- Reads a hexadecimal number, after its first two characters. -/
def hexNumber? (cs : List Char) : Option (Lexeme × List Char) :=
  let whole := cs.takeWhile isHexDigit
  match cs.dropWhile isHexDigit with
  | '.' :: rest =>
    let fraction := rest.takeWhile isHexDigit
    if whole.isEmpty && fraction.isEmpty then none
    else
      let (_, rest) := exponentSpan isBinaryExponentMark (rest.dropWhile isHexDigit)
      some (.float none, rest)
  | rest =>
    if whole.isEmpty then none
    else
      match exponentSpan isBinaryExponentMark rest with
      | ([], rest) => some (.int (ofHexDigits whole), rest)
      | (_, rest) => some (.float none, rest)

/-- Reads a number. -/
def number (cs : List Char) : Lexeme × List Char :=
  match cs with
  | '0' :: x :: rest =>
    if x = 'x' ∨ x = 'X' then (hexNumber? rest).getD (decimalNumber cs) else decimalNumber cs
  | _ => decimalNumber cs

/-- Whether a number starts here. -/
def startsNumber : List Char → Bool
  | '.' :: d :: _ => d.isDigit
  | d :: _ => d.isDigit
  | [] => false

/-! ## Progress -/

theorem length_exponentSpan_le (isMark : Char → Bool) (cs : List Char) :
    (exponentSpan isMark cs).2.length ≤ cs.length := by
  have hdigits (mark rest : List Char) (h : rest.length ≤ cs.length) :
      (match rest.takeWhile Char.isDigit with
        | [] => ([], cs)
        | ds => (mark ++ ds, rest.dropWhile Char.isDigit)).2.length ≤ cs.length := by
    split
    · exact Nat.le_refl _
    · exact Nat.le_trans (Text.length_dropWhile_le _ _) h
  unfold exponentSpan
  split
  · split
    · exact hdigits _ _ (by simp only [List.length_cons]; omega)
    · exact Nat.le_refl _
  · split
    · exact hdigits _ _ (by simp only [List.length_cons]; omega)
    · exact Nat.le_refl _
  · split
    · exact hdigits _ _ (by simp)
    · exact Nat.le_refl _
  · exact Nat.le_refl _

theorem length_decimalNumber_lt {cs : List Char} (h : startsNumber cs) :
    (decimalNumber cs).2.length < cs.length := by
  have hdrop := Text.length_dropWhile_le Char.isDigit cs
  unfold decimalNumber
  split
  · next rest heq =>
    have hrest := Text.length_dropWhile_le Char.isDigit rest
    have hexp := length_exponentSpan_le isExponentMark (rest.dropWhile Char.isDigit)
    rw [heq] at hdrop
    simp only [List.length_cons] at hdrop
    simp only
    omega
  · next hno =>
    have hlt : (cs.dropWhile Char.isDigit).length < cs.length := by
      cases cs with
      | nil => simp [startsNumber] at h
      | cons d ds =>
        by_cases hd : d.isDigit
        · have := Text.length_dropWhile_le Char.isDigit ds
          simp only [List.dropWhile_cons, hd, if_true, List.length_cons]
          omega
        · exfalso
          unfold startsNumber at h
          split at h
          · next e es heq =>
            cases heq
            exact hno (e :: es) (by simp [hd])
          · next heq => cases heq; exact hd h
          · next heq => cases heq
    have hexp := length_exponentSpan_le isExponentMark (cs.dropWhile Char.isDigit)
    split
    · next heq =>
      rw [heq] at hexp
      dsimp only at hexp ⊢
      omega
    · next heq =>
      rw [heq] at hexp
      dsimp only at hexp ⊢
      omega

theorem length_hexNumber_le {cs rest : List Char} {lexeme : Lexeme}
    (h : hexNumber? cs = some (lexeme, rest)) : rest.length ≤ cs.length := by
  have hdrop := Text.length_dropWhile_le isHexDigit cs
  unfold hexNumber? at h
  split at h
  · next more heq =>
    have hrest := Text.length_dropWhile_le isHexDigit more
    have hexp := length_exponentSpan_le isBinaryExponentMark (more.dropWhile isHexDigit)
    rw [heq] at hdrop
    simp only [List.length_cons] at hdrop
    dsimp only at h
    split at h
    · cases h
    · cases h
      omega
  · have hexp := length_exponentSpan_le isBinaryExponentMark (cs.dropWhile isHexDigit)
    dsimp only at h
    split at h
    · cases h
    · split at h
      · next heq =>
        cases h
        rw [heq] at hexp
        dsimp only at hexp
        omega
      · next heq =>
        cases h
        rw [heq] at hexp
        dsimp only at hexp
        omega

theorem length_number_lt {cs : List Char} (h : startsNumber cs) :
    (number cs).2.length < cs.length := by
  have hdec := length_decimalNumber_lt h
  unfold number
  split
  · next x rest =>
    split
    · cases hx : hexNumber? rest with
      | none => exact hdec
      | some r =>
        obtain ⟨lexeme, rest'⟩ := r
        have hle := length_hexNumber_le hx
        simp only [Option.getD_some, List.length_cons]
        omega
    · exact hdec
  · exact hdec

end ValueTrace.Lua
