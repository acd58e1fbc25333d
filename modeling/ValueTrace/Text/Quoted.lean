import ValueTrace.Text.Printable

/-!
# Quoted text

How a text is shown inside quotes, so that it stands on one line and its ends can be seen. Single
quotes are used unless the text holds single quotes and no double ones. The quote and the backslash
are escaped, a few controls have names, and every other unprintable character is written as its
code point in hexadecimal, in two, four or eight digits.
-/

namespace ValueTrace.Text

/-- The lower-case hexadecimal digits of a number, to a fixed width. -/
def hexDigits : Nat → Nat → List Char
  | 0, _ => []
  | width + 1, n => hexDigits width (n / 16) ++ [Nat.digitChar (n % 16)]

@[simp] theorem length_hexDigits (width n : Nat) : (hexDigits width n).length = width := by
  induction width generalizing n with
  | zero => rfl
  | succ width ih => simp [hexDigits, ih]

def singleQuote : Char := '\x27'

def doubleQuote : Char := '\x22'

/-- The quote to put around a text. -/
def quoteFor (cs : List Char) : Char :=
  if singleQuote ∈ cs ∧ doubleQuote ∉ cs then doubleQuote else singleQuote

/-- How one character is written between given quotes. -/
def escape (quote c : Char) : List Char :=
  if c = quote ∨ c = '\\' then ['\\', c]
  else if c = '\n' then ['\\', 'n']
  else if c = '\r' then ['\\', 'r']
  else if c = '\t' then ['\\', 't']
  else if isPrintable c then [c]
  else if c.toNat < 0x100 then '\\' :: 'x' :: hexDigits 2 c.toNat
  else if c.toNat < 0x10000 then '\\' :: 'u' :: hexDigits 4 c.toNat
  else '\\' :: 'U' :: hexDigits 8 c.toNat

/-- The characters of a text between quotes. -/
def quoteChars (cs : List Char) : List Char :=
  quoteFor cs :: cs.flatMap (escape (quoteFor cs)) ++ [quoteFor cs]

/-- A text between quotes. -/
def quoted (s : String) : String := String.ofList (quoteChars s.toList)

end ValueTrace.Text
