/-!
# Lua tokens

The lexemes of Lua and the lines they stand on.
-/

namespace ValueTrace.Lua

/-- The smallest parts of Lua text. -/
inductive Lexeme where
  | name (id : String)
  | keyword (word : String)
  | symbol (text : String)
  | int (n : Nat)
  /-- A number with a fraction or an exponent, which has no value if it is hexadecimal. -/
  | float (x : Option Float)
  /-- A string, which has no value if a sign that is no decimal digit goes on a number in it. -/
  | string (bytes : Option ByteArray)

/-- Whether a lexeme that should have a value has none. -/
def Lexeme.lacksValue : Lexeme → Bool
  | .float none | .string none => true
  | _ => false

/-- A lexeme and the line on which it starts. -/
structure Token where
  lexeme : Lexeme
  line : Nat

/-- The names that are reserved. -/
def keywords : List String :=
  ["and", "break", "do", "else", "elseif", "end", "false", "for", "function", "goto", "if", "in",
   "local", "nil", "not", "or", "repeat", "return", "then", "true", "until", "while"]

/-- The symbols, where one that starts with another comes before it. -/
def symbols : List String :=
  ["...", "..", ".", "==", "=", "~=", "~", "<=", "<<", "<", ">=", ">>", ">", "//", "/", "::", ":",
   "+", "-", "*", "%", "^", "#", "&", "|", "(", ")", "\x7b", "\x7d", "[", "]", ";", ","]

end ValueTrace.Lua
