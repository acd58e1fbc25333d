/-!
# Why Lua text has no statements
-/

namespace ValueTrace.Lua

/-- Where Lua text breaks the rules of the language. -/
inductive SyntaxError where
  /-- No lexeme starts here, or one is not finished. -/
  | lexeme (line : Nat)
  /-- The lexeme does not fit here. -/
  | token (line : Nat)
  /-- The text ends too early. -/
  | ending

def SyntaxError.message : SyntaxError → String
  | lexeme line => "No lexeme starts on line " ++ toString line ++ ", or one is not finished there"
  | token line => "A lexeme on line " ++ toString line ++ " does not fit in its place"
  | ending => "The text ends too early"

/-- Why Lua text has no statements. -/
inductive Error where
  /-- The text breaks the rules of the language. The parser says how. -/
  | syntactic (message : String)
  /-- A number or a string that is well formed but has no value. -/
  | valueless
  /-- A string whose bytes are not UTF-8. -/
  | encoding (bytes : ByteArray)

end ValueTrace.Lua
