import ValueTrace.Lua.Error
import ValueTrace.Lua.Token
import ValueTrace.Lua.Tree

/-!
# The small parts of the Lua grammar

Operators with their priorities, and lists of names: everything that is read without reading an
expression. A result comes with the tokens that are left, of which there are fewer than before.
-/

namespace ValueTrace.Lua

/-- A result and the tokens that are left, fewer than `n`. -/
structure Parsed (α : Type) (n : Nat) where
  value : α
  rest : List Token
  shorter : rest.length < n

/-- A result read off the front of a list of tokens, or an error. -/
abbrev Parse (α : Type) (n : Nat) := Except SyntaxError (Parsed α n)

/-- The error at a token that does not fit. -/
def unexpected {α : Type} : List Token → Except SyntaxError α
  | [] => .error .ending
  | t :: _ => .error (.token t.line)

/-- The line of the next token, or zero at the end. -/
def lineOf : List Token → Int
  | [] => 0
  | t :: _ => t.line

/-! ## Operators -/

/-- How strongly a binary operator binds on its left and on its right. -/
structure Priority where
  left : Nat
  right : Nat

/-- The priority of unary operators, between products and powers. -/
def unaryPriority : Nat := 12

def unaryOp? : Lexeme → Option UnaryOp
  | .symbol "-" => some .minus
  | .symbol "~" => some .bitNot
  | .symbol "#" => some .length
  | .keyword "not" => some .not
  | _ => none

/-- Operators that bind more strongly on the left group to the right. -/
def binaryOp? : Lexeme → Option (BinaryOp × Priority)
  | .keyword "or" => some (.or, ⟨1, 1⟩)
  | .keyword "and" => some (.and, ⟨2, 2⟩)
  | .symbol "<" => some (.less, ⟨3, 3⟩)
  | .symbol ">" => some (.greater, ⟨3, 3⟩)
  | .symbol "<=" => some (.lessEqual, ⟨3, 3⟩)
  | .symbol ">=" => some (.greaterEqual, ⟨3, 3⟩)
  | .symbol "==" => some (.equal, ⟨3, 3⟩)
  | .symbol "~=" => some (.notEqual, ⟨3, 3⟩)
  | .symbol "|" => some (.bitOr, ⟨4, 4⟩)
  | .symbol "~" => some (.bitXor, ⟨5, 5⟩)
  | .symbol "&" => some (.bitAnd, ⟨6, 6⟩)
  | .symbol "<<" => some (.shiftLeft, ⟨7, 7⟩)
  | .symbol ">>" => some (.shiftRight, ⟨7, 7⟩)
  | .symbol ".." => some (.concat, ⟨9, 8⟩)
  | .symbol "+" => some (.add, ⟨10, 10⟩)
  | .symbol "-" => some (.sub, ⟨10, 10⟩)
  | .symbol "*" => some (.mul, ⟨11, 11⟩)
  | .symbol "/" => some (.div, ⟨11, 11⟩)
  | .symbol "//" => some (.floorDiv, ⟨11, 11⟩)
  | .symbol "%" => some (.mod, ⟨11, 11⟩)
  | .symbol "^" => some (.pow, ⟨14, 13⟩)
  | _ => none

/-! ## Single tokens -/

/-- Takes off a symbol if it comes next, and gives its line. -/
def symbolNext? (s : String) (ts : List Token) : Option (Parsed Nat ts.length) :=
  match ts with
  | ⟨.symbol s', line⟩ :: rest => if s' = s then some ⟨line, rest, Nat.lt_succ_self _⟩ else none
  | _ => none

/-- Takes off a keyword if it comes next, and gives its line. -/
def keywordNext? (w : String) (ts : List Token) : Option (Parsed Nat ts.length) :=
  match ts with
  | ⟨.keyword w', line⟩ :: rest => if w' = w then some ⟨line, rest, Nat.lt_succ_self _⟩ else none
  | _ => none

/-- Reads a symbol. -/
def expectSymbol (s : String) (ts : List Token) : Parse Nat ts.length :=
  match symbolNext? s ts with
  | some p => .ok p
  | none => unexpected ts

/-- Reads a keyword. -/
def expectKeyword (w : String) (ts : List Token) : Parse Nat ts.length :=
  match keywordNext? w ts with
  | some p => .ok p
  | none => unexpected ts

/-- Reads a name. -/
def expectName (ts : List Token) : Parse String ts.length :=
  match ts with
  | ⟨.name id, _⟩ :: rest => .ok ⟨id, rest, Nat.lt_succ_self _⟩
  | ts => unexpected ts

/-- Whether a block ends here. -/
def endsBlock : List Token → Bool
  | [] => true
  | ⟨.keyword w, _⟩ :: _ => w = "end" || w = "else" || w = "elseif" || w = "until"
  | _ => false

/-- Whether the arguments of a call start here. -/
def startsArguments : List Token → Bool
  | ⟨.symbol s, _⟩ :: _ => s = "(" || s = "\x7b"
  | ⟨.string _, _⟩ :: _ => true
  | _ => false

/-! ## Names -/

/-- A name without a line of its own. -/
def plainName (id : String) : Tree := .name id none 0

/-- Reads names separated by commas. -/
def names (ts : List Token) : Parse (List Tree) ts.length :=
  match ts with
  | ⟨.name id, _⟩ :: ⟨.symbol ",", _⟩ :: rest => do
    let ⟨more, r, h⟩ ← names rest
    return ⟨plainName id :: more, r, Nat.lt_succ_of_lt (Nat.lt_succ_of_lt h)⟩
  | ⟨.name id, _⟩ :: rest => .ok ⟨[plainName id], rest, Nat.lt_succ_self _⟩
  | ts => unexpected ts

/-- Reads the names of a local declaration, each with an optional attribute in angle brackets. -/
def declaredNames (ts : List Token) : Parse (List Tree) ts.length :=
  match ts with
  | ⟨.name id, _⟩ :: ⟨.symbol "<", _⟩ :: ⟨.name attrib, _⟩ :: ⟨.symbol ">", _⟩ ::
      ⟨.symbol ",", _⟩ :: rest => do
    let ⟨more, r, h⟩ ← declaredNames rest
    return ⟨.name id (some (.construct .attrib [plainName attrib] 0)) 0 :: more, r,
      Nat.lt_add_right 5 h⟩
  | ⟨.name id, _⟩ :: ⟨.symbol "<", _⟩ :: ⟨.name attrib, _⟩ :: ⟨.symbol ">", _⟩ :: rest =>
    .ok ⟨[.name id (some (.construct .attrib [plainName attrib] 0)) 0], rest,
      Nat.lt_add_right 3 (Nat.lt_succ_self _)⟩
  | ⟨.name id, _⟩ :: ⟨.symbol ",", _⟩ :: rest => do
    let ⟨more, r, h⟩ ← declaredNames rest
    return ⟨plainName id :: more, r, Nat.lt_succ_of_lt (Nat.lt_succ_of_lt h)⟩
  | ⟨.name id, _⟩ :: rest => .ok ⟨[plainName id], rest, Nat.lt_succ_self _⟩
  | ts => unexpected ts

/-- Reads one or more parameters and the closing parenthesis. -/
def someParameters (ts : List Token) : Parse (List Tree) ts.length :=
  match ts with
  | ⟨.symbol "...", _⟩ :: ⟨.symbol ")", _⟩ :: rest =>
    .ok ⟨[.construct .varargs [] 0], rest, Nat.lt_succ_of_lt (Nat.lt_succ_self _)⟩
  | ⟨.name id, _⟩ :: ⟨.symbol ")", _⟩ :: rest =>
    .ok ⟨[plainName id], rest, Nat.lt_succ_of_lt (Nat.lt_succ_self _)⟩
  | ⟨.name id, _⟩ :: ⟨.symbol ",", _⟩ :: rest => do
    let ⟨more, r, h⟩ ← someParameters rest
    return ⟨plainName id :: more, r, Nat.lt_succ_of_lt (Nat.lt_succ_of_lt h)⟩
  | ts => unexpected ts

/-- Reads the parameters of a function in parentheses. -/
def parameters (ts : List Token) : Parse (List Tree) ts.length :=
  match ts with
  | ⟨.symbol "(", _⟩ :: ⟨.symbol ")", _⟩ :: rest =>
    .ok ⟨[], rest, Nat.lt_succ_of_lt (Nat.lt_succ_self _)⟩
  | ⟨.symbol "(", _⟩ :: rest => do
    let ⟨params, r, h⟩ ← someParameters rest
    return ⟨params, r, Nat.lt_succ_of_lt h⟩
  | ts => unexpected ts

/-- Reads the dotted names that follow a name. -/
def dottedNames (sofar : Tree) (ts : List Token) : Parsed Tree (ts.length + 1) :=
  match ts with
  | ⟨.symbol ".", _⟩ :: ⟨.name id, _⟩ :: rest =>
    let ⟨tree, r, h⟩ := dottedNames (.index sofar (plainName id) true 0) rest
    ⟨tree, r, Nat.lt_succ_of_lt (Nat.lt_succ_of_lt h)⟩
  | ts => ⟨sofar, ts, Nat.lt_succ_self _⟩

end ValueTrace.Lua
