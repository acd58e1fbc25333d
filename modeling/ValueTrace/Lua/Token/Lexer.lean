import ValueTrace.Lua.Error
import ValueTrace.Lua.Token.Delimited
import ValueTrace.Lua.Token.Number

/-!
# Reading Lua tokens

`Token.scan` cuts Lua text into tokens. The longest lexeme is taken each time, whatever follows it.
Only line feeds end lines. Blanks and comments are dropped, and so is a first line that starts with
a hash sign and goes on.
-/

namespace ValueTrace.Lua

/-- A lexeme at the start of a text of length `n`, the line breaks in it, and what follows it. -/
structure Scanned (n : Nat) where
  lexeme : Lexeme
  breaks : Nat
  rest : List Char
  shorter : rest.length < n

/-! ## Names and symbols -/

def isNameStart (c : Char) : Bool := c.isAlpha || c = '_'

def isNameChar (c : Char) : Bool := c.isAlphanum || c = '_'

/-- The lexeme of a name, which may be reserved. -/
def wordLexeme (id : String) : Lexeme := if keywords.contains id then .keyword id else .name id

/-- Reads the longest symbol at the start of a text. -/
def symbol? (cs : List Char) : Option (Scanned cs.length) :=
  match symbols.find? fun s => s.toList.isPrefixOf cs with
  | none => none
  | some s =>
    if h : 0 < s.length ∧ cs ≠ [] then
      some ⟨.symbol s, 0, cs.drop s.length, by
        have := List.length_pos_iff.2 h.2
        simp only [List.length_drop]
        omega⟩
    else none

/-! ## Strings -/

/-- Reads a long bracket as a string. -/
def longString? (cs : List Char) : Option (Scanned cs.length) :=
  match ho : longOpening? cs with
  | none => none
  | some (level, content) =>
    match hc : longContent? level content with
    | none => none
    | some (text, rest) =>
      some ⟨.string (some (String.ofList text).toUTF8), text.count '\n', rest,
        Nat.lt_trans (length_longContent_lt hc) (length_longOpening_lt ho)⟩

/-- Reads a quoted string, after its first quote. -/
def quotedString? (quote : Char) (cs : List Char) : Option (Scanned (cs.length + 1)) :=
  match h : quotedRest quote cs (some ByteArray.empty) 0 with
  | none => none
  | some (bytes, breaks, rest) =>
    some ⟨.string bytes, breaks, rest, Nat.lt_succ_of_lt (length_quotedRest_lt h)⟩

/-! ## Tokens -/

/-- Reads one lexeme. -/
def lexeme? (cs : List Char) : Option (Scanned cs.length) :=
  match cs with
  | [] => none
  | c :: rest =>
    if isNameStart c then
      let id := String.ofList (c :: rest.takeWhile isNameChar)
      some ⟨wordLexeme id, 0, rest.dropWhile isNameChar,
        Nat.lt_succ_of_le (Text.length_dropWhile_le _ _)⟩
    else if h : startsNumber (c :: rest) then
      some ⟨(number (c :: rest)).1, 0, (number (c :: rest)).2, length_number_lt h⟩
    else if c = '\x22' ∨ c = '\x27' then quotedString? c rest
    else if (longOpening? (c :: rest)).isSome then longString? (c :: rest)
    else symbol? (c :: rest)

/-! ## What is dropped -/

/-- What follows a comment, after its two dashes, and the line breaks in it. A long bracket that is
not closed is a comment only up to its second bracket. -/
def commentRest (cs : List Char) : Nat × List Char :=
  match longOpening? cs with
  | some (level, content) =>
    match longContent? level content with
    | some (text, rest) => (text.count '\n', rest)
    | none => (0, '[' :: content)
  | none => (0, cs.dropWhile fun c => c ≠ '\n' && c ≠ '\r')

theorem length_commentRest_le (cs : List Char) : (commentRest cs).2.length ≤ cs.length := by
  unfold commentRest
  split
  · next level content ho =>
    have hopen := length_longOpening_lt ho
    split
    · next text rest hc =>
      have hlt := length_longContent_lt hc
      dsimp only
      omega
    · simp only [List.length_cons]
      omega
  · exact Text.length_dropWhile_le _ _

def isLuaBlank (c : Char) : Bool := c = ' ' || c = '\t' || c = '\r' || c = '\x0c' || c = '\n'

/-- Whether a first line goes on with a character. -/
def continuesFirstLine (c : Char) : Bool :=
  c ≠ '\n' && c ≠ '\r' && c ≠ '\u0085' && c ≠ '\u2028' && c ≠ '\u2029'

/-- Drops a first line that starts with a hash sign and goes on. -/
def skipFirstLine : List Char → List Char
  | '#' :: c :: cs =>
    if continuesFirstLine c then cs.dropWhile continuesFirstLine else '#' :: c :: cs
  | cs => cs

/-! ## Texts -/

/-- The tokens of a text that starts on a given line. -/
def scanFrom (line : Nat) (cs : List Char) : Except SyntaxError (List Token) :=
  match cs with
  | [] => .ok []
  | '-' :: '-' :: rest =>
    have := length_commentRest_le rest
    scanFrom (line + (commentRest rest).1) (commentRest rest).2
  | c :: rest =>
    if isLuaBlank c then scanFrom (if c = '\n' then line + 1 else line) rest
    else
      match lexeme? (c :: rest) with
      | none => .error (.lexeme line)
      | some s =>
        have := s.shorter
        do
          let more ← scanFrom (line + s.breaks) s.rest
          return ⟨s.lexeme, line⟩ :: more
termination_by cs.length
decreasing_by
  · simp only [List.length_cons]; omega
  · simp
  · exact this

/-- The tokens of Lua text. -/
def Token.scan (source : String) : Except SyntaxError (List Token) :=
  scanFrom 1 (skipFirstLine source.toList)

end ValueTrace.Lua
