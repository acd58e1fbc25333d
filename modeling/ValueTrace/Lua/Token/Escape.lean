import ValueTrace.Text.Blank
import ValueTrace.Text.Digit

/-!
# Escapes in Lua strings

What may follow a backslash in a quoted string, and the bytes it stands for. Numbers are code
points, and those beyond Unicode are written by the same scheme in up to six bytes.
-/

namespace ValueTrace.Lua

/-- A code point without its last groups of six bits. -/
def dropGroups (code groups : Nat) : Nat := code / Nat.pow 64 groups

/-- A byte that continues a character: six bits of a code point, counted from the right. -/
def continuationByte (code group : Nat) : UInt8 := (0x80 + dropGroups code group % 64).toUInt8

/-- The bytes of a code point below `2 ^ 31`. -/
def codeBytes (code : Nat) : List UInt8 :=
  let long (lead groups : Nat) : List UInt8 :=
    (lead + dropGroups code groups).toUInt8 ::
      (List.range groups).reverse.map (continuationByte code)
  if code < 0x80 then [code.toUInt8]
  else if code < 0x800 then long 0xc0 1
  else if code < 0x10000 then long 0xe0 2
  else if code < 0x200000 then long 0xf0 3
  else if code < 0x4000000 then long 0xf8 4
  else long 0xfc 5

def isHexDigit (c : Char) : Bool :=
  c.isDigit || ('a' ≤ c && c ≤ 'f') || ('A' ≤ c && c ≤ 'F')

/-- The value of a hexadecimal digit. -/
def hexValue (c : Char) : Nat :=
  if c.isDigit then c.toNat - '0'.toNat
  else if 'a' ≤ c then c.toNat - 'a'.toNat + 10
  else c.toNat - 'A'.toNat + 10

/-- The number that a list of hexadecimal digits spells. -/
def ofHexDigits (cs : List Char) : Nat := cs.foldl (fun n c => n * 16 + hexValue c) 0

/-- The blanks that `\z` skips, which are those of ASCII. -/
def isSkipped (c : Char) : Bool := Text.isBlank c && c.toNat < 0x80

/-- The greatest code point that an escape may give. -/
def maxCode : Nat := 0x7fffffff

/-- What an escape stands for, the line breaks in it, and what follows it. An escape by a number has
no bytes if its digits have no value. -/
structure Escaped (n : Nat) where
  bytes : Option (List UInt8)
  breaks : Nat
  rest : List Char
  le : rest.length ≤ n

/-- The bytes of a string followed by those of an escape, if both are known. -/
def Escaped.appendTo {n : Nat} (e : Escaped n) (bytes : Option ByteArray) : Option ByteArray :=
  bytes.bind fun before => e.bytes.map fun more => before ++ ⟨more.toArray⟩

/-- The escapes by one letter or sign. Three signs stand for nothing. -/
def simpleEscape? (c : Char) : Option (List UInt8) :=
  match c with
  | 'a' => some [0x07]
  | 'b' => some [0x08]
  | 't' => some [0x09]
  | 'n' => some [0x0a]
  | 'v' => some [0x0b]
  | 'f' => some [0x0c]
  | 'r' => some [0x0d]
  | '\\' => some [0x5c]
  | '\x22' => some [0x22]
  | '\x27' => some [0x27]
  | '|' | '$' | '#' => some []
  | _ => none

/-- Reads a code point in braces, of at most eight digits. -/
def bracedCode? (cs : List Char) : Option (Escaped cs.length) :=
  match h : cs.dropWhile isHexDigit with
  | '\x7d' :: rest =>
    let digits := cs.takeWhile isHexDigit
    let code := ofHexDigits digits
    if digits.isEmpty ∨ 8 < digits.length ∨ maxCode < code then none
    else some ⟨some (codeBytes code), 0, rest, by
      have hle := Text.length_dropWhile_le isHexDigit cs
      rw [h] at hle
      simp only [List.length_cons] at hle
      omega⟩
  | _ => none

/-- Reads up to three digits, the first of which is given. Signs for digits are taken too, but only
decimal digits have a value. -/
def decimalCode (first : Char) (cs : List Char) : Escaped cs.length :=
  let more := (cs.take 2).takeWhile fun c => Text.isDigit c || Text.isDigitSign c
  ⟨(Text.digitsValue? (first :: more)).map codeBytes, 0, cs.drop more.length, by simp⟩

/-- Reads the rest of an escape, after the backslash. -/
def escape? (cs : List Char) : Option (Escaped cs.length) :=
  match cs with
  | '\n' :: rest => some ⟨some [], 1, rest, by simp⟩
  | '\r' :: '\n' :: rest => some ⟨some [0x0a], 1, rest, by simp only [List.length_cons]; omega⟩
  | 'z' :: rest =>
    let blanks := rest.takeWhile isSkipped
    some ⟨some [], blanks.count '\n', rest.dropWhile isSkipped, by
      have := Text.length_dropWhile_le isSkipped rest
      simp only [List.length_cons]
      omega⟩
  | 'x' :: a :: b :: rest =>
    if isHexDigit a && isHexDigit b then
      some ⟨some (codeBytes (ofHexDigits [a, b])), 0, rest, by simp only [List.length_cons]; omega⟩
    else none
  | 'u' :: '\x7b' :: rest =>
    (bracedCode? rest).map fun e =>
      ⟨e.bytes, e.breaks, e.rest, by have := e.le; simp only [List.length_cons]; omega⟩
  | c :: rest =>
    if c.isDigit then
      let e := decimalCode c rest
      some ⟨e.bytes, e.breaks, e.rest, by have := e.le; simp only [List.length_cons]; omega⟩
    else (simpleEscape? c).map fun bytes => ⟨some bytes, 0, rest, by simp⟩
  | [] => none

end ValueTrace.Lua
