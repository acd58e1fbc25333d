import ValueTrace.Decimal.Integer
import ValueTrace.Decimal.Text
import ValueTrace.Text.Quoted
import ValueTrace.Ty.Descriptor
import ValueTrace.Value.Basic

/-!
# Values as text

Two texts of a value. `Value.shown` is the one of a report: the payload, the descriptor and the
line. `Value.debugText` writes out every field, and every field of every element.
-/

namespace ValueTrace

/-- Why a value has no text. -/
inductive TextError where
  /-- Its type has no descriptor. -/
  | shape (error : ShapeError)
  /-- An integer in it, or a line, has too many digits. -/
  | longInteger
  deriving DecidableEq

/-- The text of a type. -/
def typeText (t : Ty) : Except TextError String := t.descriptor.mapError .shape

/-- The text of an integer. -/
def integerText (n : Int) : Except TextError String :=
  match Decimal.integerText? n with
  | some s => .ok s
  | none => .error .longInteger

/-! ## The text in a report -/

mutual
/-- The text of a payload: a missing one is a question mark, an array lists its elements. -/
def Payload.shown : Payload → Except TextError String
  | .missing => .ok "?"
  | .int n => integerText n
  | .float x => .ok (Decimal.text x)
  | .text s => .ok (Text.quoted s)
  | .array vs => do
    return "[" ++ ", ".intercalate (← Payload.shownElements vs) ++ "]"
/-- The texts of the payloads of a list of elements. -/
def Payload.shownElements : List Value → Except TextError (List String)
  | [] => .ok []
  | ⟨_, p, _, _⟩ :: vs => do
    let first ← p.shown
    let rest ← Payload.shownElements vs
    return first :: rest
end

/-- The text of a value: payload, type and line. -/
def Value.shown (v : Value) : Except TextError String := do
  let payload ← v.payload.shown
  let type ← typeText v.type
  let line ← integerText v.line
  return payload ++ ": " ++ type ++ " @" ++ line

/-! ## The text with all fields -/

/-- Lists parts in parentheses, where a single part is followed by a comma. -/
def parenthesized : List String → String
  | [] => "()"
  | [part] => "(" ++ part ++ ",)"
  | parts => "(" ++ ", ".intercalate parts ++ ")"

mutual
/-- The text of a payload with all fields of its elements. -/
def Payload.debugText : Payload → Except TextError String
  | .missing => .ok "None"
  | .int n => integerText n
  | .float x => .ok (Decimal.text x)
  | .text s => .ok (Text.quoted s)
  | .array vs => do
    return parenthesized (← Value.debugTexts vs)
/-- The text of a value with all its fields. -/
def Value.debugText : Value → Except TextError String
  | ⟨name, payload, type, line⟩ => do
    let payloadText ← payload.debugText
    let typeText ← typeText type
    let lineText ← integerText line
    return "Value(name=" ++ Text.quoted name ++ ", value=" ++ payloadText ++ ", type=" ++
      Text.quoted typeText ++ ", line=" ++ lineText ++ ")"
/-- The texts of a list of values with all their fields. -/
def Value.debugTexts : List Value → Except TextError (List String)
  | [] => .ok []
  | v :: vs => do
    let first ← v.debugText
    let rest ← Value.debugTexts vs
    return first :: rest
end

end ValueTrace
