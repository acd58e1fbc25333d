import ValueTrace.Ty.Descriptor
import ValueTrace.Value.Basic

/-!
# Value records

A record is a value with its type expressions written out as descriptors, ready for export.
-/

namespace ValueTrace

mutual
/-- The content of a value record. -/
inductive PayloadRecord where
  | missing
  | int (n : Int)
  | float (x : Float)
  | text (s : String)
  | array (elements : List ValueRecord)

/-- A value whose type is given by its descriptor. -/
structure ValueRecord where
  name : String
  payload : PayloadRecord
  type : String
  line : Int
end

mutual
/-- The record of a payload. -/
def Payload.record : Payload → Except ShapeError PayloadRecord
  | .missing => .ok .missing
  | .int n => .ok (.int n)
  | .float x => .ok (.float x)
  | .text s => .ok (.text s)
  | .array vs => do
    return .array (← Value.records vs)
/-- The record of a value. -/
def Value.record : Value → Except ShapeError ValueRecord
  | ⟨name, payload, type, line⟩ => do
    let payload ← payload.record
    let type ← type.descriptor
    return ⟨name, payload, type, line⟩
/-- The records of a list of values. -/
def Value.records : List Value → Except ShapeError (List ValueRecord)
  | [] => .ok []
  | v :: vs => do
    let first ← v.record
    let rest ← Value.records vs
    return first :: rest
end

end ValueTrace
