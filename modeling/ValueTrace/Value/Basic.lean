import ValueTrace.Ty.Basic

/-!
# Values

A value is what is known about one name at one line of a program: a payload, or none where the
program does not determine it, and a type expression.
-/

namespace ValueTrace

mutual
/-- The content of a value. -/
inductive Payload where
  /-- The program does not determine the content. -/
  | missing
  | int (n : Int)
  | float (x : Float)
  | text (s : String)
  | array (elements : List Value)

/-- What is known about a variable, a parameter or an expression. -/
structure Value where
  /-- The variable or parameter, or a name given to the place of an item. -/
  name : String
  payload : Payload
  type : Ty
  /-- The line that the value comes from. -/
  line : Int
end

instance : Inhabited Payload := ⟨.missing⟩

/-- Whether there is a content. -/
def Payload.present : Payload → Bool
  | .missing => false
  | _ => true

namespace Value

instance : Inhabited Value := ⟨⟨"", .missing, .unknown, 0⟩⟩

/-- Whether the content is determined. -/
def resolved (v : Value) : Bool := v.payload.present

/-- The same value under another name. -/
def rename (v : Value) (name : String) : Value := { v with name }

/-- A value of which only a type is known. -/
def unresolved (name : String) (type : Ty) (line : Int) : Value := ⟨name, .missing, type, line⟩

@[simp] theorem name_rename (v : Value) (n : String) : (v.rename n).name = n := rfl

@[simp] theorem payload_rename (v : Value) (n : String) : (v.rename n).payload = v.payload := rfl

@[simp] theorem type_rename (v : Value) (n : String) : (v.rename n).type = v.type := rfl

@[simp] theorem line_rename (v : Value) (n : String) : (v.rename n).line = v.line := rfl

@[simp] theorem resolved_rename (v : Value) (n : String) : (v.rename n).resolved = v.resolved :=
  rfl

end Value

end ValueTrace
