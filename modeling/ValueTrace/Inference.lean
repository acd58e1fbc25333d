import ValueTrace.Node
import ValueTrace.Value.Basic

/-!
# Inferred values

`Node.infer` reads off an expression the most definite value it can. Literals stand for themselves
and array literals for their items. A variable has the value last written to it. Everything else
is settled through its parts: one part with a content passes it on, several leave it open which of
their types it has.
-/

namespace ValueTrace

/-- What an expression sees of the scope that it stands in. -/
structure Sight where
  /-- The value last written to a variable. -/
  latest? : String → Option Value
  /-- The value of a parameter. -/
  parameter? : String → Option Value

/-- The value of a construct with the given parts. -/
def Value.settle (name : String) (line : Int) (parts : List Value) : Value :=
  match parts.filter Value.resolved with
  | [] => .unresolved name .unknown line
  | [v] => v
  | vs => .unresolved name (.union (vs.map Value.type)) line

/-- The value of an array literal, given the key type and the value of each item. -/
def Value.ofItems (name : String) (line : Int) (items : List (Ty × Value)) : Value :=
  { name
    payload := .array (items.map Prod.snd)
    type := .ofArray (Ty.mergeAll (items.map Prod.fst))
      (Ty.mergeAll (items.map fun item => item.2.type))
    line }

mutual
/-- The value of an expression, to be known under the given name. A variable that was never
written falls back on the parameter of that name. Of a call only the callee is looked at. -/
def Node.infer (sight : Sight) (name : String) : Node → Value
  | .variable x line =>
    match sight.latest? x with
    | some v => v
    | none => (sight.parameter? name).getD (.settle name line [])
  | .name _ line => .settle name line []
  | .int n line => ⟨name, .int n, .int, line⟩
  | .float x line => ⟨name, .float x, .float, line⟩
  | .text s line => ⟨name, .text s, .string, line⟩
  | .array items line => .ofItems name line (Node.inferItems sight 0 items)
  | .item ⟨value, key, line⟩ =>
    .settle name line (Node.inferOption sight name key ++ [value.infer sight name])
  | .call callee _ line => .settle name line [callee.infer sight name]
  | .argument ⟨value, _, line⟩ => .settle name line [value.infer sight name]
  | .operation _ operands line => .settle name line (Node.inferAll sight name operands)
  | .assign target value line =>
    .settle name line [target.infer sight name, value.infer sight name]
  | .function _ params body line =>
    .settle name line (Node.inferParams sight name params ++ Node.inferAll sight name body)
  | .param p => Node.inferParam sight name p
  | .statement _ operands line => .settle name line (Node.inferAll sight name operands)
/-- The values of a list of expressions. -/
def Node.inferAll (sight : Sight) (name : String) : List Node → List Value
  | [] => []
  | n :: ns => n.infer sight name :: Node.inferAll sight name ns
/-- The value of an expression that may be absent. -/
def Node.inferOption (sight : Sight) (name : String) : Option Node → List Value
  | none => []
  | some n => [n.infer sight name]
/-- The value of a parameter that stands by itself. -/
def Node.inferParam (sight : Sight) (name : String) : Param → Value
  | ⟨_, default, _, _, line⟩ => .settle name line (Node.inferOption sight name default)
/-- The values of a list of parameters. -/
def Node.inferParams (sight : Sight) (name : String) : List Param → List Value
  | [] => []
  | p :: ps => Node.inferParam sight name p :: Node.inferParams sight name ps
/-- The key type and the value of each item of an array literal, which are named after the place
of the item, counted from `i`. -/
def Node.inferItems (sight : Sight) (i : Nat) : List Item → List (Ty × Value)
  | [] => []
  | ⟨value, key, _⟩ :: items =>
    let keyType := match Node.inferOption sight ("key_" ++ toString i) key with
      | k :: _ => k.type
      | [] => .int
    (keyType, value.infer sight ("value_" ++ toString i)) :: Node.inferItems sight (i + 1) items
end

end ValueTrace
