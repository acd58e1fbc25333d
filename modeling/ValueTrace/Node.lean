/-!
# Programs

The tree of a program, as far as the analysis tells constructs apart. Every node has the line it
stands on. Constructs without a rule of their own are kept under their name with their parts.
-/

namespace ValueTrace

mutual
/-- A node of a program. -/
inductive Node where
  /-- A use of a variable. -/
  | variable (name : String) (line : Int)
  /-- An identifier that names a function. -/
  | name (identifier : String) (line : Int)
  | int (value : Int) (line : Int)
  | float (value : Float) (line : Int)
  | text (value : String) (line : Int)
  /-- An array literal. -/
  | array (items : List Item) (line : Int)
  /-- An item that stands by itself. -/
  | item (item : Item)
  /-- A call, as an expression or as a statement. -/
  | call (callee : Node) (args : List Argument) (line : Int)
  /-- An argument that stands by itself. -/
  | argument (arg : Argument)
  /-- Any other expression. -/
  | operation (name : String) (operands : List Node) (line : Int)
  | assign (target value : Node) (line : Int)
  /-- The declaration of a named function. -/
  | function (name : String) (params : List Param) (body : List Node) (line : Int)
  /-- A parameter that stands by itself. -/
  | param (param : Param)
  /-- Any other statement. -/
  | statement (name : String) (operands : List Node) (line : Int)

/-- An item of an array literal; one without a key is positional. -/
structure Item where
  value : Node
  key : Option Node
  line : Int

/-- An argument of a call; one without a name is positional. -/
structure Argument where
  value : Node
  name : Option String
  line : Int

/-- A parameter of a declared function. -/
structure Param where
  name : String
  default : Option Node
  declaredType : Option String
  variadic : Bool
  line : Int
end

namespace Node

instance : Inhabited Node := ⟨.name "" 0⟩

/-- The line that a node stands on. -/
def line : Node → Int
  | .variable _ line | .name _ line | .int _ line | .float _ line | .text _ line
  | .array _ line | .call _ _ line | .operation _ _ line | .assign _ _ line
  | .function _ _ _ line | .statement _ _ line => line
  | .item i => i.line
  | .argument a => a.line
  | .param p => p.line

/-- The name of the construct. -/
def kind : Node → String
  | .variable _ _ => "Variable"
  | .name _ _ => "Name"
  | .int _ _ => "IntLiteral"
  | .float _ _ => "FloatLiteral"
  | .text _ _ => "StringLiteral"
  | .array _ _ => "ArrayLiteral"
  | .item _ => "ArrayItem"
  | .call _ _ _ => "Call"
  | .argument _ => "Argument"
  | .operation construct _ _ => construct
  | .assign _ _ _ => "Assign"
  | .function _ _ _ _ => "FunctionDecl"
  | .param _ => "Param"
  | .statement construct _ _ => construct

/-- The parts of a node, from left to right. -/
def children : Node → List Node
  | .variable _ _ | .name _ _ | .int _ _ | .float _ _ | .text _ _ => []
  | .array items _ => items.map .item
  | .item i => i.key.toList ++ [i.value]
  | .call callee args _ => callee :: args.map .argument
  | .argument a => [a.value]
  | .operation _ operands _ => operands
  | .assign target value _ => [target, value]
  | .function _ params body _ => params.map .param ++ body
  | .param p => p.default.toList
  | .statement _ operands _ => operands

/-- The function that a callee names, unless it has to be computed. -/
def staticName? : Node → Option String
  | .name identifier _ => some identifier
  | _ => none

end Node

end ValueTrace
