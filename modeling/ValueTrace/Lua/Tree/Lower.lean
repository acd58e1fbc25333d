import ValueTrace.Lua.Error
import ValueTrace.Lua.Tree.Line
import ValueTrace.Node

/-!
# Lua programs as programs to analyse

`Tree.lower` gives the nodes of a Lua tree. Names are variables, tables are array literals, an
assignment is one node for each target, a call has a named callee only if that is a plain name, and
a function statement with a plain name is a declaration. Function expressions are opaque. All else
is kept by name. Only strings that are not UTF-8 make it fail, with the bytes of the first of them
that it comes to.

Every function takes the line that holds where the tree stands; a tree with a line of its own
replaces it for itself and its parts.
-/

namespace ValueTrace.Lua

/-- The name of the parameter that takes the remaining arguments. -/
def restParameter : String := "..."

/-- Several nodes where one is expected. -/
def group : List Node → Node
  | [n] => n
  | ns => .operation "Assign" ns 0

/-- An expression in the place of a statement. -/
def asStatement : Node → Node
  | .operation name operands line => .statement name operands line
  | n => n

/-- The parameters of a named function, which stand on the line of the function. -/
def paramsOf (line : Int) (params : List Tree) : List Param :=
  params.filterMap fun
    | .name id _ _ => some ⟨id, none, none, false, line⟩
    | .construct .varargs _ _ => some ⟨restParameter, none, none, true, line⟩
    | _ => none

/-- One assignment for each target. A value is lowered before its target, a target without a value
is assigned nil, and values without a target are not looked at. -/
def assignments (line : Int) :
    (targets values : List (Except Error (List Node))) → Except Error (List Node)
  | [], _ => .ok []
  | t :: ts, [] => do
    let target ← t
    let rest ← assignments line ts []
    return .assign (group target) (.operation Construct.nil.tag [] line) line :: rest
  | t :: ts, v :: vs => do
    let value ← v
    let target ← t
    let rest ← assignments line ts vs
    return .assign (group target) (group value) line :: rest

/-- A name in a place where it is not a variable; any other tree as it is. -/
def identifierOr (line : Int) (ns : List Node) : Tree → Node
  | .name id _ _ => .name id line
  | _ => group ns

/-- The key of a field: a plain name is a text, and a plain number only counts the fields. -/
def fieldKey (bracketed : Bool) (line : Int) (ns : List Node) : Tree → Option Node
  | .name id _ _ => some (if bracketed then group ns else .text id line)
  | .number _ _ => if bracketed then some (group ns) else none
  | _ => some (group ns)

mutual
/-- The nodes of a tree: one, except that an assignment has one for each target. -/
def Tree.lower (outer : Int) : Tree → Except Error (List Node)
  | .name id _ own => .ok [.variable id (lineOr own outer)]
  | .number (.int n) own => .ok [.int n (lineOr own outer)]
  | .number (.float x) own => .ok [.float x (lineOr own outer)]
  | .string bytes own =>
    match String.fromUTF8? bytes with
    | some s => .ok [.text s (lineOr own outer)]
    | none => .error (.encoding bytes)
  | .table fields own => do
    let line := lineOr own outer
    return [.array (← lowerFields line fields) line]
  | .field ⟨none, value, _, own⟩ => do
    let line := lineOr own outer
    return [.operation "Field" (← value.lower line) line]
  | .field ⟨some key, value, _, own⟩ => do
    let line := lineOr own outer
    return [.operation "Field" ((← key.lower line) ++ (← value.lower line)) line]
  | .index value key dotted own => do
    let line := lineOr own outer
    let keyNodes ← key.lower line
    let keyNode := if dotted then identifierOr line keyNodes key else group keyNodes
    return [.operation "Index" [group (← value.lower line), keyNode] line]
  | .call callee args own => do
    let line := lineOr own outer
    let calleeNode := identifierOr line (← callee.lower line) callee
    return [.call calleeNode (← lowerArguments line args) line]
  | .invoke source _ args own => do
    let line := lineOr own outer
    let calleeNode := Node.operation "Invoke" [group (← source.lower line)] line
    return [.call calleeNode (← lowerArguments line args) line]
  | .assign _ targets values own =>
    let line := lineOr own outer
    assignments line (lowerEach line targets) (lowerEach line values)
  | .function isLocal name params ⟨statements, bodyLine⟩ own => do
    let line := lineOr own outer
    match name with
    | .name id _ _ =>
      return [.function id (paramsOf line params) (← lowerStatements line statements) line]
    | _ =>
      let label := if isLocal then "LocalFunction" else "Function"
      let nameNodes ← name.lower line
      let paramNodes ← lowerAll line params
      let body ← lowerAll (lineOr bodyLine line) statements
      let bodyNode := Node.operation "Block" body (lineOr bodyLine line)
      return [.operation label (nameNodes ++ paramNodes ++ [bodyNode]) line]
  | .closure _ _ own => .ok [.operation "AnonymousFunction" [] (lineOr own outer)]
  | .block ⟨statements, own⟩ => do
    let line := lineOr own outer
    return [.operation "Block" (← lowerAll line statements) line]
  | .comment _ own => .ok [.operation "Comment" [] (lineOr own outer)]
  | .construct kind parts own => do
    let line := lineOr own outer
    return [.operation kind.tag (← lowerAll line parts) line]
/-- The nodes of a list of trees, without comments. -/
def lowerAll (line : Int) : List Tree → Except Error (List Node)
  | [] => .ok []
  | t :: ts => do
    let first ← t.lower line
    let rest ← lowerAll line ts
    return if t.isComment then rest else first ++ rest
/-- What comes of each tree in a list, by itself. -/
def lowerEach (line : Int) : List Tree → List (Except Error (List Node))
  | [] => []
  | t :: ts => t.lower line :: lowerEach line ts
/-- The arguments of a call, which stand on the line of the call. -/
def lowerArguments (line : Int) : List Tree → Except Error (List Argument)
  | [] => .ok []
  | t :: ts => do
    let first ← t.lower line
    let rest ← lowerArguments line ts
    return ⟨group first, none, line⟩ :: rest
/-- The items of a table. Keys and values take the line of the table, not of the field. -/
def lowerFields (line : Int) : List Field → Except Error (List Item)
  | [] => .ok []
  | ⟨none, value, _, own⟩ :: fs => do
    let valueNode := group (← value.lower line)
    let rest ← lowerFields line fs
    return ⟨valueNode, none, lineOr own line⟩ :: rest
  | ⟨some key, value, bracketed, own⟩ :: fs => do
    let valueNode := group (← value.lower line)
    let keyNode := fieldKey bracketed (lineOr own line) (← key.lower line) key
    let rest ← lowerFields line fs
    return ⟨valueNode, keyNode, lineOr own line⟩ :: rest
/-- The statements of a block. The line of a statement also holds for those after it that have
none. -/
def lowerStatements (line : Int) : List Tree → Except Error (List Node)
  | [] => .ok []
  | t :: ts => do
    if t.isComment then
      lowerStatements line ts
    else
      let here := lineOr t.firstLine line
      let first ← t.lower here
      let rest ← lowerStatements here ts
      return first.map asStatement ++ rest
end

end ValueTrace.Lua
