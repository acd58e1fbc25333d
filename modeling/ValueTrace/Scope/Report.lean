import ValueTrace.Scope.Tree
import ValueTrace.Value.Text

/-!
# Reports

The text of a tree of scopes: one line for each scope, for each group of entries and for each entry,
indented by depth.
-/

namespace ValueTrace.ScopeTree

/-- Indentation to a given depth. -/
def pad (indent : String) (depth : Nat) : String := String.join (List.replicate depth indent)

/-- The line of an entry. -/
def entryLine (indent : String) (depth : Nat) (name : String) (v : Value) :
    Except TextError String := do
  let text ← v.shown
  return pad indent depth ++ name ++ " = " ++ text

/-- The lines of a list of entries. -/
def entryLines (indent : String) (depth : Nat) :
    List (String × Value) → Except TextError (List String)
  | [] => .ok []
  | (name, v) :: rest => do
    let first ← entryLine indent depth name v
    let rest ← entryLines indent depth rest
    return first :: rest

/-- The line over a group of entries, which is left out with an empty group. -/
def heading {α : Type} (indent : String) (depth : Nat) (text : String) : List α → List String
  | [] => []
  | _ :: _ => [pad indent depth ++ text]

mutual
/-- The lines of a scope and of everything below it. -/
def lines (indent : String) (depth : Nat) (title : String) :
    ScopeTree Value → Except TextError (List String)
  | mk _ histories parameters functions calls => do
    let writes := histories.flatMap fun (x, vs) => vs.map fun v => (x, v)
    let writeLines ← entryLines indent (depth + 2) writes
    let parameterLines ← entryLines indent (depth + 2) parameters
    let functionLines ← functionLines indent (depth + 1) functions
    let callLines ← callLines indent (depth + 1) calls
    return (pad indent depth ++ title) ::
      (heading indent (depth + 1) "variables:" histories ++ writeLines ++
        heading indent (depth + 1) "parameters:" parameters ++ parameterLines ++
        functionLines ++ callLines)
/-- The lines of the functions of a scope. -/
def functionLines (indent : String) (depth : Nat) :
    List (String × ScopeTree Value) → Except TextError (List String)
  | [] => .ok []
  | (name, tree) :: rest => do
    let first ← lines indent depth ("function " ++ name) tree
    let rest ← functionLines indent depth rest
    return first ++ rest
/-- The lines of the calls of a scope. -/
def callLines (indent : String) (depth : Nat) :
    List (Int × ScopeTree Value) → Except TextError (List String)
  | [] => .ok []
  | (line, tree) :: rest => do
    let place ← integerText line
    let first ← lines indent depth ("specialized at line " ++ place) tree
    let rest ← callLines indent depth rest
    return first ++ rest
end

def name {α : Type} : ScopeTree α → String
  | mk name _ _ _ _ => name

/-- The report on a scope and everything below it. -/
def report (indent : String) (tree : ScopeTree Value) : Except TextError String := do
  return "\n".intercalate (← tree.lines indent 0 ("scope " ++ tree.name))

/-- The indentation of a report, unless another is asked for. -/
def defaultIndent : String := "  "

end ValueTrace.ScopeTree
