import ValueTrace.Table
import ValueTrace.Text.Quoted
import ValueTrace.Value.Text

/-!
# Scopes

A scope belongs to the whole program or to one function. It holds the history of each variable by
line, the parameters, the functions declared in it, and for each line with a call of its function
what the parameters are there. Scopes refer to one another by identifiers.
-/

namespace ValueTrace

/-- The identity of a scope in a graph of scopes. -/
abbrev ScopeId := Nat

/-- The values written to one variable, by line. -/
abbrev History := Table Int Value

/-- The environment of a program or of a function. -/
structure Scope where
  name : String
  /-- The scope around this one, in which variables are looked up next. -/
  outer : Option ScopeId
  histories : Table String History := ∅
  parameters : Table String Value := ∅
  /-- The functions declared here. -/
  functions : Table String ScopeId := ∅
  /-- One scope for each line with a call of the function. -/
  calls : Table Int ScopeId := ∅

namespace Scope

instance : Inhabited Scope := ⟨{ name := "", outer := none }⟩

/-- The history of a variable in this scope alone. -/
def ownHistory (s : Scope) (x : String) : History := (s.histories.get? x).getD ∅

/-- Whether a write is kept: one without a content does not follow one with a content. -/
def accepts (s : Scope) (v : Value) : Bool :=
  match (s.ownHistory v.name).last? with
  | some last => !last.resolved || v.resolved
  | none => true

/-- Enters a write into the history of its variable, at its line. -/
def write (s : Scope) (v : Value) : Scope :=
  { s with histories := s.histories.insert v.name ((s.ownHistory v.name).insert v.line v) }

/-- Gives a parameter a value. -/
def bind (s : Scope) (v : Value) : Scope :=
  { s with parameters := s.parameters.insert v.name v }

/-- The parameter at a place, counted from zero. -/
def parameterAt? (s : Scope) (i : Int) : Option Value :=
  if i < 0 then none else s.parameters.values[i.toNat]?

/-- A scope for one call: the parameters, and nothing of what the function's scope has gathered. -/
def instantiate (s : Scope) : Scope :=
  { name := s.name, outer := s.outer, parameters := s.parameters }

/-- Texts in brackets, separated by commas. -/
def bracketed (parts : List String) : String := "[" ++ ", ".intercalate parts ++ "]"

/-- The names and lines in a scope on one line. -/
def debugText (s : Scope) : Except TextError String := do
  let names (xs : List String) := bracketed (xs.map Text.quoted)
  let lines ← (s.calls.keys.mergeSort fun a b => a ≤ b).mapM integerText
  return "Scope(name=" ++ Text.quoted s.name ++
    ", variables=" ++ names (s.histories.keys.mergeSort fun a b => a ≤ b) ++
    ", parameters=" ++ names s.parameters.keys ++
    ", nested=" ++ names s.functions.keys ++
    ", specialized=" ++ bracketed lines ++ ")"

end Scope

end ValueTrace
