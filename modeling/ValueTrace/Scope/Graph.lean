import ValueTrace.Inference
import ValueTrace.Scope.Basic

/-!
# Graphs of scopes

Scopes are shared: a function's scope is reached from where it is declared, and the same scope may
be declared in several places. A graph holds all scopes by identifier, in the order in which they
were made, so that the scope around another always has the smaller identifier.
-/

namespace ValueTrace

/-- All scopes, by identifier. -/
structure ScopeGraph where
  scopes : List Scope := []

namespace ScopeGraph

/-- The scope with an identifier. -/
def scope (g : ScopeGraph) (id : ScopeId) : Scope := (g.scopes[id]?).getD default

/-- Changes one scope. -/
def modify (g : ScopeGraph) (id : ScopeId) (f : Scope → Scope) : ScopeGraph :=
  ⟨g.scopes.modify id f⟩

/-- Adds a scope under a new identifier. -/
def add (g : ScopeGraph) (s : Scope) : ScopeGraph × ScopeId := (⟨g.scopes ++ [s]⟩, g.scopes.length)

/-- Makes an empty scope. -/
def create (g : ScopeGraph) (name : String) (outer : Option ScopeId) : ScopeGraph × ScopeId :=
  g.add { name, outer }

/-! ## Looking up -/

/-- The values written to a variable, oldest first, in the nearest scope that has any. -/
def history (g : ScopeGraph) (id : ScopeId) (x : String) : List Value :=
  match (g.scope id).histories.get? x with
  | some h => h.values
  | none =>
    match (g.scope id).outer with
    | none => []
    | some o => if o < id then history g o x else []
termination_by id

/-- The value last written to a variable. -/
def latest? (g : ScopeGraph) (id : ScopeId) (x : String) : Option Value :=
  (g.history id x).getLast?

/-- How many scopes stand around a scope. -/
def depth (g : ScopeGraph) (id : ScopeId) : Nat :=
  match (g.scope id).outer with
  | none => 0
  | some o => if o < id then depth g o + 1 else 0
termination_by id

/-- What an expression sees that stands in a scope. -/
def sight (g : ScopeGraph) (id : ScopeId) : Sight where
  latest? := g.latest? id
  parameter? := (g.scope id).parameters.get?

/-! ## Changing -/

/-- Writes to a variable, and says whether the write was kept. -/
def write (g : ScopeGraph) (id : ScopeId) (v : Value) : ScopeGraph × Bool :=
  if (g.scope id).accepts v then (g.modify id (·.write v), true) else (g, false)

/-- Gives a parameter a value. -/
def bind (g : ScopeGraph) (id : ScopeId) (v : Value) : ScopeGraph := g.modify id (·.bind v)

/-- Declares a function in a scope, under the name of the function's scope. -/
def declare (g : ScopeGraph) (id child : ScopeId) : ScopeGraph :=
  g.modify id fun s => { s with functions := s.functions.insert (g.scope child).name child }

/-- Makes a scope for one call of a function. -/
def instantiate (g : ScopeGraph) (id : ScopeId) : ScopeGraph × ScopeId :=
  g.add (g.scope id).instantiate

/-- The scope of a function, which is declared without parameters if it is not known yet. -/
def callee (g : ScopeGraph) (id : ScopeId) (function : String) : ScopeGraph × ScopeId :=
  match (g.scope id).functions.get? function with
  | some f => (g, f)
  | none =>
    let (g, f) := g.create function (some id)
    (g.declare id f, f)

/-- Records what the parameters of a function are in one call. The call is filed under the given
line, or else under the line of the first argument's value; a call without arguments is not filed.
-/
def recordCall (g : ScopeGraph) (id : ScopeId) (function : String) (arguments : List Value)
    (line : Option Int) : ScopeGraph × Option ScopeId :=
  match arguments with
  | [] => (g, none)
  | first :: _ =>
    let (g, f) := g.callee id function
    let (g, call) := g.instantiate f
    let g := g.modify f fun s => { s with calls := s.calls.insert (line.getD first.line) call }
    (arguments.foldl (fun g v => g.bind call v) g, some call)

end ScopeGraph

end ValueTrace
