import ValueTrace.Scope.Graph
import ValueTrace.Value.Record

/-!
# Trees of scopes

What is below a scope in a graph, written out as a tree whose entries are values. A tree is `dump`ed
by writing out the types in it.
-/

namespace ValueTrace

/-- A scope with everything below it; `α` is the type of the entries. -/
inductive ScopeTree (α : Type) where
  | mk (name : String) (histories : List (String × List α)) (parameters : List (String × α))
      (functions : List (String × ScopeTree α)) (calls : List (Int × ScopeTree α))

namespace ScopeGraph

/-- The tree below a scope, to a given number of levels. -/
def unfold (g : ScopeGraph) : Nat → ScopeId → Option (ScopeTree Value)
  | 0, _ => none
  | levels + 1, id => do
    let s := g.scope id
    let functions ← s.functions.entries.mapM fun (name, f) => do
      return (name, ← unfold g levels f)
    let calls ← s.calls.entries.mapM fun (line, call) => do
      return (line, ← unfold g levels call)
    return .mk s.name (s.histories.entries.map fun (x, h) => (x, h.values)) s.parameters.entries
      functions calls

/-- The tree below a scope, if it is finite: then no path in it is longer than there are scopes. -/
def tree? (g : ScopeGraph) (id : ScopeId) : Option (ScopeTree Value) :=
  g.unfold g.scopes.length id

end ScopeGraph

namespace ScopeTree

/-- The records of the histories of variables. -/
def dumpHistories : List (String × List Value) →
    Except ShapeError (List (String × List ValueRecord))
  | [] => .ok []
  | (x, vs) :: rest => do
    let first ← Value.records vs
    let rest ← dumpHistories rest
    return (x, first) :: rest

/-- The records of parameters. -/
def dumpParameters : List (String × Value) → Except ShapeError (List (String × ValueRecord))
  | [] => .ok []
  | (x, v) :: rest => do
    let first ← v.record
    let rest ← dumpParameters rest
    return (x, first) :: rest

mutual
/-- The tree with all types written out. -/
def dump : ScopeTree Value → Except ShapeError (ScopeTree ValueRecord)
  | mk name histories parameters functions calls => do
    let histories ← dumpHistories histories
    let parameters ← dumpParameters parameters
    let functions ← dumpFunctions functions
    let calls ← dumpCalls calls
    return mk name histories parameters functions calls
/-- The dumps of the functions of a scope. -/
def dumpFunctions : List (String × ScopeTree Value) →
    Except ShapeError (List (String × ScopeTree ValueRecord))
  | [] => .ok []
  | (name, tree) :: rest => do
    let first ← dump tree
    let rest ← dumpFunctions rest
    return (name, first) :: rest
/-- The dumps of the calls of a scope. -/
def dumpCalls : List (Int × ScopeTree Value) →
    Except ShapeError (List (Int × ScopeTree ValueRecord))
  | [] => .ok []
  | (line, tree) :: rest => do
    let first ← dump tree
    let rest ← dumpCalls rest
    return (line, first) :: rest
end

end ScopeTree

end ValueTrace
