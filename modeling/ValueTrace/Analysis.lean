import ValueTrace.Diagnostics
import ValueTrace.Scope.Report
import ValueTrace.Ty.Descriptor

/-!
# Analyses

An analysis goes once over the top-level statements of a program. An assignment writes the inferred
value of its right side in the global scope, a declaration makes a scope with the parameters, and a
call of a named function records what the parameters are there. Bodies of functions, branches and
loops are not entered. The analysis stops only at an assignment to something other than a variable.
-/

namespace ValueTrace

/-- An assignment to something other than a variable. -/
structure UnsupportedTarget where
  target : Node
  line : Int

/-- The message of the error. Its line is one of a source text, as in a diagnostic message. -/
def UnsupportedTarget.message (e : UnsupportedTarget) : String :=
  "Unsupported assignment target " ++ e.target.kind ++ " at line " ++ toString e.line

/-- The state of an analysis. -/
structure Analysis where
  graph : ScopeGraph
  diagnostics : Diagnostics

namespace Analysis

/-- The scope of the program as a whole. -/
def global : ScopeId := 0

/-- The array of request input, which every program finds filled in. -/
def requestInput : Value := ⟨"_GET", .array [], .array, 0⟩

/-- An analysis that has seen no statement. -/
def start (verbose : Bool) : Analysis where
  graph := ((ScopeGraph.create {} "global" none).1.write global requestInput).1
  diagnostics := { verbose }

/-- What a top-level expression sees. -/
def sight (a : Analysis) : Sight := a.graph.sight global

/-- The value last written to a global variable. -/
def latest? (a : Analysis) (x : String) : Option Value := a.graph.latest? global x

/-- The scope of a declared or called function. -/
def function? (a : Analysis) (name : String) : Option ScopeId :=
  (a.graph.scope global).functions.get? name

/-- The tree of all scopes. -/
def tree? (a : Analysis) : Option (ScopeTree Value) := a.graph.tree? global

/-! ## Changes from outside -/

/-- Gives a parameter of the program as a whole a value. -/
def bind (a : Analysis) (v : Value) : Analysis := { a with graph := a.graph.bind global v }

/-- Forgets the notes made so far. -/
def clearNotes (a : Analysis) : Analysis := { a with diagnostics := a.diagnostics.clear }

/-! ## Assignments -/

/-- Writes the value of an expression to a variable, or notes that the write was dropped. -/
def assign (a : Analysis) (x : String) (value : Node) : Analysis :=
  let v := value.infer a.sight x
  match a.graph.write global (v.rename x) with
  | (graph, true) => { a with graph }
  | (_, false) =>
    let kept := (a.latest? x).elim 0 Value.line
    { a with diagnostics := a.diagnostics.noteDiscarded ⟨x, kept, v.line⟩ }

/-! ## Calls -/

/-- The name that an argument is bound to: its own, else the one of the parameter at its place,
else one made from the place. -/
def boundName (callee : Option Scope) (i : Nat) (arg : Argument) : String :=
  match arg.name with
  | some name => name
  | none =>
    match callee.bind (·.parameterAt? i) with
    | some p => p.name
    | none => "#" ++ toString i

/-- The bound name and the value of each argument of a call, counting places from `i`. -/
def boundArguments (sight : Sight) (callee : Option Scope) (i : Nat) :
    List Argument → List (String × Value)
  | [] => []
  | arg :: args =>
    let name := boundName callee i arg
    (name, arg.value.infer sight name) :: boundArguments sight callee (i + 1) args

/-- The values that a call binds; of arguments with one name the last one counts, in the place of
the first. -/
def boundTable (bound : List (String × Value)) : Table String Value :=
  bound.foldl (fun t (name, v) => t.insert name (v.rename name)) ∅

/-- Notes the arguments without a value. -/
def noteArguments (function : String) (line : Int) (bound : List (String × Value))
    (d : Diagnostics) : Diagnostics :=
  bound.foldl
    (fun d (name, v) => if v.resolved then d else d.noteUnresolved ⟨function, name, line⟩) d

/-- Records a call of a named function. -/
def call (a : Analysis) (function : String) (args : List Argument) (line : Int) : Analysis :=
  let callee := (a.function? function).map a.graph.scope
  let bound := boundArguments a.sight callee 0 args
  { graph := (a.graph.recordCall global function (boundTable bound).values none).1
    diagnostics := noteArguments function line bound a.diagnostics }

/-! ## Declarations -/

/-- The value of a declared parameter: its default, or no content and the declared type. -/
def parameter (sight : Sight) (p : Param) : Value :=
  match p.default with
  | none => .unresolved p.name (.ofDeclared p.declaredType) p.line
  | some default =>
    let v := default.infer sight p.name
    ⟨p.name, v.payload, v.type, p.line⟩

/-- Declares a function, in place of an earlier one of that name. -/
def declare (a : Analysis) (function : String) (params : List Param) : Analysis :=
  let (graph, f) := a.graph.create function (some global)
  let graph := graph.declare global f
  { a with graph := params.foldl (fun g p => g.bind f (parameter a.sight p)) graph }

/-! ## Runs -/

/-- Analyses one top-level statement. -/
def step (a : Analysis) : Node → Except UnsupportedTarget Analysis
  | .assign (.variable x _) value _ => .ok (a.assign x value)
  | .assign target _ line => .error ⟨target, line⟩
  | .call callee args line =>
    match callee.staticName? with
    | some function => .ok (a.call function args line)
    | none =>
      .ok { a with diagnostics := a.diagnostics.noteSkipped ⟨callee.kind, .dynamicCall, line⟩ }
  | .function name params _ _ => .ok (a.declare name params)
  | _ => .ok a

/-- Analyses statements in order, up to the first that stops the analysis. The state is the one
before that statement. -/
def run (a : Analysis) : List Node → Analysis × Option UnsupportedTarget
  | [] => (a, none)
  | n :: ns =>
    match a.step n with
    | .ok a' => run a' ns
    | .error e => (a, some e)

end Analysis

end ValueTrace
