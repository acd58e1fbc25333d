import ValueTrace.Proofs.DroppedWrites

/-!
# What an analysis notes

Each statement adds certain notes to the log and nothing else (`Step.diagnostics_eq`): a call of a
function without a name is noted as skipped, a call of a named function with its arguments that have
no value, and an assignment with its write if that is dropped. Which arguments have no value, and
which writes are dropped, depends on the state in which the statement is met. A whole run adds the
notes of all statements in order (`diagnostics_run`), and every assignment has either written or
left a note (`countP_assigns`). However a log is used, its warnings are the messages of its notes
about arguments.
-/

namespace ValueTrace

namespace Diagnostics

variable {d : Diagnostics}

/-! ## Use of a log -/

/-- What can be done with a log. -/
inductive Operation where
  | noteUnresolved (r : UnresolvedArgument)
  | noteSkipped (r : SkippedStatement)
  | noteDiscarded (r : DiscardedWrite)
  | clear
  | setVerbose (verbose : Bool)

/-- The log after one operation. -/
def perform (d : Diagnostics) : Operation → Diagnostics
  | .noteUnresolved r => d.noteUnresolved r
  | .noteSkipped r => d.noteSkipped r
  | .noteDiscarded r => d.noteDiscarded r
  | .clear => d.clear
  | .setVerbose verbose => { d with verbose }

/-- The log after operations that are performed in order. -/
def performAll (d : Diagnostics) (ops : List Operation) : Diagnostics := ops.foldl perform d

/-- The warnings are the messages of the notes about arguments. -/
def Synchronous (d : Diagnostics) : Prop := d.warnings = d.unresolved.map UnresolvedArgument.message

theorem Synchronous.perform (h : d.Synchronous) (op : Operation) : (d.perform op).Synchronous := by
  cases op with
  | noteUnresolved r =>
    unfold Synchronous at h
    simp only [Synchronous, Diagnostics.perform, Diagnostics.noteUnresolved, h, List.map_append,
      List.map_cons, List.map_nil]
  | clear => rfl
  | noteSkipped | noteDiscarded | setVerbose => exact h

theorem Synchronous.performAll (h : d.Synchronous) (ops : List Operation) :
    (d.performAll ops).Synchronous := by
  induction ops generalizing d with
  | nil => exact h
  | cons op ops ih => exact ih (h.perform op)

/-! ## Several notes at once -/

/-- The log with further notes of each sort. -/
def extend (d : Diagnostics) (arguments : List UnresolvedArgument)
    (statements : List SkippedStatement) (writes : List DiscardedWrite) : Diagnostics :=
  { d with
    unresolved := d.unresolved ++ arguments
    skipped := d.skipped ++ statements
    discarded := d.discarded ++ writes
    warnings := d.warnings ++ arguments.map UnresolvedArgument.message }

@[simp] theorem extend_nil (d : Diagnostics) : d.extend [] [] [] = d := by
  simp [extend]

theorem extend_extend (d : Diagnostics) (us us' : List UnresolvedArgument)
    (ss ss' : List SkippedStatement) (ws ws' : List DiscardedWrite) :
    (d.extend us ss ws).extend us' ss' ws' = d.extend (us ++ us') (ss ++ ss') (ws ++ ws') := by
  simp [extend]

theorem noteUnresolved_eq (d : Diagnostics) (r : UnresolvedArgument) :
    d.noteUnresolved r = d.extend [r] [] [] := by
  simp [noteUnresolved, extend]

theorem noteSkipped_eq (d : Diagnostics) (r : SkippedStatement) :
    d.noteSkipped r = d.extend [] [r] [] := by
  simp [noteSkipped, extend]

end Diagnostics

/-! ## The notes of one statement -/

/-- Whether a statement is an assignment. -/
def Node.assigns : Node → Bool
  | .assign _ _ _ => true
  | _ => false

/-- The note about a call of a function that is not named. -/
def Node.skipped? : Node → Option SkippedStatement
  | .call callee _ line =>
    match callee.staticName? with
    | some _ => none
    | none => some ⟨callee.kind, .dynamicCall, line⟩
  | _ => none

namespace Analysis

variable {a b : Analysis} {n : Node} {ns : List Node}

/-- The notes about the arguments of a call of a named function that have no value when the call is
met, in the order of the arguments. -/
def unresolvedArguments (m : Analysis × Node) : List UnresolvedArgument :=
  match m.2 with
  | .call (.name function _) args line =>
    let callee := (m.1.function? function).map m.1.graph.scope
    args.zipIdx.filterMap fun e =>
      let x := boundName callee e.2 e.1
      if (e.1.value.infer m.1.sight x).resolved then none else some ⟨function, x, line⟩
  | _ => []

/-- Whether a statement is an assignment that writes. -/
def writes (m : Analysis × Node) : Bool :=
  (m.1.offer? m.2).any fun v => (m.1.graph.write global v).2

theorem boundArguments_eq_map (sight : Sight) (callee : Option Scope) (place : Nat)
    (args : List Argument) :
    boundArguments sight callee place args = (args.zipIdx place).map fun e =>
      (boundName callee e.2 e.1, e.1.value.infer sight (boundName callee e.2 e.1)) := by
  induction args generalizing place with
  | nil => rfl
  | cons arg args ih =>
    rw [boundArguments, ih]
    rfl

theorem noteArguments_eq (function : String) (line : Int) (bound : List (String × Value))
    (d : Diagnostics) :
    noteArguments function line bound d =
      d.extend (bound.filterMap fun e =>
        if e.2.resolved then none else some ⟨function, e.1, line⟩) [] [] := by
  induction bound generalizing d with
  | nil => exact d.extend_nil.symm
  | cons e bound ih =>
    obtain ⟨x, v⟩ := e
    have hcons : noteArguments function line ((x, v) :: bound) d =
        noteArguments function line bound
          (if v.resolved then d else d.noteUnresolved ⟨function, x, line⟩) := rfl
    rw [hcons, ih, List.filterMap_cons]
    rcases v.resolved with _ | _
    · exact (congrArg (Diagnostics.extend · _ [] []) (d.noteUnresolved_eq _)).trans
        (d.extend_extend _ _ _ _ _ _)
    · rfl

theorem diagnostics_call (a : Analysis) (function : String) (nameLine : Int) (args : List Argument)
    (line : Int) :
    (a.call function args line).diagnostics = a.diagnostics.extend
      (unresolvedArguments (a, .call (.name function nameLine) args line)) [] [] := by
  have hnoted : (a.call function args line).diagnostics = noteArguments function line
      (boundArguments a.sight ((a.function? function).map a.graph.scope) 0 args)
      a.diagnostics := rfl
  rw [hnoted, noteArguments_eq, boundArguments_eq_map, List.filterMap_map]
  rfl

theorem diagnostics_assign (a : Analysis) (x : String) (nameLine : Int) (value : Node)
    (line : Int) :
    (a.assign x value).diagnostics = a.diagnostics.extend [] []
      (drop? (a, .assign (.variable x nameLine) value line)).toList := by
  have hdiscarded := (Step.assign (a := a) x nameLine value line).discarded_eq
  rcases hacc : (a.graph.scope global).accepts ((value.infer a.sight x).rename x) with _ | _
  · simp only [assign, ScopeGraph.write_eq_of_not_accepts hacc, Diagnostics.noteDiscarded]
      at hdiscarded ⊢
    simp [Diagnostics.extend, hdiscarded]
  · simp only [assign, ScopeGraph.write_eq_of_accepts hacc] at hdiscarded ⊢
    rw [List.self_eq_append_right.1 hdiscarded, Diagnostics.extend_nil]

/-- A statement adds its own notes to the log and nothing else. -/
theorem Step.diagnostics_eq (hs : Step a n b) :
    b.diagnostics = a.diagnostics.extend (unresolvedArguments (a, n)) n.skipped?.toList
      (drop? (a, n)).toList := by
  cases hs with
  | assign x nameLine value line => exact diagnostics_assign a x nameLine value line
  | call function nameLine args line => exact diagnostics_call a function nameLine args line
  | declare function params body line => exact a.diagnostics.extend_nil.symm
  | @dynamic callee args line hcallee =>
    have hskipped : (Node.call callee args line).skipped? =
        some ⟨callee.kind, .dynamicCall, line⟩ := by
      rw [Node.skipped?, hcallee]
    have harguments : unresolvedArguments (a, .call callee args line) = [] := by
      cases callee with
      | name => cases hcallee
      | _ => rfl
    rw [hskipped, harguments, Diagnostics.noteSkipped_eq]
    rfl
  | inert hn =>
    cases n with
    | assign | call | function => cases hn
    | _ => exact a.diagnostics.extend_nil.symm

/-- An assignment that is taken either writes or leaves a note. -/
theorem Step.countP_assigns (hs : Step a n b) :
    [n].countP Node.assigns = [(a, n)].countP writes + ([(a, n)].filterMap drop?).length := by
  cases hs with
  | assign x nameLine value line =>
    rcases hkept : (a.graph.write global ((value.infer a.sight x).rename x)).2 with _ | _
    · obtain ⟨-, w, hw, -⟩ := ScopeGraph.latest?_of_dropped hkept
      have hlatest : a.latest? x = some w := hw
      simp [Node.assigns, writes, drop?, offer?, hkept, hlatest]
    · simp [Node.assigns, writes, drop?, offer?, hkept]
  | call | declare | dynamic => rfl
  | inert hn =>
    cases n with
    | assign => cases hn
    | _ => rfl

/-! ## The notes of a run -/

theorem Step.met_cons (hs : Step a n b) (ns : List Node) :
    a.met (n :: ns) = (a, n) :: b.met ns := by
  rw [met, hs.eq_ok]

/-- A run without an error comes to all statements, to each in the state after those before it. -/
theorem met_eq (h : a.run ns = (b, none)) :
    a.met ns = ns.zipIdx.map fun e => ((a.run (ns.take e.2)).1, e.1) := by
  induction ns generalizing a with
  | nil => rfl
  | cons n ns ih =>
    obtain ⟨a', hs, hrest⟩ := step_of_run_cons h
    have htake (i : Nat) : (a.run ((n :: ns).take (i + 1))).1 = (a'.run (ns.take i)).1 := by
      rw [List.take_succ_cons, run, hs.eq_ok]
    rw [hs.met_cons, ih hrest, List.zipIdx_cons', List.map_cons, List.map_map]
    exact congrArg _ (List.map_congr_left fun e _ => congrArg (·, e.1) (htake e.2).symm)

/-- A run adds the notes of all statements to the log, in order, and nothing else. -/
theorem diagnostics_run (h : a.run ns = (b, none)) :
    b.diagnostics = a.diagnostics.extend ((a.met ns).flatMap unresolvedArguments)
      (ns.filterMap Node.skipped?) ((a.met ns).filterMap drop?) := by
  induction ns generalizing a with
  | nil =>
    cases h
    exact (Diagnostics.extend_nil _).symm
  | cons n ns ih =>
    obtain ⟨a', hs, hrest⟩ := step_of_run_cons h
    rw [ih hrest, hs.diagnostics_eq, Diagnostics.extend_extend, hs.met_cons, List.flatMap_cons,
      List.filterMap_cons, List.filterMap_cons]
    cases n.skipped? <;> cases drop? (a, n) <;> rfl

/-- There are as many assignments as writes and notes about dropped ones. -/
theorem countP_assigns (h : a.run ns = (b, none)) :
    ns.countP Node.assigns = (a.met ns).countP writes + ((a.met ns).filterMap drop?).length := by
  induction ns generalizing a with
  | nil => rfl
  | cons n ns ih =>
    obtain ⟨a', hs, hrest⟩ := step_of_run_cons h
    have hone := hs.countP_assigns
    rw [hs.met_cons, ← List.singleton_append, ← List.singleton_append (l := a'.met ns),
      List.countP_append, List.countP_append, List.filterMap_append, List.length_append, ih hrest]
    omega

/-- A run without an error that starts with an empty log. It comes to all statements in order, to
each in the state after those before it. The log then has one note for each call of a function that
is not named, one for each argument without a value of the other calls, and one for each assignment
whose write was dropped, with the messages about arguments as warnings, and nothing else. Every
other assignment has written. And in any use of a log, the warnings are the messages of the notes
about arguments, and the statistics are the lengths of the four lists. -/
theorem notes_account_for_statements {verbose : Bool} (hlog : a.diagnostics = { verbose })
    (h : a.run ns = (b, none)) (ops : List Diagnostics.Operation) :
    let met := a.met ns
    let log := Diagnostics.performAll { verbose } ops
    met = (ns.zipIdx.map fun e => ((a.run (ns.take e.2)).1, e.1)) ∧
    b.diagnostics =
      { verbose
        skipped := ns.filterMap Node.skipped?
        unresolved := met.flatMap unresolvedArguments
        discarded := met.filterMap drop?
        warnings := (met.flatMap unresolvedArguments).map UnresolvedArgument.message } ∧
    ns.countP Node.assigns = met.countP writes + b.diagnostics.discarded.length ∧
    log.warnings = log.unresolved.map UnresolvedArgument.message ∧
    log.statistics =
      ⟨log.unresolved.length, log.skipped.length, log.discarded.length, log.warnings.length⟩ := by
  intro met log
  have hnotes := diagnostics_run h
  rw [hlog] at hnotes
  have hsynchronous : ({ verbose } : Diagnostics).Synchronous := rfl
  refine ⟨met_eq h, hnotes, ?_, hsynchronous.performAll ops, rfl⟩
  rw [hnotes]
  exact countP_assigns h

/-- A dynamic call, a call with two arguments under one name that have no value, and an assignment
whose write is dropped. A second log gets a note before it is cleared and one after that. -/
theorem notes_account_for_statements_of_program :
    let ns : List Node := [.assign (.variable "x" 1) (.int 1 1) 1,
      .call (.variable "x" 2) [] 2,
      .call (.name "f" 3) [⟨.variable "y" 3, some "p", 3⟩, ⟨.variable "x" 3, none, 3⟩,
        ⟨.call (.name "g" 3) [] 3, some "p", 3⟩] 3,
      .assign (.variable "x" 4) (.variable "y" 4) 4]
    let b := ((start true).run ns).1
    let log := Diagnostics.performAll { verbose := true }
      [.noteUnresolved ⟨"f", "p", 1⟩, .clear, .noteUnresolved ⟨"f", "q", 2⟩]
    b.diagnostics.skipped = [⟨"Variable", .dynamicCall, 2⟩] ∧
      b.diagnostics.unresolved = [⟨"f", "p", 3⟩, ⟨"f", "p", 3⟩] ∧
      b.diagnostics.discarded = [⟨"x", 1, 4⟩] ∧ ns.countP Node.assigns = 1 + 1 ∧
      log.warnings = ["No value found for parameter 'q' of function 'f' at line 2"] := by
  intro ns b log
  have hlog : (start true).diagnostics = { verbose := true } := rfl
  have h : (start true).run ns = (b, none) := by with_unfolding_all rfl
  obtain ⟨-, hnotes, hcount, hwarnings, -⟩ := notes_account_for_statements hlog h
    [.noteUnresolved ⟨"f", "p", 1⟩, .clear, .noteUnresolved ⟨"f", "q", 2⟩]
  refine ⟨?_, ?_, ?_, hcount.trans ?_, hwarnings.trans ?_⟩
  · rw [hnotes]
    with_unfolding_all rfl
  · rw [hnotes]
    with_unfolding_all rfl
  · rw [hnotes]
    with_unfolding_all rfl
  · with_unfolding_all rfl
  · with_unfolding_all rfl

end Analysis

end ValueTrace
