import ValueTrace.Lua.Program
import ValueTrace.Proofs.MultipleAssignment

/-!
# Where an analysis stops

A run stops at the first assignment to something other than a variable (`snd_run`), and nothing of
that statement has been done by then. For a Lua program this can be read off its tree: it is the
first assignment with a target that is not a plain name (`exists_unsupported_lowerStatements`). The
main result puts this together. It also says that no other statement stops an analysis, whatever
expressions are in it.
-/

namespace ValueTrace

/-- The error of a statement that assigns to something other than a variable. -/
def Node.unsupported? : Node → Option UnsupportedTarget
  | .assign (.variable _ _) _ _ => none
  | .assign target _ line => some ⟨target, line⟩
  | _ => none

namespace Node

theorem unsupported?_assign (target value : Node) (line : Int) :
    (Node.assign target value line).unsupported? =
      if target.variableName? = none then some ⟨target, line⟩ else none := by
  cases target <;> rfl

theorem unsupported?_of_ne_assign {n : Node}
    (h : ∀ target value line, n ≠ .assign target value line) : n.unsupported? = none := by
  cases n with
  | assign target value line => exact absurd rfl (h target value line)
  | _ => rfl

theorem unsupported?_eq_some_iff {n : Node} {e : UnsupportedTarget} :
    n.unsupported? = some e ↔
      ∃ value, n = .assign e.target value e.line ∧ e.target.variableName? = none := by
  refine ⟨fun h => ?_, ?_⟩
  · cases n with
    | assign target value line =>
      rw [unsupported?_assign] at h
      split_ifs at h with htarget
      cases h
      exact ⟨value, rfl, htarget⟩
    | _ => cases h
  · rintro ⟨value, rfl, htarget⟩
    rw [unsupported?_assign, if_pos htarget]

end Node

namespace Analysis

variable {a : Analysis} {n : Node} {ns : List Node} {e : UnsupportedTarget}

/-! ## Runs and their ends -/

theorem step_eq_error_iff : a.step n = .error e ↔ n.unsupported? = some e := by
  cases n with
  | assign target value line =>
    cases target with
    | «variable» x nameLine => exact iff_of_false nofun nofun
    | _ => exact ⟨fun h => congrArg some (Except.error.inj h),
        fun h => congrArg Except.error (Option.some.inj h)⟩
  | call callee args line => cases callee <;> exact iff_of_false nofun nofun
  | _ => exact iff_of_false nofun nofun

/-- A run ends with the error of the first statement that has one. -/
theorem snd_run (a : Analysis) (ns : List Node) :
    (a.run ns).2 = ns.findSome? Node.unsupported? := by
  induction ns generalizing a with
  | nil => rfl
  | cons n ns ih =>
    rw [run, List.findSome?_cons]
    rcases hs : a.step n with e | a'
    · rw [step_eq_error_iff.1 hs]
    · have hn : n.unsupported? = none := by
        rw [Option.eq_none_iff_forall_ne_some]
        intro e he
        rw [step_eq_error_iff.2 he] at hs
        cases hs
      rw [hn]
      exact ih a'

/-- What comes after statements that are all taken starts from the state after these. -/
theorem run_append (h : (a.run ns).2 = none) (ms : List Node) :
    a.run (ns ++ ms) = (a.run ns).1.run ms := by
  induction ns generalizing a with
  | nil => rfl
  | cons n ns ih =>
    rw [List.cons_append, run, run]
    rw [run] at h
    rcases hs : a.step n with e | a'
    · rw [hs] at h
      cases h
    · rw [hs] at h
      exact ih h

/-- A run that stops leaves the state of the statements before the one it stops at. -/
theorem run_of_snd_eq_some (h : (a.run ns).2 = some e) :
    ∃ before value after, ns = before ++ .assign e.target value e.line :: after ∧
      e.target.variableName? = none ∧ (∀ n ∈ before, n.unsupported? = none) ∧
      a.run before = ((a.run ns).1, none) := by
  rw [snd_run] at h
  obtain ⟨before, n, after, rfl, hn, hbefore⟩ := List.findSome?_eq_some_iff.1 h
  obtain ⟨value, rfl, htarget⟩ := Node.unsupported?_eq_some_iff.1 hn
  have hend : (a.run before).2 = none := by
    rw [snd_run]
    exact List.findSome?_eq_none_iff.2 hbefore
  refine ⟨before, value, after, rfl, htarget, hbefore, ?_⟩
  rw [run_append hend, run, step_eq_error_iff.2 hn]
  exact Prod.ext rfl hend

end Analysis

namespace Lua

/-! ## Lua programs -/

variable {line : Int}

/-- Whether a statement assigns to something other than a name. -/
def Tree.assignsElsewhere : Tree → Bool
  | .assign _ targets _ _ => targets.any fun t => t.plainName?.isNone
  | _ => false

theorem unsupported?_asStatement (n : Node) : (asStatement n).unsupported? = n.unsupported? := by
  cases n <;> rfl

theorem exists_unsupported_assignEach (line : Int) (ts vs : List Node) :
    (∃ n ∈ assignEach line ts vs, n.unsupported? ≠ none) ↔ ∃ t ∈ ts, t.variableName? = none := by
  induction ts generalizing vs with
  | nil => exact iff_of_false (by rintro ⟨_, ⟨⟩, _⟩) (by rintro ⟨_, ⟨⟩, _⟩)
  | cons t ts ih => cases vs <;> simp [assignEach, Node.unsupported?_assign, ih]

/-- A statement gives rise to one that stops the analysis exactly if it is an assignment to
something other than a name. -/
theorem exists_unsupported_lower {t : Tree} {ns : List Node} (h : t.lower line = .ok ns) :
    (∃ n ∈ ns.map asStatement, n.unsupported? ≠ none) ↔ t.assignsElsewhere = true := by
  have hmap : (∃ n ∈ ns.map asStatement, n.unsupported? ≠ none) ↔
      ∃ n ∈ ns, n.unsupported? ≠ none := by
    simp [unsupported?_asStatement]
  rw [hmap]
  rcases Tree.lower_cases h with ⟨isLocal, targets, values, own, ts, vs, rfl, hts, -, rfl⟩ |
    ⟨ht, n, rfl, -, hn⟩
  · -- The targets that are not variables are those that are not names.
    have hnames := map_variableName?_lowerFirst hts
    have hnone : none ∈ ts.map Node.variableName? ↔ none ∈ targets.map Tree.plainName? := by
      rw [hnames]
    rw [exists_unsupported_assignEach, Tree.assignsElsewhere, List.any_eq_true]
    simpa [List.mem_map] using hnone
  · have hfalse : t.assignsElsewhere = false := by
      cases t with
      | assign isLocal targets values own => exact absurd rfl (ht isLocal targets values own)
      | _ => rfl
    rw [hfalse]
    refine iff_of_false ?_ Bool.false_ne_true
    rintro ⟨m, hm, hstop⟩
    rw [List.mem_singleton.1 hm] at hstop
    exact hstop (Node.unsupported?_of_ne_assign hn)

theorem exists_unsupported_lowerStatements {trees : List Tree} {nodes : List Node}
    (h : lowerStatements line trees = .ok nodes) :
    (∃ n ∈ nodes, n.unsupported? ≠ none) ↔ ∃ t ∈ trees, t.assignsElsewhere = true := by
  induction trees generalizing line nodes with
  | nil =>
    cases h
    exact iff_of_false (by rintro ⟨_, ⟨⟩, _⟩) (by rintro ⟨_, ⟨⟩, _⟩)
  | cons t trees ih =>
    rcases hc : t.isComment with _ | _
    · obtain ⟨lowered, rest, hlowered, hrest, rfl⟩ := lowerStatements_cons hc h
      have hfirst := exists_unsupported_lower hlowered
      simp only [List.mem_append, or_and_right, exists_or, hfirst, ih hrest, List.mem_cons,
        exists_eq_left]
    · have ht : t.assignsElsewhere = false := by
        cases t with
        | comment => rfl
        | _ => cases hc
      rw [lowerStatements_of_comment hc] at h
      simp [ih h, ht]

end Lua

namespace Analysis

/-- When and how a run stops, from any state. It stops exactly if there is an assignment to
something other than a variable. The error names the target and the line of the first one, the state
is the one after the statements before it, and it goes on from there as if the statement had not
come. For a Lua program it stops exactly if there is an assignment with a target that is not a plain
name. A single statement of any other form is taken, and where a write is dropped, there is a value
that it is dropped for. -/
theorem run_stops_at_first (a : Analysis) (ns : List Node) :
    ((∃ e, (a.run ns).2 = some e) ↔
      ∃ target value line, .assign target value line ∈ ns ∧ target.variableName? = none) ∧
    (∀ e, (a.run ns).2 = some e →
      ∃ before value after, ns = before ++ .assign e.target value e.line :: after ∧
        e.target.variableName? = none ∧
        (∀ target value line, .assign target value line ∈ before → target.variableName? ≠ none) ∧
        a.run before = ((a.run ns).1, none) ∧
        ∀ ms, (a.run ns).1.run ms = a.run (before ++ ms)) ∧
    (∀ trees, Lua.lowerProgram trees = .ok ns →
      ((∃ e, (a.run ns).2 = some e) ↔ ∃ isLocal targets values line,
        .assign isLocal targets values line ∈ trees ∧ ∃ t ∈ targets, t.plainName? = none)) ∧
    (∀ n e, a.step n = .error e ↔
      ∃ value, n = .assign e.target value e.line ∧ e.target.variableName? = none) ∧
    ∀ v, (a.graph.write global v).2 = false → ∃ w, a.latest? v.name = some w := by
  have hstops : (∃ e, (a.run ns).2 = some e) ↔ ∃ n ∈ ns, n.unsupported? ≠ none := by
    rw [← Option.isSome_iff_exists, snd_run, List.findSome?_isSome_iff]
    simp [Option.isSome_iff_ne_none]
  refine ⟨?_, fun e he => ?_, fun trees htrees => ?_, fun n e => ?_, fun v hv => ?_⟩
  · rw [hstops]
    constructor
    · rintro ⟨n, hn, hstop⟩
      obtain ⟨e, he⟩ := Option.ne_none_iff_exists'.1 hstop
      obtain ⟨value, rfl, htarget⟩ := Node.unsupported?_eq_some_iff.1 he
      exact ⟨e.target, value, e.line, hn, htarget⟩
    · rintro ⟨target, value, line, hmem, htarget⟩
      refine ⟨_, hmem, ?_⟩
      rw [Node.unsupported?_assign, if_pos htarget]
      exact Option.some_ne_none _
  · obtain ⟨before, value, after, hns, htarget, hbefore, hrun⟩ := run_of_snd_eq_some he
    refine ⟨before, value, after, hns, htarget, fun target value line hmem hnone => ?_, hrun, ?_⟩
    · have := hbefore _ hmem
      rw [Node.unsupported?_assign, if_pos hnone] at this
      cases this
    · intro ms
      rw [run_append (by rw [hrun]), hrun]
  · rw [hstops, Lua.exists_unsupported_lowerStatements htrees]
    constructor
    · rintro ⟨t, ht, helsewhere⟩
      cases t with
      | assign isLocal targets values line =>
        refine ⟨isLocal, targets, values, line, ht, ?_⟩
        simpa [Lua.Tree.assignsElsewhere] using helsewhere
      | _ => cases helsewhere
    · rintro ⟨isLocal, targets, values, line, ht, helsewhere⟩
      exact ⟨_, ht, by simpa [Lua.Tree.assignsElsewhere] using helsewhere⟩
  · rw [step_eq_error_iff, Node.unsupported?_eq_some_iff]
  · obtain ⟨-, w, hw, -⟩ := ScopeGraph.latest?_of_dropped hv
    exact ⟨w, hw⟩

/-- The program `x = 1`, `y, t.k = 2, x` and `local z = 3` stops at the second target of its second
line. The analysis then has `x` and `y`, and can go on. -/
theorem run_stops_at_first_of_program :
    let trees : List Lua.Tree :=
      [.assign false [.name "x" none 0] [.number (.int 1) 1] 1,
       .assign false [.name "y" none 0, .index (.name "t" none 0) (.name "k" none 0) true 2]
         [.number (.int 2) 2, .name "x" none 2] 2,
       .assign true [.name "z" none 0] [.number (.int 3) 3] 3]
    let target : Node := .operation "Index" [.variable "t" 2, .name "k" 2] 2
    let ns : List Node :=
      [.assign (.variable "x" 1) (.int 1 1) 1, .assign (.variable "y" 2) (.int 2 2) 2,
       .assign target (.variable "x" 2) 2, .assign (.variable "z" 3) (.int 3 3) 3]
    let a := ((start false).run ns).1
    Lua.lowerProgram trees = .ok ns ∧ ((start false).run ns).2 = some ⟨target, 2⟩ ∧
      (∃ isLocal targets values line, .assign isLocal targets values line ∈ trees ∧
        ∃ t ∈ targets, t.plainName? = none) ∧
      (∃ before value after, ns = before ++ .assign target value 2 :: after ∧
        (start false).run before = (a, none) ∧
        a.run [.assign (.variable "z" 3) (.int 3 3) 3] =
          (start false).run (before ++ [.assign (.variable "z" 3) (.int 3 3) 3])) ∧
      ∃ w, a.latest? "x" = some w := by
  intro trees target ns a
  have htrees : Lua.lowerProgram trees = .ok ns := by with_unfolding_all rfl
  have hstop : ((start false).run ns).2 = some ⟨target, 2⟩ := by with_unfolding_all rfl
  obtain ⟨-, hfirst, hlua, -⟩ := run_stops_at_first (start false) ns
  obtain ⟨-, -, -, -, hdropped⟩ := run_stops_at_first a ns
  obtain ⟨before, value, after, hns, -, -, hrun, hon⟩ := hfirst _ hstop
  exact ⟨htrees, hstop, (hlua trees htrees).1 ⟨_, hstop⟩, ⟨before, value, after, hns, hrun, hon _⟩,
    hdropped (.unresolved "x" .unknown 5) (by with_unfolding_all rfl)⟩

end Analysis

end ValueTrace
