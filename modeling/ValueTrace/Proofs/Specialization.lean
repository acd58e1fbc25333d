import ValueTrace.Proofs.Session

/-!
# What is known about a function after a run

A declaration of a function forgets all that was known about it, and every later call files the
parameters overlaid with what its arguments bind. So a run leaves a function with the parameters of
its last declaration and with the `replay` of the calls that come after it. Calls before any
declaration are replayed on no parameters at all.
-/

namespace ValueTrace

/-! ## Statements about a function -/

/-- Whether a statement declares a function of the given name. -/
def Node.declares (function : String) : Node → Bool
  | .function declared _ _ _ => declared = function
  | _ => false

/-- The arguments of a statement that calls a function by its name, if it has any. -/
def Node.argumentsOf? (function : String) : Node → Option (List Argument)
  | .call callee (arg :: args) _ =>
    if callee.staticName? = some function then some (arg :: args) else none
  | _ => none

/-- The name that an argument is bound to by a function with the given parameters. -/
def Argument.boundName (arg : Argument) (parameters : Table String Value) (place : Nat) : String :=
  arg.name.getD (parameters.values[place]?.elim ("#" ++ toString place) Value.name)

/-- The names and values that the arguments of a call bind, in order. -/
def Sight.bindings (sight : Sight) (parameters : Table String Value) (args : List Argument) :
    List (String × Value) :=
  args.zipIdx.map fun e =>
    let x := e.1.boundName parameters e.2
    (x, (e.1.value.infer sight x).rename x)

/-- The line that a call is filed under: the one of the value that the first name bound holds. -/
def filingLine : List (String × Value) → Int
  | [] => 0
  | e :: es => (((∅ : Table String Value).insertAll (e :: es)).get? e.1).elim 0 Value.line

/-- Files calls in order, each with the parameters overlaid with what it binds. -/
def replay (parameters : Table String Value) (calls : Table Int (Table String Value))
    (bindings : List (List (String × Value))) : Table Int (Table String Value) :=
  calls.insertAll (bindings.map fun b => (filingLine b, parameters.insertAll b))

theorem replay_append (parameters : Table String Value) (calls : Table Int (Table String Value))
    (bs bs' : List (List (String × Value))) :
    replay parameters calls (bs ++ bs') = replay parameters (replay parameters calls bs) bs' := by
  rw [replay, List.map_append, Table.insertAll_append]
  rfl

/-- What the calls of a function in a list of statements bind, each as seen at the call. -/
def Analysis.bindingsOf (a : Analysis) (function : String) (parameters : Table String Value) :
    List Node → List (List (String × Value))
  | [] => []
  | n :: ns => ((n.argumentsOf? function).map (a.sight.bindings parameters)).toList ++
      (a.visit n).bindingsOf function parameters ns

/-! ## Bindings of one call -/

/-- What a call binds starts with the value under whose line the call is filed. -/
theorem exists_values_insertAll (e : String × Value) (es : List (String × Value)) :
    ∃ v vs, ((∅ : Table String Value).insertAll (e :: es)).values = v :: vs ∧
      v.line = filingLine (e :: es) := by
  obtain ⟨v, l, hentries⟩ :=
    Table.entries_insertAll_cons (t := (∅ : Table String Value).insert e.1 e.2) rfl es
  refine ⟨v, l.map Prod.snd, congrArg (List.map Prod.snd) hentries, ?_⟩
  rw [filingLine, Table.insertAll_cons, Table.get?, hentries, Table.findEntry, if_pos rfl]
  rfl

/-- Overlaying what a call binds is writing its bindings in order. -/
theorem Table.overlay_values_insertAll (t : Table String Value) {es : List (String × Value)}
    (h : ∀ e ∈ es, e.2.name = e.1) :
    t.overlay ((∅ : Table String Value).insertAll es).values = t.insertAll es := by
  have hentries : ((∅ : Table String Value).insertAll es).values.map (fun v => (v.name, v)) =
      ((∅ : Table String Value).insertAll es).entries := by
    rw [values, List.map_map]
    refine (List.map_congr_left fun e he => ?_).trans (List.map_id _)
    rcases mem_entries_insertAll he with he | he
    · exact Prod.ext (h e he) rfl
    · cases he
  rw [overlay, hentries, insertAll_entries_insertAll]

theorem Sight.name_of_mem_bindings {sight : Sight} {parameters : Table String Value}
    {args : List Argument} {e : String × Value} (h : e ∈ sight.bindings parameters args) :
    e.2.name = e.1 := by
  obtain ⟨arg, -, rfl⟩ := List.mem_map.1 h
  rfl

namespace Analysis

variable {a a' b : Analysis} {n : Node} {ns : List Node} {function : String}

theorem boundName_eq (callee : Option Scope) (place : Nat) (arg : Argument) :
    boundName callee place arg =
      arg.boundName ((callee.map Scope.parameters).getD ∅) place := by
  obtain ⟨value, name, line⟩ := arg
  cases name with
  | some name => rfl
  | none =>
    cases callee with
    | none => rfl
    | some s =>
      have hplace : s.parameterAt? place = s.parameters.values[place]? := by
        rw [Scope.parameterAt?, if_neg (by omega), Int.toNat_natCast]
      simp only [boundName, Option.bind_some, hplace, Argument.boundName, Option.map_some,
        Option.getD_some, Option.getD_none]
      cases s.parameters.values[place]? <;> rfl

theorem boundArguments_eq (sight : Sight) (callee : Option Scope) (place : Nat)
    (args : List Argument) :
    (boundArguments sight callee place args).map (fun e => (e.1, e.2.rename e.1)) =
      (args.zipIdx place).map fun e =>
        let x := e.1.boundName ((callee.map Scope.parameters).getD ∅) e.2
        (x, (e.1.value.infer sight x).rename x) := by
  induction args generalizing place with
  | nil => rfl
  | cons arg args ih =>
    rw [boundArguments, List.map_cons, ih, boundName_eq]
    rfl

/-- What the arguments of a call bind, in terms of what was found. -/
theorem boundArguments_bindings (a : Analysis) (function : String) (args : List Argument) :
    (boundArguments a.sight ((a.function? function).map a.graph.scope) 0 args).map
        (fun e => (e.1, e.2.rename e.1)) =
      a.sight.bindings (a.findings.profile function).parameters args := by
  have hparameters : (((a.function? function).map a.graph.scope).map Scope.parameters).getD ∅ =
      (a.findings.profile function).parameters := by
    rw [Findings.profile, findings, ScopeGraph.get?_findings]
    change ((Option.map a.graph.scope (a.function? function)).map Scope.parameters).getD ∅ =
      ((a.function? function).map a.graph.profile |>.getD {}).parameters
    cases a.function? function <;> rfl
  rw [boundArguments_eq, hparameters]
  rfl

theorem boundValues_eq (a : Analysis) (function : String) (args : List Argument) :
    a.boundValues function args = ((∅ : Table String Value).insertAll
      (a.sight.bindings (a.findings.profile function).parameters args)).values := by
  rw [boundValues, boundTable_eq, boundArguments_bindings]

theorem profile_of_function? {f : ScopeId} (h : a.function? function = some f) :
    a.findings.profile function = a.graph.profile f := by
  apply Findings.profile_of_get?
  rw [findings, ScopeGraph.get?_findings]
  exact congrArg (Option.map a.graph.profile) h

/-- A call that was found has a scope with the parameters found. -/
theorem exists_scope_of_call {line : Int} {parameters : Table String Value}
    (h : (a.findings.profile function).calls.get? line = some parameters) :
    ∃ f c, a.function? function = some f ∧ (a.graph.scope f).calls.get? line = some c ∧
      (a.graph.scope c).parameters = parameters := by
  rcases hf : a.function? function with _ | f
  · have hnone : a.findings.functions.get? function = none := by
      rw [findings, ScopeGraph.get?_findings]
      exact congrArg (Option.map a.graph.profile) hf
    rw [Findings.profile, hnone] at h
    cases h
  · rw [profile_of_function? hf, ScopeGraph.profile, Table.get?_mapValues] at h
    obtain ⟨c, hc, rfl⟩ := Option.map_eq_some_iff.1 h
    exact ⟨f, c, rfl, hc, rfl⟩

/-! ## One statement -/

theorem get?_call_self (h : a.graph.Shaped) (function : String) (arg : Argument)
    (args : List Argument) (line : Int) :
    let p := a.findings.profile function
    (a.call function (arg :: args) line).findings.functions.get? function =
      some { p with
        calls := replay p.parameters p.calls [a.sight.bindings p.parameters (arg :: args)] } := by
  intro p
  -- The values bound are a table written from the bindings, and the call is filed by its first one.
  obtain ⟨e, es, hes⟩ : ∃ e es, a.sight.bindings p.parameters (arg :: args) = e :: es :=
    ⟨_, _, rfl⟩
  obtain ⟨v, vs, hvs, hline⟩ := exists_values_insertAll e es
  have hnames : ∀ e' ∈ e :: es, e'.2.name = e'.1 := by
    rw [← hes]
    exact fun e' he' => Sight.name_of_mem_bindings he'
  have hoverlay := p.parameters.overlay_values_insertAll hnames
  rw [hvs] at hoverlay
  rw [findings_call h, boundValues_eq, hes, hvs, Findings.recordCall, Table.get?_insert_self,
    Profile.fileCall, hoverlay, hline]
  rfl

theorem get?_call_of_ne (h : a.graph.Shaped) {callee : String} (hne : function ≠ callee)
    (args : List Argument) (line : Int) :
    (a.call callee args line).findings.functions.get? function =
      a.findings.functions.get? function := by
  rw [findings_call h]
  cases a.boundValues callee args with
  | nil => rfl
  | cons v vs => exact Table.get?_insert_of_ne _ hne _

theorem get?_declare_self (h : a.graph.Shaped) (function : String) (params : List Param) :
    (a.declare function params).findings.functions.get? function =
      some { parameters := (∅ : Table String Value).overlay (params.map (parameter a.sight)) } := by
  rw [findings_declare h]
  exact Table.get?_insert_self _ _ _

/-- What one statement does to what is known about a function: it declares it anew, or it is a call
that is filed, or it changes nothing. -/
theorem Step.get?_cases (hs : Step a n a') (h : a.graph.Shaped) (function : String) :
    (∃ params body line, n = .function function params body line ∧
      a'.findings.functions.get? function =
        some { parameters := (∅ : Table String Value).overlay (params.map (parameter a.sight)) }) ∨
    (n.declares function = false ∧ ∃ args, n.argumentsOf? function = some args ∧
      let p := a.findings.profile function
      a'.findings.functions.get? function = some { p with
        calls := replay p.parameters p.calls [a.sight.bindings p.parameters args] }) ∨
    (n.declares function = false ∧ n.argumentsOf? function = none ∧
      a'.findings.functions.get? function = a.findings.functions.get? function) := by
  cases hs with
  | assign x nameLine value line =>
    refine .inr (.inr ⟨rfl, rfl, ?_⟩)
    rw [findings_assign h]
  | call callee nameLine args line =>
    cases args with
    | nil =>
      refine .inr (.inr ⟨rfl, rfl, ?_⟩)
      rw [findings_call h]
      rfl
    | cons arg args =>
      by_cases hcallee : callee = function
      · subst hcallee
        exact .inr (.inl ⟨rfl, arg :: args, if_pos rfl, get?_call_self h callee arg args line⟩)
      · refine .inr (.inr ⟨rfl, if_neg fun heq => hcallee (Option.some.inj heq), ?_⟩)
        exact get?_call_of_ne h (Ne.symm hcallee) (arg :: args) line
  | declare declared params body line =>
    by_cases hdeclared : declared = function
    · subst hdeclared
      exact .inl ⟨params, body, line, rfl, get?_declare_self h declared params⟩
    · refine .inr (.inr ⟨decide_eq_false hdeclared, rfl, ?_⟩)
      rw [findings_declare h]
      exact Table.get?_insert_of_ne _ (Ne.symm hdeclared) _
  | @dynamic callee args line hc =>
    refine .inr (.inr ⟨rfl, ?_, rfl⟩)
    cases args with
    | nil => rfl
    | cons arg args =>
      rw [Node.argumentsOf?, hc]
      rfl
  | inert hi =>
    refine .inr (.inr ?_)
    cases n with
    | assign | call | function => cases hi
    | _ => exact ⟨rfl, rfl, rfl⟩

theorem Step.parameters_eq (hs : Step a n a') (h : a.graph.Shaped)
    (hn : n.declares function = false) :
    (a'.findings.profile function).parameters = (a.findings.profile function).parameters := by
  rcases hs.get?_cases h function with ⟨params, body, line, rfl, -⟩ | ⟨-, args, -, hget⟩ |
    ⟨-, -, hget⟩
  · simp [Node.declares] at hn
  · rw [Findings.profile_of_get? hget]
  · rw [Findings.profile, hget, Findings.profile]

/-! ## Whole runs -/

/-- A function is known after a run if it was known before, is declared or is called with arguments.
-/
theorem isSome_get?_run (h : a.graph.Shaped) (hrun : a.run ns = (b, none)) (function : String) :
    (b.findings.functions.get? function).isSome = true ↔
      (a.findings.functions.get? function).isSome = true ∨
        ∃ n ∈ ns, n.declares function = true ∨ (n.argumentsOf? function).isSome = true := by
  induction ns generalizing a with
  | nil =>
    cases hrun
    simp
  | cons n ns ih =>
    obtain ⟨a', hs, hrun⟩ := step_of_run_cons hrun
    rw [ih (hs.shaped h) hrun]
    simp only [List.mem_cons, exists_eq_or_imp]
    rcases hs.get?_cases h function with ⟨params, body, line, rfl, hget⟩ | ⟨hn, args, hargs, hget⟩ |
      ⟨hn, hargs, hget⟩
    · simp [hget, Node.declares]
    · simp [hget, hargs]
    · simp [hget, hargs, hn]

/-- Without a declaration among them, statements keep the parameters of a function and replay its
calls. -/
theorem profile_run (h : a.graph.Shaped) (hrun : a.run ns = (b, none))
    (hns : ∀ n ∈ ns, n.declares function = false) :
    let p := a.findings.profile function
    b.findings.profile function =
      { p with calls := replay p.parameters p.calls (a.bindingsOf function p.parameters ns) } := by
  induction ns generalizing a with
  | nil =>
    cases hrun
    rfl
  | cons n ns ih =>
    -- The parameters stay what they are, so the bindings of the later calls do not change either.
    obtain ⟨a', hs, hrun⟩ := step_of_run_cons hrun
    have hn : n.declares function = false := hns n List.mem_cons_self
    have hrest := ih (hs.shaped h) hrun fun n hn => hns n (List.mem_cons_of_mem _ hn)
    intro p
    rw [bindingsOf, visit_of_step hs, replay_append]
    rcases hs.get?_cases h function with ⟨params, body, line, rfl, -⟩ | ⟨-, args, hargs, hget⟩ |
      ⟨-, hargs, hget⟩
    · simp [Node.declares] at hn
    · rw [Findings.profile_of_get? hget] at hrest
      rw [hargs]
      exact hrest
    · have hprofile : a'.findings.profile function = a.findings.profile function := by
        rw [Findings.profile, hget, Findings.profile]
      rw [hprofile] at hrest
      rw [hargs]
      exact hrest

/-- The last declaration of a function decides its parameters and from where on calls count. -/
theorem profile_after_declaration (h : a.graph.Shaped) {before after : List Node}
    {params : List Param} {body : List Node} {line : Int}
    (hrun : a.run (before ++ .function function params body line :: after) = (b, none))
    (hafter : ∀ n ∈ after, n.declares function = false) :
    let c := (a.run before).1
    let parameters := (∅ : Table String Value).overlay (params.map (parameter c.sight))
    b.findings.profile function = ⟨parameters,
      replay parameters ∅ ((c.declare function params).bindingsOf function parameters after)⟩ := by
  obtain ⟨c, hc, hrest⟩ := run_of_run_append hrun
  have hshaped : c.graph.Shaped := by
    have := run_shaped h before
    rwa [hc] at this
  obtain ⟨c', hs, hrest⟩ := step_of_run_cons hrest
  cases hs with
  | inert hi => cases hi
  | declare =>
    have hshaped' := (Step.declare function params body line).shaped hshaped
    have hprofile := profile_run hshaped' hrest hafter
    rw [Findings.profile_of_get? (get?_declare_self hshaped function params)] at hprofile
    rw [hc]
    exact hprofile

/-- What is known about a function after a program. It is known if it is declared or called with
arguments. It has the parameters of its last declaration, or none, and its calls are those after
that declaration, or all, replayed in order. -/
theorem function_after_run {verbose : Bool} {a : Analysis}
    (h : (start verbose).run ns = (a, none)) (function : String) :
    ((a.function? function).isSome = true ↔
      ∃ n ∈ ns, n.declares function = true ∨ (n.argumentsOf? function).isSome = true) ∧
    ∀ f, a.function? function = some f →
      let calls := (a.graph.scope f).calls.mapValues fun c => (a.graph.scope c).parameters
      (∀ before params body line after,
        ns = before ++ .function function params body line :: after →
        (∀ n ∈ after, n.declares function = false) →
          let b := ((start verbose).run before).1
          let parameters := (∅ : Table String Value).overlay (params.map (parameter b.sight))
          (a.graph.scope f).parameters = parameters ∧
            calls = replay parameters ∅
              ((b.declare function params).bindingsOf function parameters after)) ∧
      ((∀ n ∈ ns, n.declares function = false) → (a.graph.scope f).parameters = ∅ ∧
        calls = replay ∅ ∅ ((start verbose).bindingsOf function ∅ ns)) := by
  have hstart := shaped_start verbose
  constructor
  · have hknown := isSome_get?_run hstart h function
    have hnone : (start verbose).findings.functions.get? function = none := rfl
    rw [hnone, findings, ScopeGraph.get?_findings, Option.isSome_map] at hknown
    exact hknown.trans (or_iff_right Bool.false_ne_true)
  intro f hf calls
  have hprofile : a.findings.profile function = a.graph.profile f := by
    apply Findings.profile_of_get?
    rw [findings, ScopeGraph.get?_findings]
    exact congrArg (Option.map a.graph.profile) hf
  refine ⟨fun before params body line after hns hafter => ?_, fun hns => ?_⟩
  · subst hns
    have hdeclared := profile_after_declaration hstart h hafter
    rw [hprofile] at hdeclared
    exact ⟨congrArg Profile.parameters hdeclared, congrArg Profile.calls hdeclared⟩
  · have hcalled := profile_run hstart h hns
    rw [hprofile] at hcalled
    exact ⟨congrArg Profile.parameters hcalled, congrArg Profile.calls hcalled⟩

/-- A call before the declaration is forgotten, and of two calls filed under one line the second
takes the place of the first. -/
theorem function_after_run_of_program :
    let call : Node := .call (.name "f" 1) [⟨.int 1 1, none, 1⟩] 1
    let params : List Param := [⟨"p", none, none, false, 2⟩]
    let calls : List Node := [.call (.name "f" 3) [⟨.int 7 3, none, 3⟩, ⟨.int 8 3, none, 3⟩] 3,
      .call (.name "f" 4) [⟨.int 9 4, none, 4⟩] 4, .call (.name "f" 3) [⟨.int 5 3, none, 3⟩] 3]
    let a := ((start false).run (call :: .function "f" params [] 2 :: calls)).1
    ∃ f, a.function? "f" = some f ∧
      (a.graph.scope f).parameters = ⟨[("p", .unresolved "p" .unknown 2)]⟩ ∧
      ((a.graph.scope f).calls.mapValues fun c => (a.graph.scope c).parameters) =
        ⟨[(3, ⟨[("p", ⟨"p", .int 5, .int, 3⟩)]⟩), (4, ⟨[("p", ⟨"p", .int 9, .int, 4⟩)]⟩)]⟩ := by
  intro call params calls a
  have h : (start false).run (call :: .function "f" params [] 2 :: calls) = (a, none) := by
    with_unfolding_all rfl
  obtain ⟨hknown, hfunction⟩ := function_after_run h "f"
  obtain ⟨f, hf⟩ := Option.isSome_iff_exists.1 (hknown.2 ⟨call, List.mem_cons_self, .inr rfl⟩)
  obtain ⟨hparameters, hcalls⟩ :=
    (hfunction f hf).1 [call] params [] 2 calls rfl (by decide)
  refine ⟨f, hf, hparameters.trans ?_, hcalls.trans ?_⟩ <;> with_unfolding_all rfl

end Analysis

end ValueTrace
