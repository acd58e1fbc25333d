import ValueTrace.Proofs.Provenance

/-!
# What an analysis does not look at

Much of a program has no bearing on its analysis: the bodies of functions, the statements without a
rule, the arguments of a call whose function is not named, and the arguments of every call inside an
expression. `erase` takes all of this out. Since inference does not tell an expression from its bare
form (`infer_bare`), each statement does the same before and after, and so does the whole program.
-/

namespace ValueTrace

/-! ## Bare expressions -/

mutual
/-- The node without the arguments of the calls in it. -/
def Node.bare : Node → Node
  | .variable x line => .variable x line
  | .name identifier line => .name identifier line
  | .int n line => .int n line
  | .float x line => .float x line
  | .text s line => .text s line
  | .array items line => .array (Item.bareAll items) line
  | .item i => .item i.bare
  | .call callee _ line => .call callee.bare [] line
  | .argument arg => .argument arg.bare
  | .operation construct operands line => .operation construct (Node.bareAll operands) line
  | .assign target value line => .assign target.bare value.bare line
  | .function function params body line =>
    .function function (Param.bareAll params) (Node.bareAll body) line
  | .param p => .param p.bare
  | .statement construct operands line => .statement construct (Node.bareAll operands) line
def Node.bareAll : List Node → List Node
  | [] => []
  | n :: ns => n.bare :: Node.bareAll ns
def Node.bareOption : Option Node → Option Node
  | none => none
  | some n => some n.bare
def Item.bare : Item → Item
  | ⟨value, key, line⟩ => ⟨value.bare, Node.bareOption key, line⟩
def Item.bareAll : List Item → List Item
  | [] => []
  | i :: items => i.bare :: Item.bareAll items
def Argument.bare : Argument → Argument
  | ⟨value, name, line⟩ => ⟨value.bare, name, line⟩
def Param.bare : Param → Param
  | ⟨name, default, declaredType, variadic, line⟩ =>
    ⟨name, Node.bareOption default, declaredType, variadic, line⟩
def Param.bareAll : List Param → List Param
  | [] => []
  | p :: params => p.bare :: Param.bareAll params
end

theorem Node.bareAll_eq_map (ns : List Node) : bareAll ns = ns.map bare := by
  induction ns with
  | nil => rw [bareAll, List.map_nil]
  | cons n ns ih => rw [bareAll, ih, List.map_cons]

theorem Item.bareAll_eq_map (items : List Item) : bareAll items = items.map bare := by
  induction items with
  | nil => rw [bareAll, List.map_nil]
  | cons i items ih => rw [bareAll, ih, List.map_cons]

theorem Param.bareAll_eq_map (params : List Param) : bareAll params = params.map bare := by
  induction params with
  | nil => rw [bareAll, List.map_nil]
  | cons p params ih => rw [bareAll, ih, List.map_cons]

theorem Node.bareOption_eq_map (o : Option Node) : bareOption o = o.map bare := by
  cases o <;> rw [bareOption] <;> rfl

theorem Item.value_bare (i : Item) : i.bare.value = i.value.bare := by
  obtain ⟨value, key, line⟩ := i
  rw [bare]

theorem Item.key_bare (i : Item) : i.bare.key = i.key.map Node.bare := by
  obtain ⟨value, key, line⟩ := i
  rw [bare, Node.bareOption_eq_map]

theorem Argument.value_bare (arg : Argument) : arg.bare.value = arg.value.bare := by
  obtain ⟨value, name, line⟩ := arg
  rw [bare]

theorem Argument.name_bare (arg : Argument) : arg.bare.name = arg.name := by
  obtain ⟨value, name, line⟩ := arg
  rw [bare]

theorem Param.default_bare (p : Param) : p.bare.default = p.default.map Node.bare := by
  obtain ⟨name, default, declaredType, variadic, line⟩ := p
  rw [bare, Node.bareOption_eq_map]

namespace Node

theorem line_bare (n : Node) : n.bare.line = n.line := by
  cases n with
  | item i =>
    obtain ⟨value, key, line⟩ := i
    rw [bare, Item.bare]
    rfl
  | argument arg =>
    obtain ⟨value, name, line⟩ := arg
    rw [bare, Argument.bare]
    rfl
  | param p =>
    obtain ⟨name, default, declaredType, variadic, line⟩ := p
    rw [bare, Param.bare]
    rfl
  | _ => simp only [bare, Node.line]

theorem structural_bare (n : Node) : n.bare.structural = n.structural := by
  cases n <;> rw [bare] <;> rfl

/-- Of the parts of a node only the arguments of a call are lost. -/
theorem children_bare (n : Node) :
    n.bare.children = n.children.map bare ∨
      ∃ callee args line, n = .call callee args line ∧ n.bare.children = [callee.bare] := by
  cases n with
  | call callee args line => exact .inr ⟨callee, args, line, rfl, by rw [bare]; rfl⟩
  | «variable» | name | int | float | text => exact .inl (by rw [bare]; rfl)
  | array items line =>
    refine .inl ?_
    rw [bare, children, children, Item.bareAll_eq_map, List.map_map, List.map_map]
    rfl
  | item i =>
    refine .inl ?_
    rw [bare, children, children, Item.key_bare, Item.value_bare, List.map_append]
    cases i.key <;> rfl
  | argument arg =>
    refine .inl ?_
    rw [bare, children, children, Argument.value_bare]
    rfl
  | operation name operands line | statement name operands line =>
    refine .inl ?_
    rw [bare, children, children, bareAll_eq_map]
  | assign target value line =>
    refine .inl ?_
    rw [bare]
    rfl
  | function name params body line =>
    refine .inl ?_
    rw [bare, children, children, bareAll_eq_map, Param.bareAll_eq_map, List.map_append,
      List.map_map, List.map_map]
    rfl
  | param p =>
    refine .inl ?_
    rw [bare, children, children, Param.default_bare]
    cases p.default <;> rfl

theorem children_bare_of_structural {n : Node} (h : n.structural = true) :
    n.bare.children = n.children.map bare := by
  rcases children_bare n with hc | ⟨callee, args, line, rfl, -⟩
  · exact hc
  · cases h

theorem exists_child_of_mem_bare {n c : Node} (h : c ∈ n.bare.children) :
    ∃ d ∈ n.children, c = d.bare := by
  rcases children_bare n with hc | ⟨callee, args, line, rfl, hc⟩
  · rw [hc] at h
    obtain ⟨d, hd, rfl⟩ := List.mem_map.1 h
    exact ⟨d, hd, rfl⟩
  · rw [hc] at h
    exact ⟨callee, List.mem_cons_self, List.mem_singleton.1 h⟩

/-- No call in a bare node has arguments. -/
theorem OccursIn.args_eq_nil {n callee : Node} {args : List Argument} {line : Int}
    (h : (Node.call callee args line).OccursIn n.bare) : args = [] := by
  generalize he : n.bare = e at h
  induction h generalizing n with
  | self =>
    cases n with
    | call =>
      rw [bare] at he
      cases he
      rfl
    | _ =>
      rw [bare] at he
      cases he
  | part hc _ ih =>
    subst he
    obtain ⟨d, -, rfl⟩ := exists_child_of_mem_bare hc
    exact ih rfl

/-! ## Inference -/

theorem keyType_bare {sight : Sight} {i : Item}
    (h : ∀ k ∈ i.key, ∀ name, k.bare.infer sight name = k.infer sight name) (place : Nat) :
    i.bare.keyType sight place = i.keyType sight place := by
  unfold Item.keyType
  rw [Item.key_bare]
  cases hk : i.key with
  | none => rfl
  | some k => exact congrArg Value.type (h k hk _)

/-- Inference looks at no argument of a call inside an expression. -/
theorem infer_bare (sight : Sight) (n : Node) (name : String) :
    n.bare.infer sight name = n.infer sight name := by
  induction n using Node.induct generalizing name with
  | use | int | float | text => rw [bare]
  | array items line ih =>
    rw [bare, Item.bareAll_eq_map, infer_array, infer_array, List.zipIdx_map, List.map_map]
    congr 1
    apply List.map_congr_left
    intro e he
    have hi : e.1 ∈ items := List.fst_mem_of_mem_zipIdx he
    have hkey : e.1.bare.keyType sight e.2 = e.1.keyType sight e.2 := keyType_bare (ih e.1 hi).1 e.2
    have hvalue (name : String) : e.1.bare.value.infer sight name = e.1.value.infer sight name := by
      rw [Item.value_bare]
      exact (ih e.1 hi).2 name
    exact Prod.ext hkey (hvalue _)
  | call callee args line ih _ => rw [bare, infer_call, infer_call, ih]
  | structural n hn ih =>
    have hbare : n.bare.structural = true := by rw [structural_bare, hn]
    rw [infer_of_structural sight hn, infer_of_structural sight hbare, line_bare,
      children_bare_of_structural hn, List.map_map]
    congr 1
    exact List.map_congr_left fun c hc => ih c hc name

end Node

/-! ## Erased programs -/

/-- What the analysis looks at in a top-level statement, if anything. -/
def Node.erase? : Node → Option Node
  | .assign target value line => some (.assign target value.bare line)
  | .call callee args line =>
    match callee.staticName? with
    | some _ => if args.isEmpty then none else some (.call callee (args.map Argument.bare) line)
    | none => some (.call callee [] line)
  | .function f params _ line => some (.function f (params.map Param.bare) [] line)
  | _ => none

/-- What the analysis looks at in a program. -/
def erase (ns : List Node) : List Node := ns.filterMap Node.erase?

/-- A statement in which there is nothing left to erase. -/
structure Node.Erased (n : Node) : Prop where
  inert : n.inert = false
  body : ∀ function params body line, n = .function function params body line → body = []
  args : ∀ callee args line, n = .call callee args line → (args = [] ↔ callee.staticName? = none)
  calls : ∀ e ∈ n.expressions, ∀ callee args line, (Node.call callee args line).OccursIn e →
    args = []

theorem Node.erased_of_erase? {n n' : Node} (h : n.erase? = some n') : n'.Erased := by
  cases n with
  | assign target value line =>
    cases h
    refine ⟨rfl, by rintro _ _ _ _ ⟨⟩, by rintro _ _ _ ⟨⟩, ?_⟩
    intro e he callee args line hocc
    cases List.mem_singleton.1 he
    exact hocc.args_eq_nil
  | call callee args line =>
    rw [erase?] at h
    split at h
    · next function hname =>
      split_ifs at h with hargs
      cases h
      refine ⟨rfl, by rintro _ _ _ _ ⟨⟩, ?_, ?_⟩
      · rintro _ _ _ ⟨⟩
        rw [List.map_eq_nil_iff, hname, ← List.isEmpty_iff]
        simp [hargs]
      · intro e he callee args line hocc
        rw [expressions, List.map_map] at he
        obtain ⟨arg, -, rfl⟩ := List.mem_map.1 he
        rw [Function.comp, Argument.value_bare] at hocc
        exact hocc.args_eq_nil
    · next hname =>
      cases h
      refine ⟨rfl, by rintro _ _ _ _ ⟨⟩, ?_, by rintro e ⟨⟩⟩
      rintro _ _ _ ⟨⟩
      exact ⟨fun _ => hname, fun _ => rfl⟩
  | function function params body line =>
    cases h
    refine ⟨rfl, by rintro _ _ _ _ ⟨⟩; rfl, by rintro _ _ _ ⟨⟩, ?_⟩
    intro e he callee args line hocc
    obtain ⟨p', hp', hdefault⟩ := List.mem_filterMap.1 he
    obtain ⟨p, -, rfl⟩ := List.mem_map.1 hp'
    rw [Param.default_bare] at hdefault
    obtain ⟨default, -, rfl⟩ := Option.map_eq_some_iff.1 hdefault
    exact hocc.args_eq_nil
  | _ => cases h

namespace Analysis

theorem boundArguments_bare (sight : Sight) (callee : Option Scope) (place : Nat)
    (args : List Argument) :
    boundArguments sight callee place (args.map Argument.bare) =
      boundArguments sight callee place args := by
  induction args generalizing place with
  | nil => rfl
  | cons arg args ih =>
    have hname : boundName callee place arg.bare = boundName callee place arg := by
      rw [boundName, boundName, Argument.name_bare]
    rw [List.map_cons, boundArguments, boundArguments, hname, ih, Argument.value_bare,
      Node.infer_bare]

theorem parameter_bare (sight : Sight) (p : Param) :
    parameter sight p.bare = parameter sight p := by
  obtain ⟨name, default, declaredType, variadic, line⟩ := p
  rw [Param.bare]
  cases default with
  | none => rfl
  | some default => simp only [parameter, Node.bareOption, Node.infer_bare]

theorem assign_bare (a : Analysis) (x : String) (value : Node) :
    a.assign x value.bare = a.assign x value := by
  rw [assign, assign, Node.infer_bare]

theorem call_bare (a : Analysis) (function : String) (args : List Argument) (line : Int) :
    a.call function (args.map Argument.bare) line = a.call function args line := by
  rw [call, call, boundArguments_bare]

theorem declare_bare (a : Analysis) (function : String) (params : List Param) :
    a.declare function (params.map Param.bare) = a.declare function params := by
  simp only [declare, List.foldl_map, parameter_bare]

/-- A statement does what is left of it does. Where nothing is left, it does nothing. -/
theorem step_erase? (a : Analysis) (n : Node) :
    n.erase?.elim (.ok a) a.step = a.step n := by
  cases n with
  | assign target value line =>
    cases target with
    | «variable» x nameLine => exact congrArg Except.ok (a.assign_bare x value)
    | _ => rfl
  | call callee args line =>
    rw [Node.erase?]
    rcases hname : callee.staticName? with _ | function
    · simp only [Option.elim_some, step, hname]
    · cases args with
      | nil =>
        simp only [List.isEmpty_nil, if_true, Option.elim_none, step, hname]
        rfl
      | cons arg args =>
        simp only [List.isEmpty_cons, Bool.false_eq_true, if_false, Option.elim_some, step, hname,
          call_bare]
  | function function params body line =>
    exact congrArg Except.ok (a.declare_bare function params)
  | _ => rfl

/-- A program can be analysed without the parts that are erased, from any state and so from the
start: the scopes, the notes and the error, if there is one, are the same. -/
theorem run_erase (a : Analysis) (ns : List Node) :
    a.run (erase ns) = a.run ns ∧ ∀ n ∈ erase ns, n.Erased := by
  constructor
  · induction ns generalizing a with
    | nil => rfl
    | cons n ns ih =>
      have hstep := a.step_erase? n
      rw [run, ← hstep]
      cases hn : n.erase? with
      | none =>
        rw [erase, List.filterMap_cons_none hn]
        exact ih a
      | some n' =>
        rw [erase, List.filterMap_cons_some hn, run, Option.elim_some]
        cases a.step n' with
        | ok a' => exact ih a'
        | error e => rfl
  · intro n hn
    obtain ⟨n₀, -, hn₀⟩ := List.mem_filterMap.1 hn
    exact Node.erased_of_erase? hn₀

/-- A call in a default, a body, a call without arguments, and a call of a variable. -/
theorem run_erase_of_program :
    let ns : List Node :=
      [.function "f" [⟨"p", some (.call (.name "g" 1) [⟨.int 1 1, none, 1⟩] 1), none, false, 1⟩]
        [.assign (.variable "x" 2) (.int 2 2) 2] 1,
       .call (.name "f" 3) [] 3,
       .call (.variable "f" 4) [⟨.int 3 4, none, 4⟩] 4]
    let kept : List Node :=
      [.function "f" [⟨"p", some (.call (.name "g" 1) [] 1), none, false, 1⟩] [] 1,
       .call (.variable "f" 4) [] 4]
    erase ns = kept ∧ (start false).run kept = (start false).run ns ∧ ∀ n ∈ kept, n.Erased := by
  intro ns kept
  have herase : erase ns = kept := by with_unfolding_all rfl
  have h := run_erase (start false) ns
  rw [herase] at h
  exact ⟨herase, h⟩

end Analysis

end ValueTrace
