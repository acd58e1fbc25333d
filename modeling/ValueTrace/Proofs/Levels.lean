import ValueTrace.Proofs.Positional
import ValueTrace.Proofs.Stopping

/-!
# Levels of scopes

An analysis that is fed one statement at a time, and goes on after those that it cannot take, keeps
its scopes on three levels: the global scope, the scopes of functions in it, and the scopes of their
calls. The parameters of a function are those of its last declaration, and the scope of a call lists
them first (`keys_parameters_visitAll`). As the global scope has no parameters, no expression ever
falls back on one.
-/

namespace ValueTrace

/-! ## Levels of a tree -/

namespace ScopeTree

variable {α : Type}

mutual
/-- The number of levels of a tree. -/
def levels : ScopeTree α → Nat
  | mk _ _ _ functions calls => max (levelsOfFunctions functions) (levelsOfCalls calls) + 1
/-- The number of levels that functions take up. -/
def levelsOfFunctions : List (String × ScopeTree α) → Nat
  | [] => 0
  | (_, tree) :: rest => max (levels tree) (levelsOfFunctions rest)
/-- The number of levels that calls take up. -/
def levelsOfCalls : List (Int × ScopeTree α) → Nat
  | [] => 0
  | (_, tree) :: rest => max (levels tree) (levelsOfCalls rest)
end

theorem levelsOfFunctions_le {n : Nat} {functions : List (String × ScopeTree α)}
    (h : ∀ e ∈ functions, e.2.levels ≤ n) : levelsOfFunctions functions ≤ n := by
  induction functions with
  | nil => exact Nat.zero_le n
  | cons e functions ih =>
    obtain ⟨name, tree⟩ := e
    exact Nat.max_le.2 ⟨h _ List.mem_cons_self, ih fun e he => h e (List.mem_cons_of_mem _ he)⟩

theorem levelsOfCalls_le {n : Nat} {calls : List (Int × ScopeTree α)}
    (h : ∀ e ∈ calls, e.2.levels ≤ n) : levelsOfCalls calls ≤ n := by
  induction calls with
  | nil => exact Nat.zero_le n
  | cons e calls ih =>
    obtain ⟨line, tree⟩ := e
    exact Nat.max_le.2 ⟨h _ List.mem_cons_self, ih fun e he => h e (List.mem_cons_of_mem _ he)⟩

end ScopeTree

theorem Profile.levels_tree_le (p : Profile) (function : String) :
    (p.tree function).levels ≤ 2 := by
  refine Nat.succ_le_succ (Nat.max_le.2 ⟨Nat.zero_le _, ScopeTree.levelsOfCalls_le ?_⟩)
  intro e he
  obtain ⟨call, -, rfl⟩ := List.mem_map.1 he
  exact Nat.le_refl 1

theorem Findings.levels_tree_le (w : Findings) : w.tree.levels ≤ 3 := by
  refine Nat.succ_le_succ (Nat.max_le.2 ⟨ScopeTree.levelsOfFunctions_le ?_, Nat.zero_le _⟩)
  intro e he
  obtain ⟨entry, -, rfl⟩ := List.mem_map.1 he
  exact entry.2.levels_tree_le entry.1

/-! ## Declared parameters -/

/-- The parameters that a statement declares a function with. -/
def Node.parametersOf? (function : String) : Node → Option (List Param)
  | .function declared params _ _ => if declared = function then some params else none
  | _ => none

/-- The names of the parameters in the last declaration of a function; none if there is none. -/
def declaredNames (function : String) (ns : List Node) : List String :=
  ((ns.reverse.findSome? (Node.parametersOf? function)).getD []).map Param.name

theorem declaredNames_concat (function : String) (ns : List Node) (n : Node) :
    declaredNames function (ns ++ [n]) =
      (n.parametersOf? function).elim (declaredNames function ns) (List.map Param.name) := by
  rw [declaredNames, List.reverse_concat, List.findSome?_cons]
  cases n.parametersOf? function <;> rfl

theorem Node.parametersOf?_of_not_declares {n : Node} {function : String}
    (h : n.declares function = false) : n.parametersOf? function = none := by
  cases n with
  | function declared params body line => exact if_neg (of_decide_eq_false h)
  | _ => rfl

/-- The scope of a call lists the parameters of the function first, and is not empty. -/
theorem Table.keys_overlay {t : Table String Value} {vs : List Value} (h : vs ≠ []) :
    (t.overlay vs).entries ≠ [] ∧ t.keys <+: (t.overlay vs).keys := by
  refine ⟨?_, keys_prefix_insertAll t _⟩
  obtain ⟨v, vs, rfl⟩ := List.exists_cons_of_ne_nil h
  have hmem : v.name ∈ (t.overlay (v :: vs)).keys :=
    (keys_prefix_insertAll (t.insert v.name v) _).subset (mem_keys_insert.2 (.inl rfl))
  obtain ⟨w, hw⟩ := mem_keys.1 hmem
  exact List.ne_nil_of_mem hw

namespace Analysis

variable {a a' : Analysis} {n : Node} {function : String}

theorem Step.keys_parameters (hs : Step a n a') (h : a.graph.Shaped) (function : String) :
    (a'.findings.profile function).parameters.keys =
      (n.parametersOf? function).elim (a.findings.profile function).parameters.keys
        fun params => (params.map Param.name).eraseDups := by
  rcases hn : n.declares function with _ | _
  · rw [Node.parametersOf?_of_not_declares hn, hs.parameters_eq h hn, Option.elim_none]
  · rcases hs.get?_cases h function with ⟨params, body, line, rfl, hget⟩ | ⟨hn', -⟩ | ⟨hn', -⟩
    · have hnames : (params.map (parameter a.sight)).map Value.name = params.map Param.name := by
        rw [List.map_map]
        exact List.map_congr_left fun p _ => name_parameter a.sight p
      rw [Findings.profile_of_get? hget, Node.parametersOf?, if_pos rfl, Option.elim_some,
        Table.overlay, Table.keys_insertAll, List.map_map, ← hnames]
      rfl
    · rw [hn] at hn'
      cases hn'
    · rw [hn] at hn'
      cases hn'

/-- However an analysis is fed, its scopes have their shape, and the parameters of each function are
those of its last declaration. -/
theorem keys_parameters_visitAll (verbose : Bool) (ns : List Node) :
    ((start verbose).visitAll ns).graph.Shaped ∧ ∀ function,
      (((start verbose).visitAll ns).findings.profile function).parameters.keys =
        (declaredNames function ns).eraseDups := by
  induction ns using List.reverseRecOn with
  | nil => exact ⟨shaped_start verbose, fun _ => rfl⟩
  | append_singleton ns n ih =>
    obtain ⟨hshaped, hkeys⟩ := ih
    rw [visitAll, List.foldl_concat, ← visitAll]
    rcases hstep : ((start verbose).visitAll ns).step n with e | a'
    · -- A statement that is not taken is an assignment and declares nothing.
      obtain ⟨value, rfl, -⟩ := Node.unsupported?_eq_some_iff.1 (step_eq_error_iff.1 hstep)
      rw [visit, hstep]
      refine ⟨hshaped, fun function => ?_⟩
      rw [declaredNames_concat]
      exact hkeys function
    · have hs := step_of_eq_ok hstep
      rw [visit_of_step hs]
      refine ⟨hs.shaped hshaped, fun function => ?_⟩
      rw [hs.keys_parameters hshaped, declaredNames_concat, hkeys]
      cases n.parametersOf? function <;> rfl

/-- The scopes after any sequence of statements. The global scope has no parameters and no calls.
The scope of a function bears its name, stands in the global scope, and has parameters and calls
only; its parameters are those of the last declaration of the function. The scope of a call bears
the name of the function, stands in the global scope, and has parameters only; there are some, and
those of the declaration come first. So the tree has at most three levels. An expression sees no
parameters, and a variable that was never written has no content. -/
theorem scopes_on_three_levels (verbose : Bool) (ns : List Node) :
    let a := (start verbose).visitAll ns
    let g := a.graph
    ((g.scope global).parameters = ∅ ∧ (g.scope global).calls = ∅) ∧
    (∀ function f, (function, f) ∈ (g.scope global).functions.entries →
      g.scope f = { name := function, outer := some global, parameters := (g.scope f).parameters,
                    calls := (g.scope f).calls } ∧
      (g.scope f).parameters.keys = (declaredNames function ns).eraseDups ∧
      ∀ line c, (line, c) ∈ (g.scope f).calls.entries →
        g.scope c = { name := function, outer := some global,
                      parameters := (g.scope c).parameters } ∧
        (g.scope c).parameters.entries ≠ [] ∧
        (declaredNames function ns).eraseDups <+: (g.scope c).parameters.keys) ∧
    (∃ tree, a.tree? = some tree ∧ tree.levels ≤ 3) ∧
    ∀ x, a.sight.parameter? x = none ∧ ∀ y line, a.latest? y = none →
      (Node.variable y line).infer a.sight x = .unresolved x .unknown line := by
  intro a g
  obtain ⟨hshaped, hkeys⟩ := keys_parameters_visitAll verbose ns
  have hparameter (x : String) : a.sight.parameter? x = none := by
    have hsight : a.sight = a.findings.sight := hshaped.sight_eq
    rw [hsight]
    rfl
  refine ⟨⟨?_, ?_⟩, fun function f hf => ?_, ⟨_, hshaped.tree?_eq, a.findings.levels_tree_le⟩,
    fun x => ⟨hparameter x, fun y line hy => ?_⟩⟩
  · rw [global, hshaped.global_eq]
  · rw [global, hshaped.global_eq]
  · have hfun := hshaped.functions _ hf
    have hparameters : (g.scope f).parameters.keys = (declaredNames function ns).eraseDups := by
      rw [← hkeys, profile_of_function? (Table.get?_of_mem_entries hshaped.nodup hf)]
      rfl
    refine ⟨hfun.scope_eq, hparameters, fun line c hc => ?_⟩
    have hcall := hfun.calls _ hc
    obtain ⟨vs, hvs, hoverlay⟩ := hcall.overlay
    obtain ⟨hne, hprefix⟩ := Table.keys_overlay (t := (g.scope f).parameters) hvs
    rw [← hparameters]
    refine ⟨hcall.scope_eq, ?_, ?_⟩
    · rw [hoverlay]
      exact hne
    · rw [hoverlay]
      exact hprefix
  · have hlatest : a.sight.latest? y = none := hy
    rw [Node.infer, hlatest, hparameter x]
    rfl

/-- A function is called before it is declared with one parameter, and again after that, both times
with two arguments. An assignment in between fails. -/
theorem scopes_on_three_levels_of_program :
    let ns : List Node := [
      .call (.name "f" 1) [⟨.int 1 1, none, 1⟩, ⟨.int 2 1, none, 1⟩] 1,
      .assign (.name "x" 2) (.int 2 2) 2,
      .function "f" [⟨"p", none, none, false, 3⟩] [] 3,
      .call (.name "f" 4) [⟨.int 3 4, none, 4⟩, ⟨.int 4 4, none, 4⟩] 4]
    let g := ((start false).visitAll ns).graph
    ("f", 3) ∈ (g.scope global).functions.entries ∧ (4, 4) ∈ (g.scope 3).calls.entries ∧
      (g.scope 3).parameters.keys = ["p"] ∧ (g.scope 4).outer = some global ∧
      ["p"] <+: (g.scope 4).parameters.keys ∧ (g.scope 4).parameters.keys = ["p", "#1"] := by
  intro ns g
  have hfunctions : (g.scope global).functions.entries = [("f", 3)] := by with_unfolding_all rfl
  have hcalls : (g.scope 3).calls.entries = [(4, 4)] := by with_unfolding_all rfl
  have hf : ("f", 3) ∈ (g.scope global).functions.entries := by
    rw [hfunctions]
    exact .head _
  have hc : (4, 4) ∈ (g.scope 3).calls.entries := by
    rw [hcalls]
    exact .head _
  have hnames : (declaredNames "f" ns).eraseDups = ["p"] := by decide
  obtain ⟨-, hscopes, -⟩ := scopes_on_three_levels false ns
  obtain ⟨-, hparameters, hspecial⟩ := hscopes "f" 3 hf
  obtain ⟨hscope, -, hfirst⟩ := hspecial 4 4 hc
  rw [hnames] at hparameters hfirst
  refine ⟨hf, hc, hparameters, congrArg Scope.outer hscope, hfirst, ?_⟩
  with_unfolding_all rfl

end Analysis

end ValueTrace
