import ValueTrace.Proofs.Specialization

/-!
# Positional arguments

A declaration files the parameters of a function under their names, so a name that is declared twice
takes up one place only, and the parameters after it move up. The main result says what follows for
the calls: arguments without a name are bound to the different names of the parameters in order, and
then to names made from their places. An argument is bound to the parameter declared at its place
exactly if no name is repeated up to there, apart from names that read like one made from a place.
-/

namespace ValueTrace

/-! ## Lists without repetitions -/

section Distinct

variable {α : Type} [BEq α] [LawfulBEq α]

theorem eraseDups_concat_of_mem {l : List α} {a : α} (h : a ∈ l) :
    (l ++ [a]).eraseDups = l.eraseDups := by
  rw [List.eraseDups_append]
  simp [List.removeAll, h]

theorem eraseDups_concat_of_notMem {l : List α} {a : α} (h : a ∉ l) :
    (l ++ [a]).eraseDups = l.eraseDups ++ [a] := by
  rw [List.eraseDups_append]
  simp [List.removeAll, h, List.eraseDups_cons]

theorem nodup_eraseDups (l : List α) : l.eraseDups.Nodup := by
  induction l using List.reverseRecOn with
  | nil => exact List.nodup_nil
  | append_singleton l a ih =>
    by_cases h : a ∈ l
    · rwa [eraseDups_concat_of_mem h]
    · rw [eraseDups_concat_of_notMem h]
      exact ih.append (List.nodup_singleton a) (by simpa using h)

theorem eraseDups_sublist (l : List α) : l.eraseDups.Sublist l := by
  induction l using List.reverseRecOn with
  | nil => exact List.Sublist.slnil
  | append_singleton l a ih =>
    by_cases h : a ∈ l
    · rw [eraseDups_concat_of_mem h]
      exact ih.trans (List.sublist_append_left l [a])
    · rw [eraseDups_concat_of_notMem h]
      exact ih.append (List.Sublist.refl [a])

theorem eraseDups_of_nodup {l : List α} (h : l.Nodup) : l.eraseDups = l := by
  induction l using List.reverseRecOn with
  | nil => rfl
  | append_singleton l a ih =>
    obtain ⟨hl, -, hdisjoint⟩ := List.nodup_append.1 h
    have ha : a ∉ l := fun ha => hdisjoint a ha a (List.mem_singleton_self a) rfl
    rw [eraseDups_concat_of_notMem ha, ih hl]

/-- A member keeps its place when repetitions are left out exactly if nothing is repeated up to it.
-/
theorem getElem?_eraseDups_iff {l : List α} {i : Nat} (hi : i < l.length) :
    l.eraseDups[i]? = l[i]? ↔ (l.take (i + 1)).Nodup := by
  have hlength : (l.take (i + 1)).length = i + 1 := List.length_take_of_le hi
  have hget : (l.take (i + 1))[i]? = l[i]? := by simp
  have hsplit : l.eraseDups =
      (l.take (i + 1)).eraseDups ++ ((l.drop (i + 1)).removeAll (l.take (i + 1))).eraseDups := by
    rw [← List.eraseDups_append, List.take_append_drop]
  refine ⟨fun h => ?_, fun h => ?_⟩
  · -- The member stands among the first ones without repetitions, and nowhere else in the list.
    have hmem : l[i] ∈ (l.take (i + 1)).eraseDups := by
      rw [List.mem_eraseDups]
      exact List.mem_of_getElem? (hget.trans (List.getElem?_eq_getElem hi))
    obtain ⟨j, hj, hjget⟩ := List.getElem_of_mem hmem
    have hjlist : l.eraseDups[j]? = l.eraseDups[i]? := by
      rw [h, List.getElem?_eq_getElem hi, ← hjget, hsplit, List.getElem?_append_left hj,
        List.getElem?_eq_getElem hj]
    have hjlt : j < l.eraseDups.length := by
      rw [hsplit, List.length_append]
      omega
    have hij : j = i := (List.getElem?_inj hjlt (nodup_eraseDups l)).1 hjlist
    have heq : (l.take (i + 1)).eraseDups = l.take (i + 1) :=
      (eraseDups_sublist _).eq_of_length_le (by omega)
    rw [← heq]
    exact nodup_eraseDups _
  · rw [hsplit, eraseDups_of_nodup h, List.getElem?_append_left (by omega), hget]

end Distinct

/-- The keys of a table are the different keys of the entries written, in order. -/
theorem Table.keys_insertAll {κ α : Type} [DecidableEq κ] (es : List (κ × α)) :
    ((∅ : Table κ α).insertAll es).keys = (es.map Prod.fst).eraseDups := by
  induction es using List.reverseRecOn with
  | nil => rfl
  | append_singleton es e ih =>
    have hmem : e.1 ∈ ((∅ : Table κ α).insertAll es).keys ↔ e.1 ∈ es.map Prod.fst := by
      rw [ih, List.mem_eraseDups]
    rw [insertAll_append, insertAll_cons, insertAll_nil, keys_insert, List.map_append,
      List.map_singleton]
    split_ifs with h
    · rw [ih, eraseDups_concat_of_mem (hmem.1 h)]
    · rw [ih, eraseDups_concat_of_notMem fun h' => h (hmem.2 h')]

theorem Table.map_name_values_overlay (vs : List Value) :
    ((∅ : Table String Value).overlay vs).values.map Value.name =
      (vs.map Value.name).eraseDups := by
  have hkeys : ((∅ : Table String Value).overlay vs).values.map Value.name =
      ((∅ : Table String Value).overlay vs).keys := by
    rw [values, keys, List.map_map]
    apply List.map_congr_left
    intro e he
    rcases mem_entries_insertAll he with he | he
    · obtain ⟨v, -, rfl⟩ := List.mem_map.1 he
      rfl
    · cases he
  rw [hkeys, overlay, keys_insertAll, List.map_map]
  rfl

/-! ## The name at a place -/

/-- The name at a place in a list, or one made from the place if the list is too short. -/
def nameAt (names : List String) (place : Nat) : String :=
  names[place]?.getD ("#" ++ toString place)

theorem nameAt_of_length_le {names : List String} {i : Nat} (h : names.length ≤ i) :
    nameAt names i = "#" ++ toString i := by
  rw [nameAt, List.getElem?_eq_none h]
  rfl

theorem nameAt_of_getElem? {names : List String} {i : Nat} {x : String} (h : names[i]? = some x) :
    nameAt names i = x := by
  rw [nameAt, h]
  rfl

/-- When leaving out repetitions does not change the name at a place. -/
theorem nameAt_eraseDups_iff (names : List String) (i : Nat) :
    nameAt names.eraseDups i = nameAt names i ↔
      names.length ≤ i ∨ (names.take (i + 1)).Nodup ∨
        names.eraseDups.length ≤ i ∧ names[i]? = some ("#" ++ toString i) := by
  have hshorter : names.eraseDups.length ≤ names.length := (eraseDups_sublist names).length_le
  by_cases hi : i < names.length
  · rw [← getElem?_eraseDups_iff hi, or_iff_right (Nat.not_le.2 hi),
      nameAt_of_getElem? (List.getElem?_eq_getElem hi)]
    by_cases hd : i < names.eraseDups.length
    · simp [nameAt, hd, hi, Nat.not_le.2 hd]
    · rw [Nat.not_lt] at hd
      simp [nameAt_of_length_le hd, hd, hi, eq_comm]
  · rw [Nat.not_lt] at hi
    rw [nameAt_of_length_le hi, nameAt_of_length_le (Nat.le_trans hshorter hi)]
    exact iff_of_true rfl (.inl hi)

namespace Analysis

variable {a b : Analysis} {function : String}

theorem name_parameter (sight : Sight) (p : Param) : (parameter sight p).name = p.name := by
  unfold parameter
  split <;> rfl

/-- A positional argument is bound to the name at its place among the different parameter names. -/
theorem boundName_declared (sight : Sight) (params : List Param) {arg : Argument}
    (h : arg.name = none) (place : Nat) :
    arg.boundName ((∅ : Table String Value).overlay (params.map (parameter sight))) place =
      nameAt (params.map Param.name).eraseDups place := by
  have hnames : ((∅ : Table String Value).overlay
      (params.map (parameter sight))).values.map Value.name =
        (params.map Param.name).eraseDups := by
    rw [Table.map_name_values_overlay, List.map_map]
    congr 1
    exact List.map_congr_left fun p _ => name_parameter sight p
  rw [Argument.boundName, h, nameAt, ← hnames, List.getElem?_map]
  generalize ((∅ : Table String Value).overlay (params.map (parameter sight))).values[place]? = v
  cases v <;> rfl

/-! ## From the declaration to the call -/

/-- Statements that do not declare a function leave its parameters as they are. -/
theorem parameters_visitAll (h : a.graph.Shaped) {ns : List Node}
    (hns : ∀ n ∈ ns, n.declares function = false) :
    (a.visitAll ns).graph.Shaped ∧ ((a.visitAll ns).findings.profile function).parameters =
      (a.findings.profile function).parameters := by
  refine @visitAll_induct (fun fed b => (∀ n ∈ fed, n.declares function = false) →
    b.graph.Shaped ∧ (b.findings.profile function).parameters =
      (a.findings.profile function).parameters) ?_ ?_ [] a (fun _ => ⟨h, rfl⟩) ns hns
  · intro fed b n b' hb hs hfed
    obtain ⟨hshaped, hparameters⟩ := hb fun m hm => hfed m (List.mem_append_left _ hm)
    have hn : n.declares function = false := hfed n (by simp)
    exact ⟨hs.shaped hshaped, (hs.parameters_eq hshaped hn).trans hparameters⟩
  · intro fed b ms hb hfed
    exact hb fun m hm => hfed m (List.mem_append_left _ hm)

/-- The parameters that a call finds are those of the declaration before it. -/
theorem parameters_since_declaration (h : b.graph.Shaped) (params : List Param) (body : List Node)
    (line : Int) {between : List Node} (hbetween : ∀ n ∈ between, n.declares function = false) :
    let a := b.visitAll (.function function params body line :: between)
    a.graph.Shaped ∧ (a.findings.profile function).parameters =
      (∅ : Table String Value).overlay (params.map (parameter b.sight)) := by
  have hs : Step b (.function function params body line) (b.declare function params) :=
    .declare function params body line
  have hrest := parameters_visitAll (hs.shaped h) hbetween
  rw [Findings.profile_of_get? (get?_declare_self h function params)] at hrest
  exact hrest

/-- A call is filed with the parameters overlaid with what it binds. -/
theorem exists_scope_after_call (h : a.graph.Shaped) (function : String) (arg : Argument)
    (args : List Argument) (line : Int) :
    let parameters := (a.findings.profile function).parameters
    let bindings := a.sight.bindings parameters (arg :: args)
    let a' := a.call function (arg :: args) line
    ∃ f c, a'.function? function = some f ∧
      (a'.graph.scope f).calls.get? (filingLine bindings) = some c ∧
      (a'.graph.scope c).parameters = parameters.insertAll bindings := by
  apply exists_scope_of_call
  rw [Findings.profile_of_get? (get?_call_self h function arg args line)]
  exact Table.get?_insert_self _ _ _

theorem getElem?_bindings (sight : Sight) (parameters : Table String Value) (args : List Argument)
    (i : Nat) :
    (sight.bindings parameters args)[i]? = args[i]?.map fun arg =>
      let x := arg.boundName parameters i
      (x, (arg.value.infer sight x).rename x) := by
  rw [Sight.bindings, List.getElem?_map, List.getElem?_zipIdx, Option.map_map]
  simp only [Nat.zero_add]
  rfl

section Declared

variable {params : List Param} {args : List Argument} (sight seen : Sight)

/-- What positional arguments bind after a declaration. -/
theorem getElem?_bindings_declared (hargs : ∀ arg ∈ args, arg.name = none) (i : Nat) :
    (seen.bindings ((∅ : Table String Value).overlay (params.map (parameter sight))) args)[i]? =
      args[i]?.map fun arg =>
        let x := nameAt (params.map Param.name).eraseDups i
        (x, (arg.value.infer seen x).rename x) := by
  rw [getElem?_bindings]
  rcases hi : args[i]? with _ | arg
  · rfl
  · rw [Option.map_some, Option.map_some,
      boundName_declared sight params (hargs arg (List.mem_of_getElem? hi))]

theorem map_fst_bindings_declared (hargs : ∀ arg ∈ args, arg.name = none) :
    (seen.bindings ((∅ : Table String Value).overlay (params.map (parameter sight))) args).map
      Prod.fst = (List.range args.length).map (nameAt (params.map Param.name).eraseDups) := by
  apply List.ext_getElem?
  intro i
  rw [List.getElem?_map, getElem?_bindings_declared sight seen hargs, List.getElem?_map]
  by_cases hi : i < args.length
  · rw [List.getElem?_eq_getElem hi, List.getElem?_range hi]
    rfl
  · rw [Nat.not_lt] at hi
    rw [List.getElem?_eq_none hi, List.getElem?_eq_none (by rwa [List.length_range])]
    rfl

/-- The value that an overlay with positional arguments has at a name declared once up to there. -/
theorem get?_overlay_positional (hargs : ∀ arg ∈ args, arg.name = none) {i : Nat} {x : String}
    {arg : Argument} (hx : (params.map Param.name)[i]? = some x) (hi : args[i]? = some arg)
    (hdistinct : ((params.map Param.name).take (i + 1)).Nodup)
    (hsurplus : ∀ j, (params.map Param.name).eraseDups.length ≤ j → j < args.length →
      x ≠ "#" ++ toString j) :
    let parameters := (∅ : Table String Value).overlay (params.map (parameter sight))
    (parameters.insertAll (seen.bindings parameters args)).get? x =
      some ((arg.value.infer seen x).rename x) := by
  intro parameters
  have hlt : i < (params.map Param.name).length := (List.getElem?_eq_some_iff.1 hx).1
  have hplace : (params.map Param.name).eraseDups[i]? = some x :=
    ((getElem?_eraseDups_iff hlt).2 hdistinct).trans hx
  have hget : (seen.bindings parameters args)[i]? =
      some (x, (arg.value.infer seen x).rename x) := by
    rw [getElem?_bindings_declared sight seen hargs, hi, Option.map_some,
      nameAt_of_getElem? hplace]
  obtain ⟨hib, hentry⟩ := List.getElem?_eq_some_iff.1 hget
  -- No later argument is bound to the name: it is there once, and no surplus one is called like it.
  have hlater : x ∉ ((seen.bindings parameters args).drop (i + 1)).map Prod.fst := by
    intro hmem
    obtain ⟨e, he, hex⟩ := List.mem_map.1 hmem
    obtain ⟨k, hk⟩ := List.getElem?_of_mem he
    rw [List.getElem?_drop, getElem?_bindings_declared sight seen hargs] at hk
    obtain ⟨arg', harg', rfl⟩ := Option.map_eq_some_iff.1 hk
    by_cases hj : i + 1 + k < (params.map Param.name).eraseDups.length
    · have hname := nameAt_of_getElem? (List.getElem?_eq_getElem hj)
      have hsame : (params.map Param.name).eraseDups[i + 1 + k]? =
          (params.map Param.name).eraseDups[i]? := by
        rw [hplace, List.getElem?_eq_getElem hj, ← hname, ← hex]
      have := (List.getElem?_inj hj (nodup_eraseDups _)).1 hsame
      omega
    · rw [Nat.not_lt] at hj
      refine hsurplus (i + 1 + k) hj (List.getElem?_eq_some_iff.1 harg').1 ?_
      rw [← hex, nameAt_of_length_le hj]
  rw [← List.take_append_drop i (seen.bindings parameters args), List.drop_eq_getElem_cons hib,
    hentry]
  exact Table.get?_insertAll_of_last _ _ _ hlater

end Declared

/-- Where the positional arguments of a call go, after a declaration of the function. They are bound
to the different names of the parameters in order, then to names made from their places. That is the
parameter declared at the same place exactly if no name is repeated up to there (or all is used up
and the parameter is called like the place). So a parameter whose name is not repeated before it
holds the value of the argument at its place, unless a surplus argument is called like it. -/
theorem positional_arguments {verbose : Bool} {fed : List Node} (hb : Reached verbose fed b)
    (params : List Param) (body : List Node) (line : Int) {between : List Node}
    (hbetween : ∀ n ∈ between, n.declares function = false) {args : List Argument}
    (hargs : ∀ arg ∈ args, arg.name = none) (nameLine callLine : Int) :
    let a := b.visitAll (.function function params body line :: between)
    let after := a.visit (.call (.name function nameLine) args callLine)
    let names := params.map Param.name
    let bound := boundArguments a.sight ((a.function? function).map a.graph.scope) 0 args
    bound.map Prod.fst = (List.range args.length).map (nameAt names.eraseDups) ∧
    (∀ i, nameAt names.eraseDups i = nameAt names i ↔
      names.length ≤ i ∨ (names.take (i + 1)).Nodup ∨
        names.eraseDups.length ≤ i ∧ names[i]? = some ("#" ++ toString i)) ∧
    (args ≠ [] → ∃ f c, after.function? function = some f ∧
      (after.graph.scope f).calls.get? (filingLine (bound.map fun e => (e.1, e.2.rename e.1))) =
        some c ∧
      ∀ i x arg, names[i]? = some x → args[i]? = some arg → (names.take (i + 1)).Nodup →
        (∀ j, names.eraseDups.length ≤ j → j < args.length → x ≠ "#" ++ toString j) →
        (after.graph.scope c).parameters.get? x = some ((arg.value.infer a.sight x).rename x)) := by
  intro a after names bound
  obtain ⟨hshaped, hparameters⟩ := parameters_since_declaration hb.shaped params body line hbetween
  have hbound := boundArguments_bindings a function args
  rw [hparameters] at hbound
  refine ⟨?_, nameAt_eraseDups_iff names, fun hne => ?_⟩
  · have hnames : bound.map Prod.fst = (bound.map fun e => (e.1, e.2.rename e.1)).map Prod.fst := by
      rw [List.map_map]
      rfl
    rw [hnames, hbound]
    exact map_fst_bindings_declared b.sight a.sight hargs
  · obtain ⟨arg, rest, rfl⟩ := List.exists_cons_of_ne_nil hne
    obtain ⟨f, c, hf, hc, hscope⟩ := exists_scope_after_call hshaped function arg rest callLine
    rw [hparameters] at hc hscope
    refine ⟨f, c, hf, ?_, fun i x arg' hx hi hdistinct hsurplus => ?_⟩
    · rw [hbound]
      exact hc
    · exact (congrArg (Table.get? · x) hscope).trans
        (get?_overlay_positional b.sight a.sight hargs hx hi hdistinct hsurplus)

/-- A function of two parameters is called with three arguments. -/
theorem positional_arguments_of_program :
    let params : List Param := [⟨"p", none, none, false, 1⟩, ⟨"q", none, none, false, 1⟩]
    let between : List Node := [.assign (.variable "x" 2) (.text "s" 2) 2]
    let args : List Argument :=
      [⟨.int 7 3, none, 3⟩, ⟨.variable "x" 3, none, 3⟩, ⟨.int 9 3, none, 3⟩]
    let a := (start false).visitAll (.function "f" params [] 1 :: between)
    let after := a.visit (.call (.name "f" 3) args 3)
    (boundArguments a.sight ((a.function? "f").map a.graph.scope) 0 args).map Prod.fst =
      ["p", "q", "#2"] ∧
    ∃ f c, after.function? "f" = some f ∧ (after.graph.scope f).calls.get? 3 = some c ∧
      (after.graph.scope c).parameters.get? "q" = some ⟨"q", .text "s", .string, 2⟩ := by
  intro params between args a after
  have hb : Reached false [] (start false) := .start
  have hbetween : ∀ n ∈ between, n.declares "f" = false := by decide
  have hargs : ∀ arg ∈ args, arg.name = none := by decide
  obtain ⟨hnames, -, hrecorded⟩ := positional_arguments hb params [] 1 hbetween hargs 3 3
  obtain ⟨f, c, hf, hc, hvalue⟩ := hrecorded (by simp [args])
  refine ⟨hnames.trans (by decide), f, c, hf, ?_, ?_⟩
  · refine Eq.trans (congrArg _ ?_) hc
    with_unfolding_all rfl
  · refine (hvalue 1 "q" _ rfl rfl (by decide) ?_).trans (by with_unfolding_all rfl)
    intro j hj hlt
    have hlength : (params.map Param.name).eraseDups.length = 2 := by decide
    have hplace : j = 2 := by
      have hargs : args.length = 3 := rfl
      omega
    rw [hplace]
    decide

/-- After `function f(_, _, x)` the call `f(1, 2, 3)` binds the second argument to `x`, and the
third to a name made from its place. -/
theorem positional_arguments_shifted :
    let params : List Param := [⟨"_", none, none, false, 1⟩, ⟨"_", none, none, false, 1⟩,
      ⟨"x", none, none, false, 1⟩]
    let args : List Argument :=
      [⟨.int 1 2, none, 2⟩, ⟨.int 2 2, none, 2⟩, ⟨.int 3 2, none, 2⟩]
    let a := (start false).visitAll [.function "f" params [] 1]
    let after := a.visit (.call (.name "f" 2) args 2)
    (boundArguments a.sight ((a.function? "f").map a.graph.scope) 0 args).map Prod.fst =
      ["_", "x", "#2"] ∧
    ∃ f c, after.function? "f" = some f ∧ (after.graph.scope f).calls.get? 2 = some c ∧
      (after.graph.scope c).parameters.get? "x" = some ⟨"x", .int 2, .int, 2⟩ := by
  refine ⟨by with_unfolding_all rfl, 1, 2, ?_, ?_, ?_⟩ <;> with_unfolding_all rfl

end Analysis

end ValueTrace
