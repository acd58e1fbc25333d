import ValueTrace.Proofs.History
import ValueTrace.Proofs.Inference
import ValueTrace.Proofs.Lowering

/-!
# Assignments to several variables

A Lua assignment to several variables becomes one statement for each variable, and each statement is
analysed after the ones before it. The values that statements `offer` to be written are followed
through such a list, and the main result says what each of them is: the value of the expression at
its place as seen when the variables before it have been assigned. It is the value as seen before
the whole assignment if the expression reads none of these variables. An exchange of two variables
is therefore lost.
-/

namespace ValueTrace

/-- The variable that a statement assigns to. -/
def Node.target? : Node → Option String
  | .assign target _ _ => target.variableName?
  | _ => none

theorem Node.eq_assign {n : Node} {x : String} (h : n.target? = some x) :
    ∃ nameLine value line, n = .assign (.variable x nameLine) value line := by
  unfold target? at h
  split at h
  · next target value line =>
    obtain ⟨nameLine, rfl⟩ := eq_variable h
    exact ⟨nameLine, value, line, rfl⟩
  · cases h

/-- Writes values in order, as far as they are kept. -/
def ScopeGraph.writeAll (g : ScopeGraph) (id : ScopeId) (vs : List Value) : ScopeGraph :=
  vs.foldl (fun g v => (g.write id v).1) g

namespace Analysis

/-! ## What statements write -/

/-- The value that a statement hands over to be written. -/
def offer? (a : Analysis) : Node → Option Value
  | .assign (.variable x _) value _ => some ((value.infer a.sight x).rename x)
  | _ => none

/-- The values that statements hand over to be written, in order. -/
def offers (a : Analysis) : List Node → List Value
  | [] => []
  | n :: ns => (a.offer? n).toList ++ (a.visit n).offers ns

variable {a a' : Analysis} {ns : List Node} {xs : List String}

theorem run_cons_of_target {n : Node} {x : String} (h : n.target? = some x) (ns : List Node) :
    a.run (n :: ns) = (a.visit n).run ns := by
  obtain ⟨nameLine, value, line, rfl⟩ := Node.eq_assign h
  rfl

theorem offers_cons_of_target {n : Node} {x : String} (h : n.target? = some x) (ns : List Node) :
    ∃ v, v.name = x ∧ a.offer? n = some v ∧ a.offers (n :: ns) = v :: (a.visit n).offers ns ∧
      (a.visit n).graph = (a.graph.write global v).1 := by
  obtain ⟨nameLine, value, line, rfl⟩ := Node.eq_assign h
  exact ⟨_, rfl, rfl, rfl, graph_assign a x value⟩

/-- Assignments to variables are all taken and write what they offer. -/
theorem run_of_targets (h : ns.map Node.target? = xs.map some) :
    (a.run ns).2 = none ∧ (a.run ns).1.graph = a.graph.writeAll global (a.offers ns) ∧
      (a.offers ns).map Value.name = xs := by
  induction ns generalizing a xs with
  | nil =>
    rw [List.map_nil, eq_comm, List.map_eq_nil_iff] at h
    subst h
    exact ⟨rfl, rfl, rfl⟩
  | cons n ns ih =>
    obtain ⟨x, xs, rfl, hx, hxs⟩ := List.map_eq_cons_iff.1 h.symm
    obtain ⟨v, rfl, -, hoffers, hgraph⟩ := offers_cons_of_target (a := a) hx.symm ns
    obtain ⟨hend, hwrite, hnames⟩ := ih (a := a.visit n) hxs.symm
    rw [run_cons_of_target hx.symm, hoffers, List.map_cons, hnames]
    refine ⟨hend, ?_, rfl⟩
    rw [hwrite, hgraph]
    rfl

theorem getElem?_offers (h : ns.map Node.target? = xs.map some) (i : Nat) :
    (a.offers ns)[i]? = ns[i]?.bind (a.run (ns.take i)).1.offer? := by
  induction ns generalizing a xs i with
  | nil => rfl
  | cons n ns ih =>
    obtain ⟨x, xs, rfl, hx, hxs⟩ := List.map_eq_cons_iff.1 h.symm
    obtain ⟨v, -, hoffer, hoffers, -⟩ := offers_cons_of_target (a := a) hx.symm ns
    rw [hoffers]
    cases i with
    | zero => exact hoffer.symm
    | succ i =>
      rw [List.take_succ_cons, run_cons_of_target hx.symm]
      exact ih hxs.symm i

/-- A statement changes what is seen only of the variable it assigns to. -/
theorem Step.sight_eq {n : Node} (hs : Step a n a') (h : a.graph.Shaped) :
    a'.sight.parameter? = a.sight.parameter? ∧
      ∀ x, n.target? ≠ some x → a'.sight.latest? x = a.sight.latest? x := by
  have hsight : a.sight = a.findings.sight := h.sight_eq
  have hsight' : a'.sight = a'.findings.sight := (hs.shaped h).sight_eq
  rw [hsight, hsight']
  refine ⟨rfl, fun x hx => ?_⟩
  cases hs with
  | assign y nameLine value line =>
    have hne : x ≠ y := fun hxy => hx (congrArg some hxy.symm)
    have hid : global < a.graph.scopes.length := h.nonempty
    rw [findings_assign h, graph_assign]
    exact congrArg (Option.bind · Table.last?) (ScopeGraph.get?_write_of_ne hid hne)
  | call function nameLine args line =>
    rw [findings_call h]
    cases a.boundValues function args <;> rfl
  | declare function params body line =>
    rw [findings_declare h]
    rfl
  | dynamic args line _ => rfl
  | inert _ => rfl

/-- Statements change what is seen only of the variables they assign to. -/
theorem sight_run (h : a.graph.Shaped) (ns : List Node) :
    (a.run ns).1.sight.parameter? = a.sight.parameter? ∧
      ∀ x, some x ∉ ns.map Node.target? → (a.run ns).1.sight.latest? x = a.sight.latest? x := by
  refine (@run_induct (fun fed b => b.graph.Shaped ∧ b.sight.parameter? = a.sight.parameter? ∧
    ∀ x, some x ∉ fed.map Node.target? → b.sight.latest? x = a.sight.latest? x)
    ?_ ?_ [] a ⟨h, rfl, fun _ _ => rfl⟩ ns).2
  · rintro fed b n b' ⟨hb, hparameter, hlatest⟩ hs
    obtain ⟨hparameter', hlatest'⟩ := hs.sight_eq hb
    refine ⟨hs.shaped hb, hparameter'.trans hparameter, fun x hx => ?_⟩
    rw [List.map_append, List.mem_append, not_or] at hx
    exact (hlatest' x fun hn => hx.2 (by simp [hn])).trans (hlatest x hx.1)
  · rintro fed b ns ⟨hb, hparameter, hlatest⟩
    refine ⟨hb, hparameter, fun x hx => hlatest x fun hmem => hx ?_⟩
    rw [List.map_append]
    exact List.mem_append_left _ hmem

end Analysis

namespace Lua

/-! ## One assignment for each target -/

/-- The line of a statement that comes after one on the given line. -/
def Tree.statementLine (line : Int) (t : Tree) : Int := lineOr t.ownLine (lineOr t.firstLine line)

variable {line : Int}

theorem map_target?_assignEach (line : Int) (ts vs : List Node) :
    (assignEach line ts vs).map Node.target? = ts.map Node.variableName? := by
  induction ts generalizing vs with
  | nil => rfl
  | cons t ts ih =>
    cases vs with
    | nil => exact congrArg _ (ih [])
    | cons v vs => exact congrArg _ (ih vs)

theorem getElem?_assignEach (line : Int) (ts vs : List Node) (i : Nat) :
    (assignEach line ts vs)[i]? = ts[i]?.map fun t =>
      .assign t (vs[i]?.getD (.operation Construct.nil.tag [] line)) line := by
  induction ts generalizing vs i with
  | nil => rfl
  | cons t ts ih =>
    cases i with
    | zero => cases vs <;> rfl
    | succ i =>
      cases vs with
      | nil => exact ih [] i
      | cons v vs => exact ih vs i

theorem map_asStatement_assignEach (line : Int) (ts vs : List Node) :
    (assignEach line ts vs).map asStatement = assignEach line ts vs := by
  induction ts generalizing vs with
  | nil => rfl
  | cons t ts ih =>
    cases vs with
    | nil => exact congrArg _ (ih [])
    | cons v vs => exact congrArg _ (ih vs)

/-- What comes of the first trees of a list, each by itself. -/
theorem getElem?_lowerFirst {count : Nat} {ts : List Tree} {ns : List Node}
    (h : lowerFirst line count ts = .ok ns) {i : Nat} (hi : i < count) :
    (ts[i]? = none → ns[i]? = none) ∧
      ∀ t, ts[i]? = some t → ∃ lowered, t.lower line = .ok lowered ∧
        ns[i]? = some (group lowered) := by
  induction count generalizing ts ns i with
  | zero => exact absurd hi (Nat.not_lt_zero i)
  | succ count ih =>
    cases ts with
    | nil =>
      cases h
      exact ⟨fun _ => rfl, fun t ht => by cases ht⟩
    | cons t ts =>
      obtain ⟨lowered, rest, hlowered, hrest, rfl⟩ := lowerFirst_cons_eq_ok_iff.1 h
      cases i with
      | zero =>
        refine ⟨fun hnone => (by cases hnone), fun t' ht' => ?_⟩
        cases ht'
        exact ⟨lowered, hlowered, rfl⟩
      | succ i => exact ih hrest (Nat.lt_of_succ_lt_succ hi)

/-- Plain names become variables. -/
theorem lowerFirst_names {ts : List Tree} {ns : List Node} {xs : List String}
    (h : lowerFirst line ts.length ts = .ok ns) (hx : ts.map Tree.plainName? = xs.map some) :
    ns.map Node.variableName? = xs.map some :=
  (map_variableName?_lowerFirst h).trans hx

/-- An assignment as a statement is one assignment for each target. -/
theorem lowerStatements_assign {isLocal : Bool} {targets values : List Tree} {own : Int}
    {nodes : List Node}
    (h : lowerStatements line [.assign isLocal targets values own] = .ok nodes) :
    ∃ ts vs, let here := (Tree.assign isLocal targets values own).statementLine line
      lowerFirst here targets.length targets = .ok ts ∧
        lowerFirst here targets.length values = .ok vs ∧ nodes = assignEach here ts vs := by
  obtain ⟨lowered, rest, hlowered, hrest, rfl⟩ := lowerStatements_cons rfl h
  rw [Tree.lower] at hlowered
  obtain ⟨ts, vs, hts, hvs, rfl⟩ := assignments_eq_ok hlowered
  cases hrest
  refine ⟨ts, vs, hts, hvs, ?_⟩
  rw [List.append_nil, map_asStatement_assignEach]
  rfl

/-! ## What each variable is offered -/

theorem infer_nil (sight : Sight) (x : String) (line : Int) :
    (Node.operation Construct.nil.tag [] line).infer sight x = .unresolved x .unknown line := by
  rw [Node.infer, Node.inferAll]
  rfl

section

variable {s : Analysis} {ts : List Node} {xs : List String} {i : Nat} {x : String}

/-- Each variable is offered the value at its place, as seen after the assignments before. -/
theorem getElem?_offers_assignEach (h : ts.map Node.variableName? = xs.map some)
    (hi : xs[i]? = some x) (line : Int) (vs : List Node) :
    (s.offers (assignEach line ts vs))[i]? =
      some (((vs[i]?.getD (.operation Construct.nil.tag [] line)).infer
        (s.run ((assignEach line ts vs).take i)).1.sight x).rename x) := by
  have ht : ts[i]?.map Node.variableName? = some (some x) := by
    rw [← List.getElem?_map, h, List.getElem?_map, hi]
    rfl
  obtain ⟨t, ht, hname⟩ := Option.map_eq_some_iff.1 ht
  obtain ⟨nameLine, rfl⟩ := Node.eq_variable hname
  rw [Analysis.getElem?_offers ((map_target?_assignEach line ts vs).trans h),
    getElem?_assignEach, ht]
  rfl

/-- What reads none of the variables before is not affected by their assignments. -/
theorem infer_after_assignEach (hs : s.graph.Shaped) (h : ts.map Node.variableName? = xs.map some)
    (vs : List Node) {n : Node} (hn : ∀ y ∈ xs.take i, ¬n.Reads y) :
    n.infer (s.run ((assignEach line ts vs).take i)).1.sight x = n.infer s.sight x := by
  -- Up to here only the first `i` variables were written, and the node reads none of them.
  obtain ⟨hparameter, hlatest⟩ := Analysis.sight_run hs ((assignEach line ts vs).take i)
  refine Node.infer_congr hparameter (fun y hy => hlatest y fun hmem => ?_) x
  rw [List.map_take, map_target?_assignEach, h, ← List.map_take] at hmem
  obtain ⟨y', hy', heq⟩ := List.mem_map.1 hmem
  cases heq
  exact hn y hy' hy

end

end Lua

section

open Analysis Lua

/-- What an assignment to several variables writes. The statements it becomes are all taken, and
they offer one value for each variable. A variable without an expression is offered no content. A
variable with one is offered its value as seen after the assignments before, and that is the value
as seen at the beginning if none of the variables before is read. -/
theorem offers_multiple_assignment {verbose : Bool} {fed : List Node} {s : Analysis}
    (hs : Reached verbose fed s) {line own : Int} {isLocal : Bool} {targets values : List Tree}
    {nodes : List Node} {xs : List String} (hx : targets.map Tree.plainName? = xs.map some)
    (hn : lowerStatements line [.assign isLocal targets values own] = .ok nodes) :
    (s.run nodes).2 = none ∧ (s.run nodes).1.graph = s.graph.writeAll global (s.offers nodes) ∧
    (s.offers nodes).length = xs.length ∧
    ∀ i x, xs[i]? = some x → let here := (Tree.assign isLocal targets values own).statementLine line
      (values[i]? = none → (s.offers nodes)[i]? = some (.unresolved x .unknown here)) ∧
      ∀ e, values[i]? = some e → ∃ lowered, e.lower here = .ok lowered ∧
        (s.offers nodes)[i]? =
          some (((group lowered).infer (s.run (nodes.take i)).1.sight x).rename x) ∧
        ((∀ y ∈ xs.take i, ¬(group lowered).Reads y) →
          (s.offers nodes)[i]? = some (((group lowered).infer s.sight x).rename x)) := by
  obtain ⟨ts, vs, hts, hvs, rfl⟩ := lowerStatements_assign hn
  generalize (Tree.assign isLocal targets values own).statementLine line = here at hts hvs ⊢
  have hvariables : ts.map Node.variableName? = xs.map some := lowerFirst_names hts hx
  obtain ⟨hend, hgraph, hnames⟩ :=
    run_of_targets (a := s) ((map_target?_assignEach _ ts vs).trans hvariables)
  refine ⟨hend, hgraph, by rw [← hnames, List.length_map], fun i x hi => ?_⟩
  have hlt : i < targets.length := by
    rw [← List.length_map Tree.plainName?, hx, List.length_map]
    exact (List.getElem?_eq_some_iff.1 hi).1
  obtain ⟨hmissing, hpresent⟩ := getElem?_lowerFirst hvs hlt
  have hoffer := getElem?_offers_assignEach (s := s) hvariables hi here vs
  refine ⟨fun hv => ?_, fun e he => ?_⟩
  · rw [hoffer, hmissing hv, Option.getD_none, infer_nil]
    rfl
  · obtain ⟨lowered, hlowered, hv⟩ := hpresent e he
    rw [hv, Option.getD_some] at hoffer
    refine ⟨lowered, hlowered, hoffer, fun hreads => ?_⟩
    rw [hoffer, infer_after_assignEach hs.shaped hvariables vs hreads]

/-- After `a = 1` and `b = 2`, the assignment `a, c, d = b, b` reads only what it does not change
and leaves `d` without a content. -/
theorem offers_multiple_assignment_of_program :
    let s := ((start false).run
      [.assign (.variable "a" 1) (.int 1 1) 1, .assign (.variable "b" 2) (.int 2 2) 2]).1
    let targets : List Tree := [.name "a" none 3, .name "c" none 3, .name "d" none 3]
    let values : List Tree := [.name "b" none 3, .name "b" none 3]
    ∃ nodes, lowerStatements 2 [.assign false targets values 3] = .ok nodes ∧
      (s.run nodes).2 = none ∧ (s.offers nodes).length = 3 ∧
      (s.offers nodes)[1]? = some ⟨"c", .int 2, .int, 2⟩ ∧
      (s.offers nodes)[2]? = some (.unresolved "d" .unknown 3) := by
  intro s targets values
  have hs : Reached false _ s := .run .start _
  have hx : targets.map Tree.plainName? = ["a", "c", "d"].map some := rfl
  have hn : lowerStatements 2 [.assign false targets values 3] = .ok
      [.assign (.variable "a" 3) (.variable "b" 3) 3, .assign (.variable "c" 3) (.variable "b" 3) 3,
        .assign (.variable "d" 3) (.operation "Nil" [] 3) 3] := by
    with_unfolding_all rfl
  obtain ⟨hend, -, hlength, hoffers⟩ := offers_multiple_assignment hs hx hn
  refine ⟨_, hn, hend, hlength, ?_, (hoffers 2 "d" rfl).1 rfl⟩
  obtain ⟨lowered, hlowered, -, hoffer⟩ := (hoffers 1 "c" rfl).2 _ rfl
  have hgroup : group lowered = .variable "b" 3 := by
    rw [Tree.lower] at hlowered
    cases hlowered
    rfl
  rw [hgroup] at hoffer
  refine (hoffer fun y hy hreads => ?_).trans (by with_unfolding_all rfl)
  cases hreads with
  | use => exact absurd hy (by decide)
  | part hstructural => cases hstructural

/-- After `a = 1` and `b = 2`, the assignment `a, b = b, a` offers `b` its own value, although the
variable `a` was seen to have another one. -/
theorem offers_exchange_lost :
    let s := ((start false).run
      [.assign (.variable "a" 1) (.int 1 1) 1, .assign (.variable "b" 2) (.int 2 2) 2]).1
    let targets : List Tree := [.name "a" none 3, .name "b" none 3]
    let values : List Tree := [.name "b" none 3, .name "a" none 3]
    ∃ nodes, lowerStatements 2 [.assign false targets values 3] = .ok nodes ∧
      s.offers nodes = [⟨"a", .int 2, .int, 2⟩, ⟨"b", .int 2, .int, 2⟩] ∧
      (Tree.name "a" none 3).lower 3 = .ok [.variable "a" 3] ∧
      ((Node.variable "a" 3).infer s.sight "b").rename "b" = ⟨"b", .int 1, .int, 1⟩ := by
  intro s targets values
  let nodes : List Node := [.assign (.variable "a" 3) (.variable "b" 3) 3,
    .assign (.variable "b" 3) (.variable "a" 3) 3]
  refine ⟨nodes, ?_, ?_, ?_, ?_⟩ <;> with_unfolding_all rfl

end

end ValueTrace
