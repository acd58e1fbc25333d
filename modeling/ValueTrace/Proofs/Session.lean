import ValueTrace.Analysis
import ValueTrace.Proofs.Findings

/-!
# Sessions

An analysis may be fed statements one at a time or in lists, and goes on after a statement that it
cannot take. `Reached` describes all states that come about in this way, `Step` lists what one
statement can do, and `Reached.induct` carries whatever a step preserves to all states reached. The
first use of it is that the scopes always have their shape (`Reached.shaped`).
-/

namespace ValueTrace

/-- Whether the analysis passes over a statement without a note. -/
def Node.inert : Node → Bool
  | .assign _ _ _ | .call _ _ _ | .function _ _ _ _ => false
  | _ => true

namespace Analysis

/-- What was found so far. -/
def findings (a : Analysis) : Findings := a.graph.findings

/-! ## One statement -/

/-- What one statement that the analysis can take does to the state. -/
inductive Step (a : Analysis) : Node → Analysis → Prop
  | assign (x : String) (nameLine : Int) (value : Node) (line : Int) :
    Step a (.assign (.variable x nameLine) value line) (a.assign x value)
  | call (function : String) (nameLine : Int) (args : List Argument) (line : Int) :
    Step a (.call (.name function nameLine) args line) (a.call function args line)
  | declare (function : String) (params : List Param) (body : List Node) (line : Int) :
    Step a (.function function params body line) (a.declare function params)
  | dynamic {callee : Node} (args : List Argument) (line : Int) (h : callee.staticName? = none) :
    Step a (.call callee args line)
      { a with diagnostics := a.diagnostics.noteSkipped ⟨callee.kind, .dynamicCall, line⟩ }
  | inert {n : Node} (h : n.inert = true) : Step a n a

theorem step_of_eq_ok {a a' : Analysis} {n : Node} (h : a.step n = .ok a') : Step a n a' := by
  unfold step at h
  split at h
  · cases h
    exact .assign _ _ _ _
  · cases h
  · next callee args line =>
    cases callee with
    | name function nameLine =>
      cases h
      exact .call function nameLine args line
    | _ =>
      cases h
      exact .dynamic args line rfl
  · cases h
    exact .declare _ _ _ _
  · next hassign hassign' hcall hfunction =>
    cases h
    refine .inert ?_
    cases n with
    | assign target value line => exact absurd rfl (hassign' target value line)
    | call callee args line => exact absurd rfl (hcall callee args line)
    | function name params body line => exact absurd rfl (hfunction name params body line)
    | _ => rfl

theorem Step.eq_ok {a a' : Analysis} {n : Node} (h : Step a n a') : a.step n = .ok a' := by
  cases h with
  | assign x nameLine value line => rfl
  | call function nameLine args line => rfl
  | declare function params body line => rfl
  | @dynamic callee args line hc => simp only [step, hc]
  | inert hn =>
    cases n with
    | assign | call | function => cases hn
    | _ => rfl

/-! ## The scopes after one statement -/

theorem graph_assign (a : Analysis) (x : String) (value : Node) :
    (a.assign x value).graph =
      (a.graph.write global ((value.infer a.sight x).rename x)).1 := by
  rcases h : (a.graph.scope global).accepts ((value.infer a.sight x).rename x) with _ | _
  · simp only [assign, ScopeGraph.write_eq_of_not_accepts h]
  · simp only [assign, ScopeGraph.write_eq_of_accepts h]

theorem graph_declare (a : Analysis) (function : String) (params : List Param) :
    (a.declare function params).graph =
      a.graph.introduce global function (params.map (parameter a.sight)) := by
  simp only [declare, ScopeGraph.introduce, ScopeGraph.bindAll, List.foldl_map]
  rfl

/-- The values that a call binds, under the names they are bound to. -/
def boundValues (a : Analysis) (function : String) (args : List Argument) : List Value :=
  (boundTable (boundArguments a.sight ((a.function? function).map a.graph.scope) 0 args)).values

theorem boundTable_eq (bound : List (String × Value)) :
    boundTable bound =
      (∅ : Table String Value).insertAll (bound.map fun e => (e.1, e.2.rename e.1)) := by
  rw [Table.insertAll, List.foldl_map]
  rfl

theorem exists_argument_of_mem {sight : Sight} {callee : Option Scope} {place : Nat}
    {args : List Argument} {e : String × Value} (h : e ∈ boundArguments sight callee place args) :
    ∃ arg ∈ args, e.2 = arg.value.infer sight e.1 := by
  induction args generalizing place with
  | nil => cases h
  | cons arg args ih =>
    rw [boundArguments, List.mem_cons] at h
    rcases h with rfl | h
    · exact ⟨arg, List.mem_cons_self, rfl⟩
    · obtain ⟨arg', harg', he⟩ := ih h
      exact ⟨arg', List.mem_cons_of_mem _ harg', he⟩

theorem exists_argument_of_mem_boundValues {a : Analysis} {function : String}
    {args : List Argument} {v : Value} (h : v ∈ a.boundValues function args) :
    ∃ arg ∈ args, v = (arg.value.infer a.sight v.name).rename v.name := by
  rw [boundValues, boundTable_eq] at h
  rcases Table.mem_values_insertAll h with hv | hv
  · rw [List.map_map] at hv
    obtain ⟨e, he, rfl⟩ := List.mem_map.1 hv
    obtain ⟨arg, harg, hinfer⟩ := exists_argument_of_mem he
    exact ⟨arg, harg, congrArg (Value.rename · e.1) hinfer⟩
  · cases hv

theorem graph_call (a : Analysis) (function : String) (args : List Argument) (line : Int) :
    (a.call function args line).graph =
      (a.graph.recordCall global function (a.boundValues function args) none).1 := rfl

theorem Step.shaped {a a' : Analysis} {n : Node} (hs : Step a n a') (h : a.graph.Shaped) :
    a'.graph.Shaped := by
  cases hs with
  | assign x nameLine value line =>
    rw [graph_assign]
    exact h.write _
  | call function nameLine args line =>
    rw [graph_call]
    exact h.recordCall _ _
  | declare function params body line =>
    rw [graph_declare]
    exact h.introduce _ _
  | dynamic args line _ => exact h
  | inert _ => exact h

theorem findings_call {a : Analysis} (h : a.graph.Shaped) (function : String)
    (args : List Argument) (line : Int) :
    (a.call function args line).findings =
      a.findings.recordCall function (a.boundValues function args) :=
  ScopeGraph.findings_recordCall h function _

theorem findings_declare {a : Analysis} (h : a.graph.Shaped) (function : String)
    (params : List Param) :
    (a.declare function params).findings =
      a.findings.declare function (params.map (parameter a.sight)) := by
  rw [findings, graph_declare]
  exact ScopeGraph.findings_introduce h function _

theorem findings_assign {a : Analysis} (h : a.graph.Shaped) (x : String) (value : Node) :
    (a.assign x value).findings =
      { a.findings with histories := ((a.assign x value).graph.scope global).histories } := by
  rw [findings, graph_assign]
  exact ScopeGraph.findings_write h _

/-! ## Sessions -/

/-- The state after one statement. A statement that the analysis cannot take changes nothing. -/
def visit (a : Analysis) (n : Node) : Analysis :=
  match a.step n with
  | .ok a' => a'
  | .error _ => a

theorem visit_of_step {a a' : Analysis} {n : Node} (h : Step a n a') : a.visit n = a' := by
  rw [visit, h.eq_ok]

/-- The state after statements that are fed one at a time. -/
def visitAll (a : Analysis) (ns : List Node) : Analysis := ns.foldl visit a

theorem step_of_run_cons {a b : Analysis} {n : Node} {ns : List Node}
    (h : a.run (n :: ns) = (b, none)) :
    ∃ a', Step a n a' ∧ a'.run ns = (b, none) := by
  unfold run at h
  split at h
  · next a' ha => exact ⟨a', step_of_eq_ok ha, h⟩
  · cases h

theorem run_of_run_append {a b : Analysis} {ns ms : List Node}
    (h : a.run (ns ++ ms) = (b, none)) :
    ∃ c, a.run ns = (c, none) ∧ c.run ms = (b, none) := by
  induction ns generalizing a with
  | nil => exact ⟨a, rfl, h⟩
  | cons n ns ih =>
    rw [List.cons_append] at h
    obtain ⟨a', ha, hrun⟩ := step_of_run_cons h
    obtain ⟨c, hc, hms⟩ := ih hrun
    refine ⟨c, ?_, hms⟩
    rw [run, ha.eq_ok]
    exact hc

/-- The states of a session that is fed statements one at a time or in lists, together with all
statements fed so far. -/
inductive Reached (verbose : Bool) : List Node → Analysis → Prop
  | start : Reached verbose [] (Analysis.start verbose)
  | visit {fed : List Node} {a : Analysis} (h : Reached verbose fed a) (n : Node) :
    Reached verbose (fed ++ [n]) (a.visit n)
  | run {fed : List Node} {a : Analysis} (h : Reached verbose fed a) (ns : List Node) :
    Reached verbose (fed ++ ns) (a.run ns).1

section Induction

variable {P : List Node → Analysis → Prop}
  (hstep : ∀ fed a n a', P fed a → Step a n a' → P (fed ++ [n]) a')
  (hskip : ∀ fed a ns, P fed a → P (fed ++ ns) a)

include hstep hskip

theorem visit_induct {fed : List Node} {a : Analysis} (h : P fed a) (n : Node) :
    P (fed ++ [n]) (a.visit n) := by
  unfold visit
  split
  · next a' ha => exact hstep fed a n a' h (step_of_eq_ok ha)
  · exact hskip fed a [n] h

theorem visitAll_induct {fed : List Node} {a : Analysis} (h : P fed a) (ns : List Node) :
    P (fed ++ ns) (a.visitAll ns) := by
  induction ns generalizing fed a with
  | nil =>
    rw [List.append_nil]
    exact h
  | cons n ns ih =>
    have := ih (visit_induct hstep hskip h n)
    rwa [List.append_assoc] at this

theorem run_induct {fed : List Node} {a : Analysis} (h : P fed a) (ns : List Node) :
    P (fed ++ ns) (a.run ns).1 := by
  induction ns generalizing fed a with
  | nil =>
    rw [List.append_nil]
    exact h
  | cons n ns ih =>
    unfold run
    split
    · next a' ha =>
      have := ih (hstep fed a n a' h (step_of_eq_ok ha))
      rwa [List.append_assoc] at this
    · exact hskip fed a (n :: ns) h

/-- What holds at the start, is preserved by each step and is not lost by statements that are not
taken holds of every state reached. -/
theorem Reached.induct {verbose : Bool} (hstart : P [] (Analysis.start verbose))
    {fed : List Node} {a : Analysis} (h : Reached verbose fed a) : P fed a := by
  induction h with
  | start => exact hstart
  | visit _ n ih => exact visit_induct hstep hskip ih n
  | run _ ns ih => exact run_induct hstep hskip ih ns

end Induction

theorem run_shaped {a : Analysis} (h : a.graph.Shaped) (ns : List Node) :
    (a.run ns).1.graph.Shaped :=
  @run_induct (fun _ a => a.graph.Shaped) (fun _ _ _ _ hs hstep => hstep.shaped hs)
    (fun _ _ _ hs => hs) [] a h ns

theorem shaped_start (verbose : Bool) : (Analysis.start verbose).graph.Shaped := by
  apply ScopeGraph.Shaped.write
  refine ⟨Nat.one_pos, rfl, List.nodup_nil, ?_⟩
  intro e he
  cases he

theorem Reached.shaped {verbose : Bool} {fed : List Node} {a : Analysis}
    (h : Reached verbose fed a) : a.graph.Shaped :=
  h.induct (P := fun _ a => a.graph.Shaped) (fun _ _ _ _ hs hstep => hstep.shaped hs)
    (fun _ _ _ hs => hs) (shaped_start verbose)

end Analysis

end ValueTrace
