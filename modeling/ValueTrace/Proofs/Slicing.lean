import Mathlib.Data.Set.Basic
import ValueTrace.Proofs.MultipleAssignment

/-!
# Slices

What is written to some variables is decided by the assignments to these variables alone, provided
that their right sides read no others. An analysis of the slice that keeps only these assignments
goes along with the analysis of the whole program (`Agree`): each assignment of the slice does the
same in both, and every other statement leaves the variables of the slice alone.
-/

namespace ValueTrace

/-- Whether the right sides of assignments to variables in a set read only variables in the set. -/
def Closed (S : Set String) (ns : List Node) : Prop :=
  ∀ x nameLine value line, .assign (.variable x nameLine) value line ∈ ns → x ∈ S →
    ∀ y, value.Reads y → y ∈ S

/-- The assignments to variables in a set. -/
def slice (S : Set String) [DecidablePred (· ∈ S)] (ns : List Node) : List Node :=
  ns.filter fun n => n.target?.any (· ∈ S)

theorem Closed.tail {S : Set String} {n : Node} {ns : List Node} (h : Closed S (n :: ns)) :
    Closed S ns :=
  fun x nameLine value line hmem => h x nameLine value line (List.mem_cons_of_mem n hmem)

/-! ## Writes and notes of one statement -/

/-- A write is kept or dropped by the history of its variable alone. -/
theorem Scope.accepts_congr {s s' : Scope} {v : Value}
    (h : s'.histories.get? v.name = s.histories.get? v.name) : s'.accepts v = s.accepts v := by
  simp only [accepts, ownHistory, h]

theorem Scope.get?_write_congr {s s' : Scope} {x : String}
    (h : s'.histories.get? x = s.histories.get? x) (v : Value) :
    (s'.write v).histories.get? x = (s.write v).histories.get? x := by
  by_cases hx : x = v.name
  · subst hx
    rw [get?_write_self, get?_write_self, ownHistory, ownHistory, h]
  · rw [get?_write_of_ne _ hx, get?_write_of_ne _ hx, h]

namespace Analysis

variable {a a' b : Analysis} {n : Node} {ns : List Node} {x : String}

theorem discarded_noteArguments (function : String) (line : Int) (bound : List (String × Value))
    (d : Diagnostics) : (noteArguments function line bound d).discarded = d.discarded := by
  unfold noteArguments
  induction bound generalizing d with
  | nil => rfl
  | cons e bound ih =>
    obtain ⟨name, v⟩ := e
    rw [List.foldl_cons, ih]
    cases hv : v.resolved
    · simp only [hv, Bool.false_eq_true, if_false, Diagnostics.noteUnresolved]
    · simp only [hv, if_true]

/-- The notes about dropped writes grow by the one of the assignment, if its write is dropped. -/
theorem discarded_assign (a : Analysis) (x : String) (value : Node) :
    (a.assign x value).diagnostics.discarded = a.diagnostics.discarded ++
      if (a.graph.scope global).accepts ((value.infer a.sight x).rename x) then []
      else [⟨x, (a.latest? x).elim 0 Value.line, (value.infer a.sight x).line⟩] := by
  rcases h : (a.graph.scope global).accepts ((value.infer a.sight x).rename x) with _ | _
  · simp only [assign, ScopeGraph.write_eq_of_not_accepts h]
    rfl
  · simp only [assign, ScopeGraph.write_eq_of_accepts h]
    exact (List.append_nil _).symm

/-- Only an assignment to a variable writes or drops a write. -/
theorem Step.histories_eq (hs : Step a n a') (h : n.target? = none) :
    (a'.graph.scope global).histories = (a.graph.scope global).histories ∧
      a'.diagnostics.discarded = a.diagnostics.discarded := by
  cases hs with
  | assign => cases h
  | call function nameLine args line =>
    rw [graph_call]
    exact ⟨ScopeGraph.histories_recordCall .., discarded_noteArguments ..⟩
  | declare function params body line =>
    rw [graph_declare]
    exact ⟨ScopeGraph.histories_introduce .., rfl⟩
  | dynamic | inert => exact ⟨rfl, rfl⟩

/-! ## Two analyses side by side -/

section Agree

variable {S : Set String} [DecidablePred (· ∈ S)]

/-- The second analysis has the histories and the notes about dropped writes of the first, for the
variables in a set. -/
structure Agree (S : Set String) [DecidablePred (· ∈ S)] (a b : Analysis) : Prop where
  histories : ∀ x ∈ S,
    (b.graph.scope global).histories.get? x = (a.graph.scope global).histories.get? x
  discarded : b.diagnostics.discarded = a.diagnostics.discarded.filter fun r => r.name ∈ S

theorem Agree.latest_eq (h : Agree S a b) (ha : a.graph.Shaped) (hb : b.graph.Shaped)
    (hx : x ∈ S) : b.sight.latest? x = a.sight.latest? x := by
  rw [sight, sight, global, ha.sight_eq, hb.sight_eq]
  exact congrArg (Option.bind · Table.last?) (h.histories x hx)

theorem Agree.infer_eq (h : Agree S a b) (ha : a.graph.Shaped) (hb : b.graph.Shaped) {value : Node}
    (hreads : ∀ y, value.Reads y → y ∈ S) (x : String) :
    value.infer b.sight x = value.infer a.sight x := by
  refine Node.infer_congr ?_ (fun y hy => h.latest_eq ha hb (hreads y hy)) x
  rw [sight, sight, global, ha.sight_eq, hb.sight_eq]
  rfl

/-- An assignment of the slice does the same in both. -/
theorem Agree.assign (h : Agree S a b) (ha : a.graph.Shaped) (hb : b.graph.Shaped) (hx : x ∈ S)
    {value : Node} (hreads : ∀ y, value.Reads y → y ∈ S) :
    Agree S (a.assign x value) (b.assign x value) := by
  have hinfer := h.infer_eq ha hb hreads x
  have haccepts : (b.graph.scope global).accepts ((value.infer a.sight x).rename x) =
      (a.graph.scope global).accepts ((value.infer a.sight x).rename x) :=
    Scope.accepts_congr (h.histories x hx)
  constructor
  · intro y hy
    have hga : global < a.graph.scopes.length := ha.nonempty
    have hgb : global < b.graph.scopes.length := hb.nonempty
    rw [graph_assign, graph_assign, hinfer, ScopeGraph.scope_write_self hga,
      ScopeGraph.scope_write_self hgb, haccepts]
    split_ifs
    · exact Scope.get?_write_congr (h.histories y hy) _
    · exact h.histories y hy
  · have hlatest : b.latest? x = a.latest? x := h.latest_eq ha hb hx
    rw [discarded_assign, discarded_assign, hinfer, haccepts, hlatest, h.discarded,
      List.filter_append]
    split_ifs
    · rfl
    · simp [hx]

/-- A statement outside the slice changes nothing in it. -/
theorem Agree.skip (h : Agree S a b) (ha : a.graph.Shaped) (hs : Step a n a')
    (hn : ∀ x ∈ S, n.target? ≠ some x) : Agree S a' b := by
  rcases htarget : n.target? with _ | x
  · obtain ⟨hhistories, hdiscarded⟩ := hs.histories_eq htarget
    refine ⟨fun y hy => ?_, ?_⟩
    · rw [hhistories]
      exact h.histories y hy
    · rw [hdiscarded]
      exact h.discarded
  · obtain ⟨nameLine, value, line, rfl⟩ := Node.eq_assign htarget
    have hx : x ∉ S := fun hx => hn x hx rfl
    cases hs with
    | assign =>
      refine ⟨fun y hy => ?_, ?_⟩
      · have hne : y ≠ x := fun hyx => hx (hyx ▸ hy)
        rw [graph_assign]
        exact (h.histories y hy).trans (ScopeGraph.get?_write_of_ne ha.nonempty hne).symm
      · rw [discarded_assign, List.filter_append, h.discarded]
        split_ifs <;> simp [hx]
    | inert hn => cases hn

/-- What agrees before a program and its slice agrees after them. -/
theorem Agree.run {c : Analysis} (h : Agree S a b) (ha : a.graph.Shaped) (hb : b.graph.Shaped)
    (hrun : a.run ns = (c, none)) (hS : Closed S ns) :
    ∃ d, b.run (slice S ns) = (d, none) ∧ Agree S c d := by
  induction ns generalizing a b with
  | nil =>
    cases hrun
    exact ⟨b, rfl, h⟩
  | cons n ns ih =>
    obtain ⟨a', hs, hrest⟩ := step_of_run_cons hrun
    by_cases hn : ∃ x ∈ S, n.target? = some x
    · obtain ⟨x, hx, htarget⟩ := hn
      obtain ⟨nameLine, value, line, rfl⟩ := Node.eq_assign htarget
      have hreads := hS x nameLine value line List.mem_cons_self hx
      cases hs with
      | assign =>
        have hslice : slice S (.assign (.variable x nameLine) value line :: ns) =
            .assign (.variable x nameLine) value line :: slice S ns :=
          List.filter_cons_of_pos (by simp [htarget, hx])
        have hshaped {s : Analysis} (hs : s.graph.Shaped) : (s.assign x value).graph.Shaped :=
          (Step.assign x nameLine value line).shaped hs
        obtain ⟨d, hd, hagree⟩ :=
          ih (h.assign ha hb hx hreads) (hshaped ha) (hshaped hb) hrest hS.tail
        refine ⟨d, ?_, hagree⟩
        rw [hslice]
        exact hd
      | inert hn => cases hn
    · have hn' : ∀ x ∈ S, n.target? ≠ some x := fun x hx htarget => hn ⟨x, hx, htarget⟩
      have hslice : slice S (n :: ns) = slice S ns := by
        apply List.filter_cons_of_neg
        intro hany
        obtain ⟨x, htarget, hx⟩ := Option.any_eq_true _ _ |>.1 hany
        exact hn' x (of_decide_eq_true hx) htarget
      obtain ⟨d, hd, hagree⟩ := ih (h.skip ha hs hn') (hs.shaped ha) hb hrest hS.tail
      refine ⟨d, ?_, hagree⟩
      rw [hslice]
      exact hd

end Agree

/-- The slice of a program for a closed set of variables is analysed without error and gives every
variable in the set the same history, and the same notes about dropped writes, as the whole program.
-/
theorem slice_same_histories {S : Set String} [DecidablePred (· ∈ S)] {verbose : Bool}
    (h : (start verbose).run ns = (a, none)) (hS : Closed S ns) :
    ∃ b, (start verbose).run (slice S ns) = (b, none) ∧
      (∀ x ∈ S,
        (b.graph.scope global).histories.get? x = (a.graph.scope global).histories.get? x) ∧
      b.diagnostics.discarded = a.diagnostics.discarded.filter fun r => r.name ∈ S := by
  have hstart : Agree S (start verbose) (start verbose) := ⟨fun _ _ => rfl, rfl⟩
  have hshaped := shaped_start verbose
  obtain ⟨b, hb, hagree⟩ := hstart.run hshaped hshaped h hS
  exact ⟨b, hb, hagree.histories, hagree.discarded⟩

/-- The slice for two variables leaves out a call, and a third variable that is used only in an
argument. The last assignment to the first variable is dropped. -/
theorem slice_same_histories_of_program :
    let ns : List Node := [.assign (.variable "z" 1) (.int 5 1) 1,
      .assign (.variable "x" 2) (.int 1 2) 2,
      .call (.name "f" 3) [⟨.variable "x" 3, none, 3⟩] 3,
      .assign (.variable "y" 4) (.variable "x" 4) 4,
      .assign (.variable "x" 5) (.call (.name "g" 5) [⟨.variable "z" 5, none, 5⟩] 5) 5]
    ∃ b, (start false).run (slice {x | x = "x" ∨ x = "y"} ns) = (b, none) ∧
      (b.graph.scope global).histories.get? "y" = some ⟨[(2, ⟨"y", .int 1, .int, 2⟩)]⟩ ∧
      b.diagnostics.discarded = [⟨"x", 2, 5⟩] := by
  intro ns
  have hclosed : Closed {x | x = "x" ∨ x = "y"} ns := by
    intro x nameLine value line hmem hx y hy
    simp only [ns, List.mem_cons, List.not_mem_nil, or_false] at hmem
    rcases hmem with h | h | h | h | h <;> cases h
    · exact absurd hx (by decide)
    · cases hy with
      | part hn _ _ => cases hn
    · cases hy with
      | use => exact .inl rfl
      | part hn _ _ => cases hn
    · cases hy with
      | callee _ _ hname =>
        cases hname with
        | part _ hc _ => cases hc
      | part hn _ _ => cases hn
  have h : (start false).run ns = (((start false).run ns).1, none) := by with_unfolding_all rfl
  obtain ⟨b, hb, hhistories, hdiscarded⟩ := slice_same_histories h hclosed
  refine ⟨b, hb, (hhistories "y" (.inr rfl)).trans ?_, hdiscarded.trans ?_⟩ <;>
    with_unfolding_all rfl

end Analysis

end ValueTrace
