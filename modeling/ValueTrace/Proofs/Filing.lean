import Mathlib.Data.Nat.Find
import ValueTrace.Proofs.Specialization

/-!
# Which calls are kept

A call is filed under the line that the value of its first bound name comes from, which need not be
the line of the call. A later call of the function that is filed under the same line takes its
place. The main result is that nothing else does: a call whose line is not used again is shown in
the end as it was made, and so two such calls are kept apart.
-/

namespace ValueTrace.Analysis

variable {a b : Analysis} {function : String} {ns : List Node}

/-- What the statement at a place binds when it is reached, if it is a call of the given function
with arguments. -/
def callAt? (a : Analysis) (function : String) (ns : List Node) (i : Nat) :
    Option (List (String × Value)) :=
  let b := (a.run (ns.take i)).1
  (ns[i]?.bind (Node.argumentsOf? function)).map
    (b.sight.bindings (b.findings.profile function).parameters)

/-- Whether a function is shown with the given bindings, overlaid on its parameters and filed under
their line. -/
def Shows (a : Analysis) (function : String) (bindings : List (String × Value)) : Prop :=
  ∃ f c, a.function? function = some f ∧
    (a.graph.scope f).calls.get? (filingLine bindings) = some c ∧
    (a.graph.scope c).parameters = (a.graph.scope f).parameters.insertAll bindings

/-! ## The calls in a list of statements -/

theorem callAt?_zero (a : Analysis) (function : String) (n : Node) (ns : List Node) :
    a.callAt? function (n :: ns) 0 = (n.argumentsOf? function).map
      (a.sight.bindings (a.findings.profile function).parameters) := rfl

theorem callAt?_succ {n : Node} (hs : Step a n b) (function : String) (ns : List Node) (i : Nat) :
    a.callAt? function (n :: ns) (i + 1) = b.callAt? function ns i := by
  rw [callAt?, callAt?, List.take_succ_cons, run, hs.eq_ok]
  rfl

/-- Whatever is bound by one of several calls is bound at some place. -/
theorem exists_callAt?_of_mem {parameters : Table String Value} {c : Analysis}
    {bindings : List (String × Value)} (h : a.graph.Shaped) (hrun : a.run ns = (c, none))
    (hns : ∀ n ∈ ns, n.declares function = false)
    (hp : (a.findings.profile function).parameters = parameters)
    (hmem : bindings ∈ a.bindingsOf function parameters ns) :
    ∃ i, a.callAt? function ns i = some bindings := by
  induction ns generalizing a with
  | nil => cases hmem
  | cons n ns ih =>
    obtain ⟨b, hs, hrest⟩ := step_of_run_cons hrun
    rw [bindingsOf, visit_of_step hs, List.mem_append, Option.mem_toList] at hmem
    rcases hmem with hfirst | hmem
    · refine ⟨0, ?_⟩
      rw [callAt?_zero, hp]
      exact hfirst
    · have hb := (hs.parameters_eq h (hns n List.mem_cons_self)).trans hp
      have hns' : ∀ m ∈ ns, m.declares function = false :=
        fun m hm => hns m (List.mem_cons_of_mem n hm)
      obtain ⟨i, hi⟩ := ih (hs.shaped h) hrest hns' hb hmem
      exact ⟨i + 1, (callAt?_succ hs function ns i).trans hi⟩

/-- An entry stays as long as no call is filed under its line. -/
theorem get?_calls_run {c : Analysis} (h : a.graph.Shaped) (hrun : a.run ns = (c, none))
    (hns : ∀ n ∈ ns, n.declares function = false) {line : Int}
    (hline : ∀ i bindings, a.callAt? function ns i = some bindings → filingLine bindings ≠ line) :
    (c.findings.profile function).calls.get? line =
      (a.findings.profile function).calls.get? line := by
  rw [profile_run h hrun hns]
  apply Table.get?_insertAll_of_notMem
  rw [List.map_map]
  intro hmem
  obtain ⟨bindings, hbindings, heq⟩ := List.mem_map.1 hmem
  obtain ⟨i, hi⟩ := exists_callAt?_of_mem h hrun hns rfl hbindings
  exact hline i bindings hi heq

/-! ## A call that is kept -/

theorem shows_of_get? {bindings : List (String × Value)}
    (h : (a.findings.profile function).calls.get? (filingLine bindings) =
      some ((a.findings.profile function).parameters.insertAll bindings)) :
    a.Shows function bindings := by
  obtain ⟨f, c, hf, hc, hparameters⟩ := exists_scope_of_call h
  rw [profile_of_function? hf] at hparameters
  exact ⟨f, c, hf, hc, hparameters⟩

/-- Right after it was made, a call is found under its line. -/
theorem get?_calls_step {n : Node} (hs : Step a n b) (h : a.graph.Shaped) {args : List Argument}
    (hargs : n.argumentsOf? function = some args) :
    let bindings := a.sight.bindings (a.findings.profile function).parameters args
    (b.findings.profile function).calls.get? (filingLine bindings) =
      some ((b.findings.profile function).parameters.insertAll bindings) := by
  rcases hs.get?_cases h function with ⟨params, body, line, rfl, -⟩ | ⟨-, args', hargs', hget⟩ |
    ⟨-, hnone, -⟩
  · cases hargs
  · rw [hargs] at hargs'
    cases hargs'
    rw [Findings.profile_of_get? hget]
    exact Table.get?_insert_self _ _ _
  · rw [hargs] at hnone
    cases hnone

/-- A call is shown in the end if the function is not declared anew and no later call is filed under
its line. -/
theorem shows_of_callAt? {c : Analysis} (h : a.graph.Shaped) (hrun : a.run ns = (c, none))
    {i : Nat} {bindings : List (String × Value)} (hi : a.callAt? function ns i = some bindings)
    (hdeclared : ∀ k n, i < k → ns[k]? = some n → n.declares function = false)
    (hlater : ∀ k later, i < k → a.callAt? function ns k = some later →
      filingLine later ≠ filingLine bindings) :
    c.Shows function bindings := by
  induction ns generalizing a i with
  | nil => cases hi
  | cons n ns ih =>
    obtain ⟨b, hs, hrest⟩ := step_of_run_cons hrun
    cases i with
    | zero =>
      rw [callAt?_zero] at hi
      obtain ⟨args, hargs, rfl⟩ := Option.map_eq_some_iff.1 hi
      have hns : ∀ m ∈ ns, m.declares function = false := by
        intro m hm
        obtain ⟨k, hk⟩ := List.getElem?_of_mem hm
        exact hdeclared (k + 1) m (Nat.succ_pos k) hk
      have hparameters := congrArg Profile.parameters (profile_run (hs.shaped h) hrest hns)
      apply shows_of_get?
      rw [hparameters, get?_calls_run (hs.shaped h) hrest hns]
      · exact get?_calls_step hs h hargs
      · intro k later hk
        rw [← callAt?_succ hs] at hk
        exact hlater (k + 1) later (Nat.succ_pos k) hk
    | succ i =>
      rw [callAt?_succ hs] at hi
      refine ih (hs.shaped h) hrest hi ?_ ?_
      · intro k m hk hm
        exact hdeclared (k + 1) m (Nat.succ_lt_succ hk) hm
      · intro k later hk hcall
        rw [← callAt?_succ hs] at hcall
        exact hlater (k + 1) later (Nat.succ_lt_succ hk) hcall

theorem lt_length_of_callAt? {i : Nat} {bindings : List (String × Value)}
    (h : a.callAt? function ns i = some bindings) : i < ns.length := by
  obtain ⟨args, hargs, -⟩ := Option.map_eq_some_iff.1 h
  obtain ⟨n, hn, -⟩ := Option.bind_eq_some_iff.1 hargs
  exact (List.getElem?_eq_some_iff.1 hn).1

/-- Among the calls filed under one line there is a last one. -/
theorem exists_last_callAt? {i : Nat} {bindings : List (String × Value)}
    (h : a.callAt? function ns i = some bindings) :
    ∃ k last, i ≤ k ∧ a.callAt? function ns k = some last ∧
      filingLine last = filingLine bindings ∧
      ∀ l later, k < l → a.callAt? function ns l = some later →
        filingLine later ≠ filingLine bindings := by
  let Filed (k : Nat) : Prop :=
    (a.callAt? function ns k).map filingLine = some (filingLine bindings)
  have hi : Filed i := congrArg (Option.map filingLine) h
  have hle : i ≤ ns.length := Nat.le_of_lt (lt_length_of_callAt? h)
  obtain ⟨last, hlast, hline⟩ := Option.map_eq_some_iff.1 (Nat.findGreatest_spec hle hi)
  refine ⟨Nat.findGreatest Filed ns.length, last, Nat.le_findGreatest hle hi, hlast, hline, ?_⟩
  intro l later hl hcall heq
  apply Nat.findGreatest_is_greatest hl (Nat.le_of_lt (lt_length_of_callAt? hcall))
  exact (congrArg (Option.map filingLine) hcall).trans (congrArg some heq)

/-- Two calls of a function that is not declared after the first of them. If no later call is filed
under the line of either, the two are filed under different lines, and both are shown in the end as
they were made. A call under whose line another is filed gives way to the last of these. -/
theorem calls_kept_apart {verbose : Bool} (h : (start verbose).run ns = (a, none)) {i j : Nat}
    (hij : i < j) {first second : List (String × Value)}
    (hfirst : (start verbose).callAt? function ns i = some first)
    (hsecond : (start verbose).callAt? function ns j = some second)
    (hdeclared : ∀ k n, i < k → ns[k]? = some n → n.declares function = false) :
    ((∀ k later, (start verbose).callAt? function ns k = some later →
        (i < k → filingLine later ≠ filingLine first) ∧
        (j < k → filingLine later ≠ filingLine second)) →
      filingLine first ≠ filingLine second ∧ a.Shows function first ∧ a.Shows function second) ∧
    (∀ k later, i < k → (start verbose).callAt? function ns k = some later →
      filingLine later = filingLine first →
      ∃ l last, k ≤ l ∧ (start verbose).callAt? function ns l = some last ∧
        filingLine last = filingLine first ∧ a.Shows function last ∧
        ∀ m after, l < m → (start verbose).callAt? function ns m = some after →
          filingLine after ≠ filingLine first) := by
  have hshaped := shaped_start verbose
  constructor
  · intro hlater
    refine ⟨((hlater j second hsecond).1 hij).symm, ?_, ?_⟩
    · exact shows_of_callAt? hshaped h hfirst hdeclared
        fun k later hk hcall => (hlater k later hcall).1 hk
    · exact shows_of_callAt? hshaped h hsecond (fun k n hk => hdeclared k n (Nat.lt_trans hij hk))
        fun k later hk hcall => (hlater k later hcall).2 hk
  · intro k later hk hcall hline
    obtain ⟨l, last, hkl, hlast, hsame, hgreatest⟩ := exists_last_callAt? hcall
    have hlines := hsame.trans hline
    rw [hline] at hgreatest
    refine ⟨l, last, hkl, hlast, hlines, ?_, hgreatest⟩
    have hil : i < l := Nat.lt_of_lt_of_le hk hkl
    refine shows_of_callAt? hshaped h hlast (fun m n hm => hdeclared m n (Nat.lt_trans hil hm)) ?_
    rw [hlines]
    exact hgreatest

/-- The first arguments of two calls come from different lines. -/
theorem calls_kept_apart_of_program :
    let ns : List Node := [.assign (.variable "x" 1) (.int 1 1) 1,
      .call (.name "f" 2) [⟨.variable "x" 2, none, 2⟩, ⟨.int 2 2, none, 2⟩] 2,
      .call (.name "f" 3) [⟨.int 3 3, none, 3⟩, ⟨.variable "x" 3, none, 3⟩] 3]
    let first := [("#0", Value.mk "#0" (.int 1) .int 1), ("#1", Value.mk "#1" (.int 2) .int 2)]
    let second := [("#0", Value.mk "#0" (.int 3) .int 3), ("#1", Value.mk "#1" (.int 1) .int 1)]
    let a := ((start false).run ns).1
    filingLine first = 1 ∧ filingLine second = 3 ∧ a.Shows "f" first ∧ a.Shows "f" second := by
  intro ns first second a
  have h : (start false).run ns = (a, none) := by with_unfolding_all rfl
  have hfirst : (start false).callAt? "f" ns 1 = some first := by with_unfolding_all rfl
  have hsecond : (start false).callAt? "f" ns 2 = some second := by with_unfolding_all rfl
  have hlines : filingLine first = 1 ∧ filingLine second = 3 := by with_unfolding_all decide
  have hdeclared : ∀ k n, 1 < k → ns[k]? = some n → n.declares "f" = false := by
    intro k n _ hn
    have hns : ∀ n ∈ ns, n.declares "f" = false := by decide
    exact hns n (List.mem_of_getElem? hn)
  obtain ⟨hkept, -⟩ := calls_kept_apart h (Nat.lt_succ_self 1) hfirst hsecond hdeclared
  obtain ⟨-, hshown⟩ := hkept fun k later hcall => by
    have hk : k < 3 := lt_length_of_callAt? hcall
    refine ⟨fun h1 => ?_, fun h2 => absurd hk (by omega)⟩
    -- After the first call there is only the second.
    obtain rfl : k = 2 := by omega
    rw [hsecond] at hcall
    cases hcall
    rw [hlines.1, hlines.2]
    decide
  exact ⟨hlines.1, hlines.2, hshown⟩

/-- The calls `f(x, 2)` on line 2 and `f(x, 3)` on line 3 are both filed under the line of `x = 1`,
and only the second is shown. -/
theorem calls_not_kept_apart :
    let ns : List Node := [.assign (.variable "x" 1) (.int 1 1) 1,
      .call (.name "f" 2) [⟨.variable "x" 2, none, 2⟩, ⟨.int 2 2, none, 2⟩] 2,
      .call (.name "f" 3) [⟨.variable "x" 3, none, 3⟩, ⟨.int 3 3, none, 3⟩] 3]
    let a := ((start false).run ns).1
    (start false).run ns = (a, none) ∧ ∃ f c, a.function? "f" = some f ∧
      (a.graph.scope f).calls = ⟨[(1, c)]⟩ ∧
      (a.graph.scope c).parameters.get? "#1" = some ⟨"#1", .int 3, .int, 3⟩ := by
  refine ⟨?_, 1, 3, ?_, ?_, ?_⟩ <;> with_unfolding_all rfl

end ValueTrace.Analysis
