import ValueTrace.Proofs.Session

/-!
# What can be stored

A statement stores the value of its right side, of its arguments or of its parameters, and keeps
everything else. `Findings.All` asks something of all values found, and `Step.findings_all` reduces
the question whether a statement preserves it to the values that the statement stores.
-/

namespace ValueTrace

namespace Findings

/-- All values found are as asked: those in histories and those that calls bound satisfy `P`, and
the parameters of each function satisfy `Q` for it. -/
structure All (P : Value → Prop) (Q : String → Value → Prop) (w : Findings) : Prop where
  histories : ∀ h ∈ w.histories.values, ∀ v ∈ h.values, P v
  parameters : ∀ e ∈ w.functions.entries, ∀ v ∈ e.2.parameters.values, Q e.1 v
  calls : ∀ e ∈ w.functions.entries, ∀ ps ∈ e.2.calls.values,
    ∃ vs, vs ≠ [] ∧ (∀ v ∈ vs, P v) ∧ ps = e.2.parameters.overlay vs

namespace All

variable {w : Findings} {P P' : Value → Prop} {Q Q' : String → Value → Prop}

theorem mono (h : w.All P Q) (hP : ∀ v, P v → P' v)
    (hQ : ∀ function v, Q function v → Q' function v) : w.All P' Q' := by
  refine ⟨fun history hh v hv => hP v (h.histories history hh v hv),
    fun e he v hv => hQ e.1 v (h.parameters e he v hv), fun e he ps hps => ?_⟩
  obtain ⟨vs, hne, hvs, hoverlay⟩ := h.calls e he ps hps
  exact ⟨vs, hne, fun v hv => hP v (hvs v hv), hoverlay⟩

theorem latest (h : w.All P Q) {x : String} {v : Value} (hv : w.sight.latest? x = some v) :
    P v := by
  obtain ⟨history, hx, hlast⟩ := Option.bind_eq_some_iff.1 hv
  have hmem := Table.mem_values.2 ⟨x, Table.mem_entries_of_get? hx⟩
  exact h.histories history hmem v (List.mem_of_getLast? hlast)

theorem declare (h : w.All P Q) {function : String} {vs : List Value}
    (hvs : ∀ v ∈ vs, Q function v) : (w.declare function vs).All P Q := by
  refine ⟨h.histories, fun e he => ?_, fun e he => ?_⟩
  · rcases Table.mem_entries_insert he with rfl | he
    · intro v hv
      exact hvs v ((Table.mem_values_overlay hv).resolve_right (by rintro ⟨⟩))
    · exact h.parameters e he
  · rcases Table.mem_entries_insert he with rfl | he
    · rintro ps ⟨⟩
    · exact h.calls e he

theorem recordCall (h : w.All P Q) {function : String} {vs : List Value} (hvs : ∀ v ∈ vs, P v) :
    (w.recordCall function vs).All P Q := by
  cases vs with
  | nil => exact h
  | cons v vs =>
    -- What was known about the function before; nothing, if this is its first call.
    have hprofile : (function, w.profile function) ∈ w.functions.entries ∨
        w.profile function = {} := by
      rcases hf : w.functions.get? function with _ | p
      · exact .inr (by rw [profile, hf]; rfl)
      · refine .inl ?_
        rw [profile, hf]
        exact Table.mem_entries_of_get? hf
    refine ⟨h.histories, fun e he => ?_, fun e he => ?_⟩
    · rcases Table.mem_entries_insert he with rfl | he
      · rcases hprofile with hmem | hempty
        · exact h.parameters (function, w.profile function) hmem
        · simp only [Profile.fileCall, hempty]
          rintro v ⟨⟩
      · exact h.parameters e he
    · rcases Table.mem_entries_insert he with rfl | he
      · intro ps hps
        rcases Table.mem_values_insert hps with rfl | hps
        · exact ⟨v :: vs, by simp, hvs, rfl⟩
        · rcases hprofile with hmem | hempty
          · exact h.calls (function, w.profile function) hmem ps hps
          · rw [hempty] at hps
            cases hps
      · exact h.calls e he

end All

end Findings

namespace Analysis

variable {P : Value → Prop} {Q : String → Value → Prop}

/-- What one statement preserves, given that it holds of the values that the statement stores. -/
theorem Step.findings_all {a a' : Analysis} {n : Node} (hs : Step a n a') (hshape : a.graph.Shaped)
    (h : a.findings.All P Q)
    (hassign : ∀ x nameLine value line, n = .assign (.variable x nameLine) value line →
      P ((value.infer a.sight x).rename x))
    (hcall : ∀ callee args line, n = .call callee args line → ∀ arg ∈ args, ∀ x,
      P ((arg.value.infer a.sight x).rename x))
    (hdeclare : ∀ function params body line, n = .function function params body line →
      ∀ p ∈ params, Q function (parameter a.sight p)) :
    a'.findings.All P Q := by
  cases hs with
  | assign x nameLine value line =>
    rw [findings_assign hshape, graph_assign]
    refine ⟨fun history hh v hv => ?_, h.parameters, h.calls⟩
    rcases ScopeGraph.mem_history_write hshape.nonempty hh hv with rfl | ⟨old, hold, hv⟩
    · exact hassign x nameLine value line rfl
    · exact h.histories old hold v hv
  | call function nameLine args line =>
    rw [findings_call hshape]
    refine h.recordCall fun v hv => ?_
    obtain ⟨arg, harg, he⟩ := exists_argument_of_mem_boundValues hv
    rw [he]
    exact hcall _ args line rfl arg harg v.name
  | declare function params body line =>
    rw [findings_declare hshape]
    refine h.declare fun v hv => ?_
    obtain ⟨p, hp, rfl⟩ := List.mem_map.1 hv
    exact hdeclare function params body line rfl p hp
  | dynamic args line hc => exact h
  | inert hn => exact h

/-- At the start only the request input is there. -/
theorem findings_start_all (verbose : Bool) (h : P requestInput) :
    (Analysis.start verbose).findings.All P Q := by
  refine ⟨?_, by rintro e ⟨⟩, by rintro e ⟨⟩⟩
  intro history hh v hv
  rcases ScopeGraph.mem_history_write Nat.one_pos hh hv with rfl | ⟨old, ⟨⟩, -⟩
  exact h

end Analysis

end ValueTrace
