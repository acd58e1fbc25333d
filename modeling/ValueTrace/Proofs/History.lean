import ValueTrace.Proofs.Session

/-!
# Histories of variables

A history files each write under the line that its value comes from, and its last entry is what
reading the variable gives. `Built` describes all graphs that operations on scopes can lead to, and
`Filed` is what their histories have in common. The main result says when a write that was kept is
what reading gives next: exactly if its line is new in the history or is its last line. A write that
goes back to an earlier line replaces the entry there, and a later entry still hides it.
-/

namespace ValueTrace

/-- The history of a variable: each line occurs once and holds a value of that name and line. -/
structure History.Filed (x : String) (h : History) : Prop where
  nonempty : h.entries ≠ []
  nodup : h.keys.Nodup
  own : ∀ e ∈ h.entries, e.2.name = x ∧ e.2.line = e.1

namespace Scope

/-- All histories of a scope are filed under their variables. -/
def Filed (s : Scope) : Prop := ∀ x h, s.histories.get? x = some h → History.Filed x h

/-- Whether a write would be the last entry of its history. -/
def WritesLast (s : Scope) (v : Value) : Prop :=
  v.line ∉ (s.ownHistory v.name).keys ∨ (s.ownHistory v.name).keys.getLast? = some v.line

theorem ownHistory_of_get? {s : Scope} {x : String} {h : History}
    (hx : s.histories.get? x = some h) : s.ownHistory x = h := by
  rw [ownHistory, hx]
  rfl

theorem get?_of_mem_ownHistory {s : Scope} {x : String} {line : Int}
    (h : line ∈ (s.ownHistory x).keys) : s.histories.get? x = some (s.ownHistory x) := by
  rcases hx : s.histories.get? x with _ | history
  · rw [ownHistory, hx] at h
    cases h
  · rw [ownHistory_of_get? hx]

theorem get?_write_self (s : Scope) (v : Value) :
    (s.write v).histories.get? v.name = some ((s.ownHistory v.name).insert v.line v) :=
  Table.get?_insert_self _ _ _

theorem get?_write_of_ne (s : Scope) {v : Value} {x : String} (h : x ≠ v.name) :
    (s.write v).histories.get? x = s.histories.get? x :=
  Table.get?_insert_of_ne _ h _

theorem Filed.nodup_ownHistory {s : Scope} (hs : s.Filed) (x : String) :
    (s.ownHistory x).keys.Nodup := by
  rcases hx : s.histories.get? x with _ | h
  · rw [ownHistory, hx]
    exact List.nodup_nil
  · rw [ownHistory_of_get? hx]
    exact (hs x h hx).nodup

theorem Filed.own_ownHistory {s : Scope} (hs : s.Filed) {x : String} {e : Int × Value}
    (he : e ∈ (s.ownHistory x).entries) : e.2.name = x ∧ e.2.line = e.1 := by
  rcases hx : s.histories.get? x with _ | h
  · rw [ownHistory, hx] at he
    cases he
  · rw [ownHistory_of_get? hx] at he
    exact (hs x h hx).own e he

theorem Filed.write {s : Scope} (hs : s.Filed) (v : Value) : (s.write v).Filed := by
  intro x h hx
  by_cases hne : x = v.name
  · subst hne
    rw [get?_write_self] at hx
    cases hx
    refine ⟨?_, Table.nodup_keys_insert (hs.nodup_ownHistory _) _ _, fun e he => ?_⟩
    · have hmem : v.line ∈ ((s.ownHistory v.name).insert v.line v).keys :=
        Table.mem_keys_insert.2 (.inl rfl)
      obtain ⟨w, hw⟩ := Table.mem_keys.1 hmem
      exact List.ne_nil_of_mem hw
    · rcases Table.mem_entries_insert he with rfl | he
      · exact ⟨rfl, rfl⟩
      · exact hs.own_ownHistory he
  · rw [get?_write_of_ne s hne] at hx
    exact hs x h hx

/-- What a history ends with after a write. -/
theorem Filed.last?_insert {s : Scope} (hs : s.Filed) (v : Value) :
    (s.WritesLast v → ((s.ownHistory v.name).insert v.line v).last? = some v) ∧
      (¬s.WritesLast v → ∃ w, w.line ≠ v.line ∧ (s.ownHistory v.name).last? = some w ∧
        ((s.ownHistory v.name).insert v.line v).last? = some w) := by
  refine ⟨Table.last?_insert_of_last (hs.nodup_ownHistory _) v, fun h => ?_⟩
  obtain ⟨hmem, hlast⟩ := not_or.1 h
  rw [not_not] at hmem
  -- The line is taken and is not the last one, so the last entry is one of another line.
  obtain ⟨e, he⟩ : ∃ e, (s.ownHistory v.name).entries.getLast? = some e := by
    obtain ⟨w, hw⟩ := Table.mem_keys.1 hmem
    exact ⟨_, List.getLast?_eq_some_getLast (List.ne_nil_of_mem hw)⟩
  have hold : (s.ownHistory v.name).last? = some e.2 := by
    rw [Table.last?_eq, he]
    rfl
  refine ⟨e.2, fun hline => hlast ?_, hold, ?_⟩
  · rw [Table.keys, List.getLast?_map, he, ← hline]
    exact congrArg some (hs.own_ownHistory (List.mem_of_getLast? he)).2.symm
  · rw [Table.last?_insert_of_not_last v hmem hlast, hold]

end Scope

namespace ScopeGraph

/-! ## Graphs that can be built -/

/-- The graphs that operations on scopes lead to. Operations are on scopes that exist. -/
inductive Built : ScopeGraph → Prop
  | empty : Built {}
  | create {g : ScopeGraph} (h : Built g) (name : String) {outer : Option ScopeId}
    (ho : ∀ o ∈ outer, o < g.scopes.length) : Built (g.create name outer).1
  | write {g : ScopeGraph} (h : Built g) {id : ScopeId} (hid : id < g.scopes.length) (v : Value) :
    Built (g.write id v).1
  | bind {g : ScopeGraph} (h : Built g) {id : ScopeId} (hid : id < g.scopes.length) (v : Value) :
    Built (g.bind id v)
  | declare {g : ScopeGraph} (h : Built g) {id child : ScopeId} (hid : id < g.scopes.length)
    (hchild : child < g.scopes.length) : Built (g.declare id child)
  | instantiate {g : ScopeGraph} (h : Built g) {id : ScopeId} (hid : id < g.scopes.length) :
    Built (g.instantiate id).1
  | recordCall {g : ScopeGraph} (h : Built g) {id : ScopeId} (hid : id < g.scopes.length)
    (function : String) (vs : List Value) (line : Option Int) :
    Built (g.recordCall id function vs line).1

variable {g : ScopeGraph} {id : ScopeId}

theorem scope_of_le (h : g.scopes.length ≤ id) : g.scope id = default := by
  rw [scope, List.getElem?_eq_none h]
  rfl

theorem histories_modify {f : Scope → Scope} (hf : ∀ s, (f s).histories = s.histories)
    (target id : ScopeId) : ((g.modify target f).scope id).histories = (g.scope id).histories := by
  by_cases hne : id = target
  · subst hne
    by_cases hid : id < g.scopes.length
    · rw [scope_modify_self hid, hf]
    · rw [Nat.not_lt] at hid
      rw [scope_of_le hid, scope_of_le (by rwa [length_modify])]
  · rw [scope_modify_of_ne hne]

theorem histories_add {s : Scope} (hs : s.histories = ∅) (id : ScopeId) :
    ((g.add s).1.scope id).histories = (g.scope id).histories := by
  rcases Nat.lt_trichotomy id g.scopes.length with hid | rfl | hid
  · rw [scope_add_of_lt hid]
  · rw [scope_add_self, hs, scope_of_le (Nat.le_refl _)]
    rfl
  · rw [scope_of_le (Nat.le_of_lt hid), scope_of_le (by rw [length_add]; exact hid)]

theorem histories_bind (target id : ScopeId) (v : Value) :
    ((g.bind target v).scope id).histories = (g.scope id).histories :=
  histories_modify (f := (·.bind v)) (fun _ => rfl) target id

theorem histories_declare (target child id : ScopeId) :
    ((g.declare target child).scope id).histories = (g.scope id).histories :=
  histories_modify (f := fun s => { s with functions := s.functions.insert _ child })
    (fun _ => rfl) target id

theorem histories_create (name : String) (outer : Option ScopeId) (id : ScopeId) :
    ((g.create name outer).1.scope id).histories = (g.scope id).histories :=
  histories_add rfl id

theorem histories_instantiate (target id : ScopeId) :
    ((g.instantiate target).1.scope id).histories = (g.scope id).histories :=
  histories_add rfl id

theorem histories_bindAll (target id : ScopeId) (vs : List Value) :
    ((g.bindAll target vs).scope id).histories = (g.scope id).histories := by
  induction vs generalizing g with
  | nil => rfl
  | cons v vs ih => exact (ih (g := g.bind target v)).trans (histories_bind target id v)

theorem histories_introduce (target id : ScopeId) (function : String) (vs : List Value) :
    ((g.introduce target function vs).scope id).histories = (g.scope id).histories := by
  rw [introduce, histories_bindAll, histories_declare, histories_create]

theorem histories_fileCall (f id : ScopeId) (line : Int) (vs : List Value) :
    ((g.fileCall f line vs).scope id).histories = (g.scope id).histories := by
  rw [fileCall, histories_bindAll]
  refine (histories_modify (f := fun s => { s with calls := s.calls.insert line _ })
    (fun _ => rfl) f id).trans ?_
  exact histories_instantiate f id

theorem histories_recordCall (target id : ScopeId) (function : String) (vs : List Value)
    (line : Option Int) :
    ((g.recordCall target function vs line).1.scope id).histories = (g.scope id).histories := by
  cases vs with
  | nil => rfl
  | cons v vs =>
    rcases hf : (g.scope target).functions.get? function with _ | f
    · rw [recordCall_unknown hf, histories_fileCall, histories_introduce]
    · rw [recordCall_known hf, histories_fileCall]

theorem get?_write_of_ne (hid : id < g.scopes.length) {v : Value} {x : String} (h : x ≠ v.name) :
    ((g.write id v).1.scope id).histories.get? x = (g.scope id).histories.get? x := by
  rw [scope_write_self hid]
  split_ifs
  · exact Scope.get?_write_of_ne _ h
  · rfl

/-- What holds where nothing was written and is kept by a write holds of the histories of every
scope. -/
theorem Built.histories_induct {P : Table String History → Prop} (hempty : P ∅)
    (hwrite : ∀ (s : Scope) (v : Value), P s.histories → P (s.write v).histories) (h : g.Built)
    (id : ScopeId) : P (g.scope id).histories := by
  induction h generalizing id with
  | empty =>
    rw [scope_of_le (Nat.zero_le _)]
    exact hempty
  | create _ name _ ih =>
    rw [histories_create]
    exact ih id
  | @write g _ target hid v ih =>
    by_cases hne : id = target
    · subst hne
      rw [scope_write_self hid]
      split_ifs
      · exact hwrite _ v (ih id)
      · exact ih id
    · rw [scope_write_of_ne hne]
      exact ih id
  | bind _ _ v ih =>
    rw [histories_bind]
    exact ih id
  | declare _ _ _ ih =>
    rw [histories_declare]
    exact ih id
  | instantiate _ _ ih =>
    rw [histories_instantiate]
    exact ih id
  | recordCall _ _ function vs line ih =>
    rw [histories_recordCall]
    exact ih id

theorem Built.filed (h : g.Built) (id : ScopeId) : (g.scope id).Filed := by
  refine h.histories_induct (P := fun t => ∀ x h, t.get? x = some h → History.Filed x h) ?_ ?_ id
  · intro x h hx
    cases hx
  · intro s v hs
    exact Scope.Filed.write hs v

/-! ## The last write -/

/-- What a variable is after a write that was kept. -/
theorem latest?_modify_write (hid : id < g.scopes.length) (v : Value) :
    (g.modify id (·.write v)).latest? id v.name =
      (((g.scope id).ownHistory v.name).insert v.line v).last? := by
  apply latest?_of_get?
  rw [scope_modify_self hid]
  exact Scope.get?_write_self _ v

theorem latest?_write (hs : (g.scope id).Filed) (hid : id < g.scopes.length) {v : Value}
    (hw : (g.write id v).2 = true) :
    ((g.write id v).1.latest? id v.name = some v ↔ (g.scope id).WritesLast v) ∧
      (¬(g.scope id).WritesLast v →
        (g.write id v).1.latest? id v.name = g.latest? id v.name) := by
  have hacc : (g.scope id).accepts v = true := by
    by_contra hacc
    rw [write_eq_of_not_accepts (by simpa using hacc)] at hw
    cases hw
  rw [write_eq_of_accepts hacc, latest?_modify_write hid]
  -- Values at different lines differ, so an entry of another line at the end is not this write.
  obtain ⟨hlast, hnot⟩ := hs.last?_insert v
  refine ⟨⟨fun h => ?_, hlast⟩, fun h => ?_⟩
  · by_contra hne
    obtain ⟨w, hline, -, hw⟩ := hnot hne
    rw [h] at hw
    exact hline (congrArg Value.line (Option.some.inj hw)).symm
  · obtain ⟨w, -, hold, hw⟩ := hnot h
    have hmem : v.line ∈ ((g.scope id).ownHistory v.name).keys := by
      by_contra hmem
      exact h (.inl hmem)
    rw [hw, latest?_of_get? (Scope.get?_of_mem_ownHistory hmem), hold]

theorem not_accepts_of_dropped {v : Value} (h : (g.write id v).2 = false) :
    (g.scope id).accepts v = false := by
  rcases hacc : (g.scope id).accepts v with _ | _
  · rfl
  · rw [write_eq_of_accepts hacc] at h
    cases h

/-- A write is dropped only if it has no content and reading gives a value with one. -/
theorem latest?_of_dropped {v : Value} (h : (g.write id v).2 = false) :
    v.resolved = false ∧ ∃ w, g.latest? id v.name = some w ∧ w.resolved = true := by
  have hacc := not_accepts_of_dropped h
  unfold Scope.accepts at hacc
  split at hacc
  · next w hw =>
    rw [Bool.or_eq_false_iff, Bool.not_eq_false'] at hacc
    refine ⟨hacc.2, w, ?_, hacc.1⟩
    rcases hx : (g.scope id).histories.get? v.name with _ | history
    · rw [Scope.ownHistory, hx] at hw
      cases hw
    · rw [latest?_of_get? hx, ← Scope.ownHistory_of_get? hx, hw]
  · cases hacc

/-! ## The graph of an analysis -/

theorem Built.bindAll (h : g.Built) (hid : id < g.scopes.length) (vs : List Value) :
    (g.bindAll id vs).Built := by
  induction vs generalizing g with
  | nil => exact h
  | cons v vs ih =>
    refine ih (g := g.bind id v) (h.bind hid v) ?_
    rwa [ScopeGraph.bind, length_modify]

theorem Built.introduce (h : g.Built) (hid : id < g.scopes.length) (function : String)
    (vs : List Value) : (g.introduce id function vs).Built := by
  have hlen : (g.create function (some id)).1.scopes.length = g.scopes.length + 1 :=
    length_add g _
  have hnew : g.scopes.length < (g.create function (some id)).1.scopes.length := by
    rw [hlen]
    exact Nat.lt_succ_self _
  have hcreate : (g.create function (some id)).1.Built := by
    refine h.create function fun o ho => ?_
    cases ho
    exact hid
  have hdeclare := hcreate.declare (Nat.lt_trans hid hnew) hnew
  refine hdeclare.bindAll ?_ vs
  rwa [ScopeGraph.declare, length_modify]

end ScopeGraph

namespace Analysis

variable {a a' : Analysis}

theorem Step.built {n : Node} (hs : Step a n a') (hid : global < a.graph.scopes.length)
    (h : a.graph.Built) : a'.graph.Built := by
  cases hs with
  | assign x nameLine value line =>
    rw [graph_assign]
    exact h.write hid _
  | call function nameLine args line =>
    rw [graph_call]
    exact h.recordCall hid _ _ _
  | declare function params body line =>
    rw [graph_declare]
    exact h.introduce hid _ _
  | dynamic args line _ => exact h
  | inert _ => exact h

theorem built_start (verbose : Bool) : (Analysis.start verbose).graph.Built := by
  have hcreate : (ScopeGraph.create {} "global" none).1.Built := by
    refine ScopeGraph.Built.empty.create "global" fun o ho => ?_
    cases ho
  exact hcreate.write Nat.one_pos requestInput

theorem Reached.built {verbose : Bool} {fed : List Node} (h : Reached verbose fed a) :
    a.graph.Built :=
  (h.induct (P := fun _ a => a.graph.Shaped ∧ a.graph.Built)
    (fun _ _ _ _ hp hs => ⟨hs.shaped hp.1, hs.built hp.1.nonempty hp.2⟩) (fun _ _ _ hp => hp)
    ⟨shaped_start verbose, built_start verbose⟩).2

/-- An assignment that leaves no note about a dropped write has written. -/
theorem write_kept_of_not_noted {x : String} {value : Node}
    (h : (a.assign x value).diagnostics.discarded = a.diagnostics.discarded) :
    (a.graph.write global ((value.infer a.sight x).rename x)).2 = true := by
  rcases hacc : (a.graph.scope global).accepts ((value.infer a.sight x).rename x) with _ | _
  · simp only [assign, ScopeGraph.write_eq_of_not_accepts hacc] at h
    simp [Diagnostics.noteDiscarded] at h
  · rw [ScopeGraph.write_eq_of_accepts hacc]

end Analysis

/-- A write that is kept is what reading the variable gives next exactly if it is the last entry of
its history. Otherwise reading gives the same as before. This holds of every scope in every graph
that can be built, and of every assignment in a session that is not noted as dropped. -/
theorem latest?_write_iff (g : ScopeGraph) (id : ScopeId) (v : Value) (a : Analysis) (x : String)
    (value : Node) :
    (g.Built → id < g.scopes.length → (g.write id v).2 = true →
      ((g.write id v).1.latest? id v.name = some v ↔ (g.scope id).WritesLast v) ∧
        (¬(g.scope id).WritesLast v →
          (g.write id v).1.latest? id v.name = g.latest? id v.name)) ∧
    (∀ verbose fed, Analysis.Reached verbose fed a →
      (a.assign x value).diagnostics.discarded = a.diagnostics.discarded →
      let w := (value.infer a.sight x).rename x
      ((a.assign x value).latest? x = some w ↔ (a.graph.scope Analysis.global).WritesLast w) ∧
        (¬(a.graph.scope Analysis.global).WritesLast w →
          (a.assign x value).latest? x = a.latest? x)) := by
  refine ⟨fun hg hid hw => ScopeGraph.latest?_write (hg.filed id) hid hw, ?_⟩
  intro verbose fed ha hnoted
  have hid : Analysis.global < a.graph.scopes.length := ha.shaped.nonempty
  have := ScopeGraph.latest?_write (ha.built.filed _) hid (Analysis.write_kept_of_not_noted hnoted)
  rw [← Analysis.graph_assign] at this
  exact this

/-- A variable that copies another one, and a second write at the last line of a history. -/
theorem latest?_write_iff_of_program :
    let a := ((Analysis.start false).run
      [.assign (.variable "x" 1) (.int 1 1) 1, .assign (.variable "y" 2) (.int 2 2) 2]).1
    let a' := a.assign "x" (.variable "y" 3)
    (a'.diagnostics.discarded = a.diagnostics.discarded ∧
      a'.latest? "x" = some ⟨"x", .int 2, .int, 2⟩) ∧
    ((a.graph.write Analysis.global ⟨"y", .int 3, .int, 2⟩).2 = true ∧
      (a.graph.write Analysis.global ⟨"y", .int 3, .int, 2⟩).1.latest? Analysis.global "y" =
        some ⟨"y", .int 3, .int, 2⟩) := by
  intro a a'
  have ha : Analysis.Reached false _ a := .run .start _
  obtain ⟨hbuilt, hreached⟩ := latest?_write_iff a.graph Analysis.global ⟨"y", .int 3, .int, 2⟩ a
    "x" (.variable "y" 3)
  refine ⟨⟨by with_unfolding_all rfl, ?_⟩, rfl, ?_⟩
  · have hv : ((Node.variable "y" 3).infer a.sight "x").rename "x" = ⟨"x", .int 2, .int, 2⟩ := by
      with_unfolding_all rfl
    have hlast : (a.graph.scope Analysis.global).WritesLast ⟨"x", .int 2, .int, 2⟩ :=
      .inl (by decide)
    rw [← hv] at hlast ⊢
    exact (hreached false _ ha (by with_unfolding_all rfl)).1.2 hlast
  · have hlast : (a.graph.scope Analysis.global).WritesLast ⟨"y", .int 3, .int, 2⟩ := .inr rfl
    exact (hbuilt ha.built ha.shaped.nonempty rfl).1.2 hlast

/-- After `x = 1`, `y = x` and `x = 2`, copying `y` back to `x` is kept, but under the first line
of the history, and the entry of the third line still hides it. -/
theorem latest?_ne_after_copying_back :
    let a := ((Analysis.start false).run
      [.assign (.variable "x" 1) (.int 1 1) 1, .assign (.variable "y" 2) (.variable "x" 2) 2,
        .assign (.variable "x" 3) (.int 2 3) 3]).1
    let v := ((Node.variable "y" 4).infer a.sight "x").rename "x"
    let a' := a.assign "x" (.variable "y" 4)
    (a.graph.write Analysis.global v).2 = true ∧
      a'.diagnostics.discarded = a.diagnostics.discarded ∧
      v = ⟨"x", .int 1, .int, 1⟩ ∧ a'.latest? "x" = some ⟨"x", .int 2, .int, 3⟩ := by
  refine ⟨?_, ?_, ?_, ?_⟩ <;> with_unfolding_all rfl

end ValueTrace
