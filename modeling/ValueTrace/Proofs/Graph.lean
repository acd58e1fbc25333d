import ValueTrace.Proofs.Table
import ValueTrace.Scope.Graph

/-!
# What the operations on graphs do to each scope

Every change of a graph is a chain of `modify` and `add`, so each operation changes the one or two
scopes it is about, and a new scope never shares anything with an old one. The two compound
operations are cut into parts: `introduce` declares a function with its parameters, and `fileCall`
files one call of a function that is known.
-/

namespace ValueTrace

/-- Parameters after further ones have been bound, each under its own name. -/
def Table.overlay (t : Table String Value) (vs : List Value) : Table String Value :=
  t.insertAll (vs.map fun v => (v.name, v))

theorem Table.mem_values_overlay {t : Table String Value} {vs : List Value} {v : Value}
    (h : v ∈ (t.overlay vs).values) : v ∈ vs ∨ v ∈ t.values := by
  rcases mem_values_insertAll h with hv | hv
  · obtain ⟨e, he, rfl⟩ := List.mem_map.1 hv
    obtain ⟨w, hw, rfl⟩ := List.mem_map.1 he
    exact .inl hw
  · exact .inr hv

namespace ScopeGraph

variable {g : ScopeGraph} {id id' : ScopeId}

/-! ## Changing and adding one scope -/

theorem length_modify (g : ScopeGraph) (id : ScopeId) (f : Scope → Scope) :
    (g.modify id f).scopes.length = g.scopes.length :=
  List.length_modify f g.scopes id

theorem scope_modify_self (h : id < g.scopes.length) (f : Scope → Scope) :
    (g.modify id f).scope id = f (g.scope id) := by
  simp [scope, modify, List.getElem?_eq_getElem h]

theorem scope_modify_of_ne (h : id' ≠ id) (f : Scope → Scope) :
    (g.modify id f).scope id' = g.scope id' := by
  simp [scope, modify, h.symm]

theorem length_add (g : ScopeGraph) (s : Scope) :
    (g.add s).1.scopes.length = g.scopes.length + 1 := by
  simp [add]

theorem scope_add_self (g : ScopeGraph) (s : Scope) : (g.add s).1.scope g.scopes.length = s := by
  simp [scope, add]

theorem scope_add_of_lt (h : id < g.scopes.length) (s : Scope) :
    (g.add s).1.scope id = g.scope id := by
  simp [scope, add, List.getElem?_append_left h]

/-! ## Binding several parameters -/

/-- Gives parameters of one scope values. -/
def bindAll (g : ScopeGraph) (id : ScopeId) (vs : List Value) : ScopeGraph :=
  vs.foldl (fun g v => g.bind id v) g

theorem length_bindAll (g : ScopeGraph) (id : ScopeId) (vs : List Value) :
    (g.bindAll id vs).scopes.length = g.scopes.length := by
  induction vs generalizing g with
  | nil => rfl
  | cons v vs ih => exact (ih (g.bind id v)).trans (length_modify g id _)

theorem scope_bindAll_self (h : id < g.scopes.length) (vs : List Value) :
    (g.bindAll id vs).scope id =
      { g.scope id with parameters := (g.scope id).parameters.overlay vs } := by
  induction vs generalizing g with
  | nil => rfl
  | cons v vs ih =>
    have hb : (g.bind id v).scope id = (g.scope id).bind v := scope_modify_self h _
    have := ih (g := g.bind id v) (by rwa [bind, length_modify])
    rw [hb] at this
    exact this

theorem scope_bindAll_of_ne (h : id' ≠ id) (vs : List Value) :
    (g.bindAll id vs).scope id' = g.scope id' := by
  induction vs generalizing g with
  | nil => rfl
  | cons v vs ih => exact (ih (g := g.bind id v)).trans (scope_modify_of_ne h _)

/-! ## Declaring a function -/

/-- Declares a function in a scope and gives its parameters values. -/
def introduce (g : ScopeGraph) (id : ScopeId) (function : String) (vs : List Value) : ScopeGraph :=
  ((g.create function (some id)).1.declare id g.scopes.length).bindAll g.scopes.length vs

theorem length_introduce (g : ScopeGraph) (id : ScopeId) (function : String) (vs : List Value) :
    (g.introduce id function vs).scopes.length = g.scopes.length + 1 := by
  rw [introduce, length_bindAll, declare, length_modify, create, length_add]

theorem scope_introduce_self (h : id < g.scopes.length) (function : String) (vs : List Value) :
    (g.introduce id function vs).scope g.scopes.length =
      { name := function, outer := some id,
        parameters := (∅ : Table String Value).overlay vs } := by
  have hd : ((g.create function (some id)).1.declare id g.scopes.length).scope g.scopes.length =
      { name := function, outer := some id } := by
    rw [declare, scope_modify_of_ne (Nat.ne_of_gt h), create, scope_add_self]
  rw [introduce, scope_bindAll_self, hd]
  rw [declare, length_modify, create, length_add]
  exact Nat.lt_succ_self _

theorem scope_introduce_outer (h : id < g.scopes.length) (function : String) (vs : List Value) :
    (g.introduce id function vs).scope id =
      { g.scope id with functions := (g.scope id).functions.insert function g.scopes.length } := by
  have hlt : id < (g.create function (some id)).1.scopes.length := by
    rw [create, length_add]
    exact Nat.lt_succ_of_lt h
  rw [introduce, scope_bindAll_of_ne (Nat.ne_of_lt h), declare, scope_modify_self hlt, create,
    scope_add_self, scope_add_of_lt h]

theorem scope_introduce_of_ne (h : id' < g.scopes.length) (hne : id' ≠ id) (function : String)
    (vs : List Value) : (g.introduce id function vs).scope id' = g.scope id' := by
  rw [introduce, scope_bindAll_of_ne (Nat.ne_of_lt h), declare, scope_modify_of_ne hne, create,
    scope_add_of_lt h]

/-! ## Filing a call -/

/-- Files a call of a known function under a line. -/
def fileCall (g : ScopeGraph) (f : ScopeId) (line : Int) (vs : List Value) : ScopeGraph :=
  ((g.add (g.scope f).instantiate).1.modify f fun s =>
    { s with calls := s.calls.insert line g.scopes.length }).bindAll g.scopes.length vs

theorem recordCall_known {function : String} {f : ScopeId}
    (h : (g.scope id).functions.get? function = some f) (v : Value) (vs : List Value)
    (line : Option Int) :
    (g.recordCall id function (v :: vs) line).1 = g.fileCall f (line.getD v.line) (v :: vs) := by
  simp only [recordCall, callee, h]
  rfl

/-- A call of a function that is not known is filed like one of a function declared just before,
without parameters. -/
theorem recordCall_unknown {function : String} (h : (g.scope id).functions.get? function = none)
    (v : Value) (vs : List Value) (line : Option Int) :
    (g.recordCall id function (v :: vs) line).1 =
      (g.introduce id function []).fileCall g.scopes.length (line.getD v.line) (v :: vs) := by
  simp only [recordCall, callee, h]
  rfl

theorem length_fileCall (g : ScopeGraph) (f : ScopeId) (line : Int) (vs : List Value) :
    (g.fileCall f line vs).scopes.length = g.scopes.length + 1 := by
  rw [fileCall, length_bindAll, length_modify, length_add]

theorem length_le_recordCall (g : ScopeGraph) (id : ScopeId) (function : String)
    (vs : List Value) (line : Option Int) :
    g.scopes.length ≤ (g.recordCall id function vs line).1.scopes.length := by
  cases vs with
  | nil => exact Nat.le_refl _
  | cons v vs =>
    rcases hf : (g.scope id).functions.get? function with _ | f
    · rw [recordCall_unknown hf, length_fileCall, length_introduce]
      omega
    · rw [recordCall_known hf, length_fileCall]
      exact Nat.le_succ _

variable {f : ScopeId}

theorem scope_fileCall_self (h : f < g.scopes.length) (line : Int) (vs : List Value) :
    (g.fileCall f line vs).scope g.scopes.length =
      { name := (g.scope f).name, outer := (g.scope f).outer,
        parameters := (g.scope f).parameters.overlay vs } := by
  rw [fileCall, scope_bindAll_self, scope_modify_of_ne (Nat.ne_of_gt h), scope_add_self]
  · rfl
  · rw [length_modify, length_add]
    exact Nat.lt_succ_self _

theorem scope_fileCall_function (h : f < g.scopes.length) (line : Int) (vs : List Value) :
    (g.fileCall f line vs).scope f =
      { g.scope f with calls := (g.scope f).calls.insert line g.scopes.length } := by
  have hlt : f < (g.add (g.scope f).instantiate).1.scopes.length := by
    rw [length_add]
    exact Nat.lt_succ_of_lt h
  rw [fileCall, scope_bindAll_of_ne (Nat.ne_of_lt h), scope_modify_self hlt, scope_add_of_lt h]

theorem scope_fileCall_of_ne (h : id < g.scopes.length) (hne : id ≠ f) (line : Int)
    (vs : List Value) : (g.fileCall f line vs).scope id = g.scope id := by
  rw [fileCall, scope_bindAll_of_ne (Nat.ne_of_lt h), scope_modify_of_ne hne, scope_add_of_lt h]

/-! ## Writing to a variable -/

theorem write_eq_of_accepts {v : Value} (h : (g.scope id).accepts v = true) :
    g.write id v = (g.modify id (·.write v), true) := by
  rw [write, if_pos h]

theorem write_eq_of_not_accepts {v : Value} (h : (g.scope id).accepts v = false) :
    g.write id v = (g, false) := by
  rw [write, if_neg (by simp [h])]

theorem write_snd (g : ScopeGraph) (id : ScopeId) (v : Value) :
    (g.write id v).2 = (g.scope id).accepts v := by
  rcases h : (g.scope id).accepts v with _ | _
  · rw [write_eq_of_not_accepts h]
  · rw [write_eq_of_accepts h]

theorem length_write (g : ScopeGraph) (id : ScopeId) (v : Value) :
    (g.write id v).1.scopes.length = g.scopes.length := by
  unfold write
  split_ifs
  · exact length_modify g id _
  · rfl

theorem scope_write_of_ne (h : id' ≠ id) (v : Value) :
    (g.write id v).1.scope id' = g.scope id' := by
  unfold write
  split_ifs
  · exact scope_modify_of_ne h _
  · rfl

theorem scope_write_self (h : id < g.scopes.length) (v : Value) :
    (g.write id v).1.scope id =
      if (g.scope id).accepts v then (g.scope id).write v else g.scope id := by
  unfold write
  split_ifs
  · exact scope_modify_self h _
  · rfl

/-- After a write the histories hold what was written and what they held before. -/
theorem mem_history_write (h : id < g.scopes.length) {v w : Value} {history : History}
    (hh : history ∈ ((g.write id v).1.scope id).histories.values) (hw : w ∈ history.values) :
    w = v ∨ ∃ old ∈ (g.scope id).histories.values, w ∈ old.values := by
  rw [scope_write_self h] at hh
  split_ifs at hh
  · rcases Table.mem_values_insert hh with rfl | hh
    · refine (Table.mem_values_insert hw).imp_right fun hw => ?_
      rcases hx : (g.scope id).histories.get? v.name with _ | old
      · rw [Scope.ownHistory, hx] at hw
        cases hw
      · rw [Scope.ownHistory, hx] at hw
        exact ⟨old, Table.mem_values.2 ⟨_, Table.mem_entries_of_get? hx⟩, hw⟩
    · exact .inr ⟨history, hh, hw⟩
  · exact .inr ⟨history, hh, hw⟩

/-! ## Looking up a variable -/

theorem history_of_get? {x : String} {h : History} (hx : (g.scope id).histories.get? x = some h) :
    g.history id x = h.values := by
  rw [history, hx]

theorem history_of_outermost {x : String} (hx : (g.scope id).histories.get? x = none)
    (ho : (g.scope id).outer = none) : g.history id x = [] := by
  rw [history, hx]
  simp [ho]

theorem latest?_of_get? {x : String} {h : History} (hx : (g.scope id).histories.get? x = some h) :
    g.latest? id x = h.last? := by
  rw [latest?, history_of_get? hx, Table.last?]

end ScopeGraph

end ValueTrace
