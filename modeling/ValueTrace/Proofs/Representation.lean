import ValueTrace.Proofs.History

/-!
# Scopes under arbitrary use

Any operation may be performed on any scope that exists: scopes can be declared anywhere, also in
themselves, and calls can be recorded with any values. `Linked` says how the scopes of a graph hang
together after that. It is kept by every change of one scope that leaves its name and its outer
scope alone and by every new scope (`Linked.modify`, `Linked.add`), and so by every operation. The
scope around another is always an older one, so each scope has a finite `OuterChain`, along which
variables are looked up. The main result lists what holds of every scope.
-/

namespace ValueTrace

/-- How a scope hangs together with the others, as the scope with the given identifier. -/
structure Scope.Linked (g : ScopeGraph) (id : ScopeId) (s : Scope) : Prop where
  outer : ∀ o, s.outer = some o → o < id
  parameters : ∀ e ∈ s.parameters.entries, e.2.name = e.1
  functions : ∀ e ∈ s.functions.entries, e.2 < g.scopes.length ∧ (g.scope e.2).name = e.1
  calls : ∀ e ∈ s.calls.entries, e.2 < g.scopes.length ∧ (g.scope e.2).name = s.name ∧
    (g.scope e.2).outer = s.outer

namespace ScopeGraph

/-- All scopes hang together. -/
def Linked (g : ScopeGraph) : Prop := ∀ id, (g.scope id).Linked g id

variable {g g' : ScopeGraph} {id target : ScopeId} {s : Scope}

/-! ## What is never changed -/

/-- The scopes of the first graph are in the second one, with their names and outer scopes. -/
structure Keeps (g g' : ScopeGraph) : Prop where
  length_le : g.scopes.length ≤ g'.scopes.length
  name_eq : ∀ i < g.scopes.length, (g'.scope i).name = (g.scope i).name
  outer_eq : ∀ i < g.scopes.length, (g'.scope i).outer = (g.scope i).outer

theorem Keeps.linked (hk : Keeps g g') (h : s.Linked g id) : s.Linked g' id := by
  refine ⟨h.outer, h.parameters, fun e he => ?_, fun e he => ?_⟩
  · obtain ⟨hlt, hname⟩ := h.functions e he
    exact ⟨Nat.lt_of_lt_of_le hlt hk.length_le, (hk.name_eq _ hlt).trans hname⟩
  · obtain ⟨hlt, hname, houter⟩ := h.calls e he
    exact ⟨Nat.lt_of_lt_of_le hlt hk.length_le, (hk.name_eq _ hlt).trans hname,
      (hk.outer_eq _ hlt).trans houter⟩

theorem keeps_modify {f : Scope → Scope} (hname : ∀ s, (f s).name = s.name)
    (houter : ∀ s, (f s).outer = s.outer) : Keeps g (g.modify target f) := by
  refine ⟨Nat.le_of_eq (length_modify g target f).symm, fun i hi => ?_, fun i hi => ?_⟩ <;>
    by_cases hne : i = target
  · rw [← hne, scope_modify_self hi, hname]
  · rw [scope_modify_of_ne hne]
  · rw [← hne, scope_modify_self hi, houter]
  · rw [scope_modify_of_ne hne]

theorem keeps_add (g : ScopeGraph) (s : Scope) : Keeps g (g.add s).1 := by
  refine ⟨by rw [length_add]; exact Nat.le_succ _, fun i hi => ?_, fun i hi => ?_⟩ <;>
    rw [scope_add_of_lt hi]

theorem Keeps.refl (g : ScopeGraph) : Keeps g g := ⟨Nat.le_refl _, fun _ _ => rfl, fun _ _ => rfl⟩

theorem Keeps.trans {g'' : ScopeGraph} (h : Keeps g g') (h' : Keeps g' g'') : Keeps g g'' := by
  refine ⟨Nat.le_trans h.length_le h'.length_le, fun i hi => ?_, fun i hi => ?_⟩ <;>
    have hi' := Nat.lt_of_lt_of_le hi h.length_le
  · rw [h'.name_eq i hi', h.name_eq i hi]
  · rw [h'.outer_eq i hi', h.outer_eq i hi]

theorem keeps_write (g : ScopeGraph) (id : ScopeId) (v : Value) : Keeps g (g.write id v).1 := by
  unfold write
  split_ifs
  · exact keeps_modify (fun _ => rfl) fun _ => rfl
  · exact .refl g

theorem keeps_bindAll (g : ScopeGraph) (id : ScopeId) (vs : List Value) :
    Keeps g (g.bindAll id vs) := by
  induction vs generalizing g with
  | nil => exact .refl g
  | cons v vs ih =>
    have hbind : Keeps g (g.bind id v) := keeps_modify (fun _ => rfl) fun _ => rfl
    exact hbind.trans (ih (g.bind id v))

theorem keeps_introduce (g : ScopeGraph) (id : ScopeId) (function : String) (vs : List Value) :
    Keeps g (g.introduce id function vs) := by
  have hadd : Keeps g (g.create function (some id)).1 := keeps_add g _
  have hdeclare : Keeps (g.create function (some id)).1
      ((g.create function (some id)).1.declare id g.scopes.length) :=
    keeps_modify (fun _ => rfl) fun _ => rfl
  exact (hadd.trans hdeclare).trans (keeps_bindAll _ _ vs)

theorem keeps_fileCall (g : ScopeGraph) (f : ScopeId) (line : Int) (vs : List Value) :
    Keeps g (g.fileCall f line vs) := by
  have hadd : Keeps g (g.add (g.scope f).instantiate).1 := keeps_add g _
  have hfile : Keeps (g.add (g.scope f).instantiate).1
      ((g.add (g.scope f).instantiate).1.modify f
        fun s => { s with calls := s.calls.insert line g.scopes.length }) :=
    keeps_modify (fun _ => rfl) fun _ => rfl
  exact (hadd.trans hfile).trans (keeps_bindAll _ _ vs)

theorem keeps_recordCall (g : ScopeGraph) (id : ScopeId) (function : String) (vs : List Value)
    (line : Option Int) : Keeps g (g.recordCall id function vs line).1 := by
  cases vs with
  | nil => exact .refl g
  | cons v vs =>
    rcases hf : (g.scope id).functions.get? function with _ | f
    · rw [recordCall_unknown hf]
      exact (keeps_introduce ..).trans (keeps_fileCall ..)
    · rw [recordCall_known hf]
      exact keeps_fileCall ..

/-! ## Changing and adding one scope -/

theorem linked_default (g : ScopeGraph) (id : ScopeId) : (default : Scope).Linked g id :=
  ⟨nofun, nofun, nofun, nofun⟩

theorem linked_empty : Linked {} := by
  intro id
  rw [scope_of_le (Nat.zero_le id)]
  exact linked_default _ id

theorem Linked.modify (h : g.Linked) {f : Scope → Scope} (hname : ∀ s, (f s).name = s.name)
    (houter : ∀ s, (f s).outer = s.outer) (hf : (f (g.scope target)).Linked g target) :
    (g.modify target f).Linked := by
  intro id
  apply (keeps_modify hname houter).linked
  by_cases hne : id = target
  · subst hne
    by_cases hid : id < g.scopes.length
    · rw [scope_modify_self hid]
      exact hf
    · rw [scope_of_le (by rw [length_modify]; exact Nat.le_of_not_lt hid)]
      exact linked_default g id
  · rw [scope_modify_of_ne hne]
    exact h id

theorem Linked.add (h : g.Linked) (hs : s.Linked g g.scopes.length) : (g.add s).1.Linked := by
  intro id
  apply (keeps_add g s).linked
  rcases Nat.lt_trichotomy id g.scopes.length with hid | rfl | hid
  · rw [scope_add_of_lt hid]
    exact h id
  · rw [scope_add_self]
    exact hs
  · rw [scope_of_le (by rw [length_add]; exact hid)]
    exact linked_default g id

/-! ## The operations -/

theorem Linked.create (h : g.Linked) (name : String) {outer : Option ScopeId}
    (ho : ∀ o ∈ outer, o < g.scopes.length) : (g.create name outer).1.Linked :=
  h.add ⟨ho, nofun, nofun, nofun⟩

theorem Linked.write (h : g.Linked) (id : ScopeId) (v : Value) : (g.write id v).1.Linked := by
  unfold ScopeGraph.write
  split_ifs
  · obtain ⟨houter, hparameters, hfunctions, hcalls⟩ := h id
    exact h.modify (fun _ => rfl) (fun _ => rfl) ⟨houter, hparameters, hfunctions, hcalls⟩
  · exact h

theorem Linked.bind (h : g.Linked) (id : ScopeId) (v : Value) : (g.bind id v).Linked := by
  obtain ⟨houter, hparameters, hfunctions, hcalls⟩ := h id
  refine h.modify (fun _ => rfl) (fun _ => rfl) ⟨houter, fun e he => ?_, hfunctions, hcalls⟩
  rcases Table.mem_entries_insert he with rfl | he
  · rfl
  · exact hparameters e he

theorem Linked.bindAll (h : g.Linked) (id : ScopeId) (vs : List Value) :
    (g.bindAll id vs).Linked := by
  induction vs generalizing g with
  | nil => exact h
  | cons v vs ih => exact ih (h.bind id v)

theorem Linked.declare (h : g.Linked) (id : ScopeId) {child : ScopeId}
    (hchild : child < g.scopes.length) : (g.declare id child).Linked := by
  obtain ⟨houter, hparameters, hfunctions, hcalls⟩ := h id
  refine h.modify (fun _ => rfl) (fun _ => rfl) ⟨houter, hparameters, fun e he => ?_, hcalls⟩
  rcases Table.mem_entries_insert he with rfl | he
  · exact ⟨hchild, rfl⟩
  · exact hfunctions e he

theorem Linked.instantiate (h : g.Linked) (hid : id < g.scopes.length) :
    (g.instantiate id).1.Linked :=
  h.add ⟨fun o ho => Nat.lt_trans ((h id).outer o ho) hid, (h id).parameters, nofun, nofun⟩

theorem Linked.introduce (h : g.Linked) (hid : id < g.scopes.length) (function : String)
    (vs : List Value) : (g.introduce id function vs).Linked := by
  have hcreate : (g.create function (some id)).1.Linked := by
    refine h.create function fun o ho => ?_
    cases ho
    exact hid
  refine (hcreate.declare id ?_).bindAll _ vs
  rw [ScopeGraph.create, length_add]
  exact Nat.lt_succ_self _

theorem Linked.fileCall (h : g.Linked) {f : ScopeId} (hf : f < g.scopes.length) (line : Int)
    (vs : List Value) : (g.fileCall f line vs).Linked := by
  have hadd : (g.add (g.scope f).instantiate).1.Linked := h.instantiate hf
  unfold ScopeGraph.fileCall
  refine Linked.bindAll ?_ _ vs
  refine hadd.modify (fun _ => rfl) (fun _ => rfl) ?_
  obtain ⟨houter, hparameters, hfunctions, hcalls⟩ := hadd f
  refine ⟨houter, hparameters, hfunctions, fun e he => ?_⟩
  rcases Table.mem_entries_insert he with rfl | he
  · -- The new scope has the name and the outer scope of the function's scope.
    rw [length_add, scope_add_self, scope_add_of_lt hf]
    exact ⟨Nat.lt_succ_self _, rfl, rfl⟩
  · exact hcalls e he

theorem Linked.recordCall (h : g.Linked) (hid : id < g.scopes.length) (function : String)
    (vs : List Value) (line : Option Int) : (g.recordCall id function vs line).1.Linked := by
  cases vs with
  | nil => exact h
  | cons v vs =>
    rcases hf : (g.scope id).functions.get? function with _ | f
    · rw [recordCall_unknown hf]
      refine (h.introduce hid function []).fileCall ?_ _ _
      rw [length_introduce]
      exact Nat.lt_succ_self _
    · rw [recordCall_known hf]
      exact h.fileCall ((h id).functions _ (Table.mem_entries_of_get? hf)).1 _ _

theorem Built.linked (h : g.Built) : g.Linked := by
  induction h with
  | empty => exact linked_empty
  | create _ name ho ih => exact ih.create name ho
  | write _ _ v ih => exact ih.write _ v
  | bind _ _ v ih => exact ih.bind _ v
  | declare _ _ hchild ih => exact ih.declare _ hchild
  | instantiate _ hid ih => exact ih.instantiate hid
  | recordCall _ hid function vs line ih => exact ih.recordCall hid function vs line

/-! ## Chains of outer scopes -/

/-- A scope, the scope around it and so on, up to one that has none around it. -/
inductive OuterChain (g : ScopeGraph) : ScopeId → List ScopeId → Prop
  | outermost {id : ScopeId} (h : (g.scope id).outer = none) : OuterChain g id [id]
  | inner {id o : ScopeId} {chain : List ScopeId} (h : (g.scope id).outer = some o)
    (hc : OuterChain g o chain) : OuterChain g id (id :: chain)

theorem Linked.exists_outerChain (h : g.Linked) (id : ScopeId) :
    ∃ chain, g.OuterChain id chain := by
  induction id using Nat.strongRecOn with
  | ind id ih =>
    rcases ho : (g.scope id).outer with _ | o
    · exact ⟨[id], .outermost ho⟩
    · obtain ⟨chain, hc⟩ := ih o ((h id).outer o ho)
      exact ⟨id :: chain, .inner ho hc⟩

theorem Linked.depth_eq (h : g.Linked) (id : ScopeId) :
    g.depth id = (g.scope id).outer.elim 0 fun o => g.depth o + 1 := by
  rw [depth]
  split
  · next ho => rw [ho, Option.elim_none]
  · next o ho => rw [ho, Option.elim_some, if_pos ((h id).outer o ho)]

theorem Linked.history_eq (h : g.Linked) (id : ScopeId) (x : String) :
    g.history id x = ((g.scope id).histories.get? x).elim
      ((g.scope id).outer.elim [] fun o => g.history o x) Table.values := by
  rw [history]
  split
  · next hx => rw [hx, Option.elim_some]
  · next hx =>
    rw [hx, Option.elim_none]
    split
    · next ho => rw [ho, Option.elim_none]
    · next o ho => rw [ho, Option.elim_some, if_pos ((h id).outer o ho)]

variable {chain : List ScopeId}

theorem OuterChain.length_eq (hc : g.OuterChain id chain) (h : g.Linked) :
    chain.length = g.depth id + 1 := by
  induction hc with
  | outermost ho => rw [h.depth_eq, ho, Option.elim_none, List.length_singleton]
  | inner ho _ ih => rw [h.depth_eq, ho, Option.elim_some, List.length_cons, ih]

/-- Looking up takes the first history on the chain. -/
theorem OuterChain.history_eq (hc : g.OuterChain id chain) (h : g.Linked) (x : String) :
    g.history id x =
      (chain.findSome? fun i => (g.scope i).histories.get? x).elim [] Table.values := by
  induction hc with
  | outermost ho =>
    rw [h.history_eq, ho, List.findSome?_cons]
    rcases (g.scope _).histories.get? x with _ | history <;> rfl
  | inner ho _ ih =>
    rw [h.history_eq, ho, List.findSome?_cons, Option.elim_some, ih]
    rcases (g.scope _).histories.get? x with _ | history <;> rfl

theorem OuterChain.history_of_first (hc : g.OuterChain id chain) (h : g.Linked) {x : String}
    {before after : List ScopeId} {i : ScopeId} {history : History}
    (hchain : chain = before ++ i :: after)
    (hbefore : ∀ j ∈ before, (g.scope j).histories.get? x = none)
    (hi : (g.scope i).histories.get? x = some history) : g.history id x = history.values := by
  rw [hc.history_eq h, hchain, List.findSome?_append, List.findSome?_eq_none_iff.2 hbefore,
    Option.none_or, List.findSome?_cons, hi, Option.elim_some]

/-- Nothing is found exactly if there is no history on the chain, as histories are not empty. -/
theorem OuterChain.history_eq_nil_iff (hc : g.OuterChain id chain) (h : g.Built) (x : String) :
    g.history id x = [] ↔ ∀ i ∈ chain, (g.scope i).histories.get? x = none := by
  rw [hc.history_eq h.linked, ← List.findSome?_eq_none_iff]
  rcases hfind : chain.findSome? fun i => (g.scope i).histories.get? x with _ | history
  · exact iff_of_true rfl rfl
  · obtain ⟨i, -, hi⟩ := List.exists_of_findSome?_eq_some hfind
    have hne : history.entries ≠ [] := (h.filed i x history hi).nonempty
    rw [Option.elim_some, Table.values, List.map_eq_nil_iff]
    exact iff_of_false hne (Option.some_ne_none history)

/-! ## Sequences of operations -/

/-- An operation on scopes. -/
inductive Operation where
  | create (name : String) (outer : Option ScopeId)
  | write (id : ScopeId) (v : Value)
  | bind (id : ScopeId) (v : Value)
  | declare (id child : ScopeId)
  /-- The arguments stand under keys that need not be the names of their values. -/
  | recordCall (id : ScopeId) (function : String) (arguments : Table String Value)
    (line : Option Int)
  | instantiate (id : ScopeId)

/-- The scopes that an operation is given. -/
def Operation.operands : Operation → List ScopeId
  | .create _ outer => outer.toList
  | .write id _ | .bind id _ | .recordCall id _ _ _ | .instantiate id => [id]
  | .declare id child => [id, child]

/-- The graph after one operation. -/
def perform (g : ScopeGraph) : Operation → ScopeGraph
  | .create name outer => (g.create name outer).1
  | .write id v => (g.write id v).1
  | .bind id v => g.bind id v
  | .declare id child => g.declare id child
  | .recordCall id function arguments line =>
    (g.recordCall id function arguments.values line).1
  | .instantiate id => (g.instantiate id).1

/-- The graph after operations that are performed in order. -/
def performAll (g : ScopeGraph) (ops : List Operation) : ScopeGraph := ops.foldl perform g

/-- Whether each operation is given scopes that exist when it is performed. -/
def Admissible (g : ScopeGraph) : List Operation → Prop
  | [] => True
  | op :: ops => (∀ id ∈ op.operands, id < g.scopes.length) ∧ (g.perform op).Admissible ops

/-- Whether a value was ever written to a variable in a scope, in a sequence of operations that
starts from no scopes. -/
def Recorded (ops : List Operation) (id : ScopeId) (x : String) : Prop :=
  ∃ before v after, ops = before ++ .write id v :: after ∧ v.name = x ∧
    ((performAll {} before).write id v).2 = true

variable {op : Operation} {ops : List Operation}

theorem performAll_concat (g : ScopeGraph) (ops : List Operation) (op : Operation) :
    g.performAll (ops ++ [op]) = (g.performAll ops).perform op :=
  List.foldl_concat ..

theorem admissible_concat :
    g.Admissible (ops ++ [op]) ↔
      g.Admissible ops ∧ ∀ id ∈ op.operands, id < (g.performAll ops).scopes.length := by
  induction ops generalizing g with
  | nil => simp [Admissible, performAll]
  | cons op' ops ih =>
    rw [List.cons_append, Admissible, Admissible, ih, and_assoc]
    rfl

theorem Admissible.of_append_left {ops' : List Operation} (h : g.Admissible (ops ++ ops')) :
    g.Admissible ops := by
  induction ops generalizing g with
  | nil => trivial
  | cons op ops ih => exact ⟨h.1, ih h.2⟩

theorem keeps_perform (g : ScopeGraph) (op : Operation) : Keeps g (g.perform op) := by
  cases op with
  | create name outer => exact keeps_add g _
  | write id v => exact keeps_write g id v
  | bind id v => exact keeps_modify (fun _ => rfl) fun _ => rfl
  | declare id child => exact keeps_modify (fun _ => rfl) fun _ => rfl
  | recordCall id function arguments line => exact keeps_recordCall ..
  | instantiate id => exact keeps_add g _

theorem Built.perform (h : g.Built) (hop : ∀ id ∈ op.operands, id < g.scopes.length) :
    (g.perform op).Built := by
  cases op with
  | create name outer => exact h.create name fun o ho => hop o (Option.mem_toList.2 ho)
  | write id v => exact h.write (hop id List.mem_cons_self) v
  | bind id v => exact h.bind (hop id List.mem_cons_self) v
  | declare id child =>
    exact h.declare (hop id List.mem_cons_self) (hop child (List.mem_cons_of_mem _ (.head _)))
  | recordCall id function arguments line =>
    exact h.recordCall (hop id List.mem_cons_self) function _ line
  | instantiate id => exact h.instantiate (hop id List.mem_cons_self)

theorem built_performAll (h : Admissible {} ops) : (performAll {} ops).Built := by
  induction ops using List.reverseRecOn with
  | nil => exact .empty
  | append_singleton ops op ih =>
    obtain ⟨hops, hop⟩ := admissible_concat.1 h
    rw [performAll_concat]
    exact (ih hops).perform hop

/-- Only a write that is kept changes the histories of a scope. -/
theorem histories_perform (hop : ∀ id ∈ op.operands, id < g.scopes.length) (id : ScopeId) :
    (∃ v, op = .write id v ∧ (g.write id v).2 = true ∧
      ((g.perform op).scope id).histories = ((g.scope id).write v).histories) ∨
    ((∀ v, op = .write id v → (g.write id v).2 = false) ∧
      ((g.perform op).scope id).histories = (g.scope id).histories) := by
  cases op with
  | create name outer => exact .inr ⟨nofun, histories_create name outer id⟩
  | write target v =>
    by_cases hne : id = target
    · subst hne
      have hself := scope_write_self (hop id List.mem_cons_self) v
      rcases hacc : (g.scope id).accepts v with _ | _
      · rw [hacc, if_neg Bool.false_ne_true] at hself
        refine .inr ⟨fun w hw => ?_, congrArg Scope.histories hself⟩
        cases hw
        rw [write_eq_of_not_accepts hacc]
      · rw [hacc, if_pos rfl] at hself
        refine .inl ⟨v, rfl, ?_, congrArg Scope.histories hself⟩
        rw [write_eq_of_accepts hacc]
    · refine .inr ⟨fun w hw => ?_, congrArg Scope.histories (scope_write_of_ne hne v)⟩
      cases hw
      exact absurd rfl hne
  | bind target v => exact .inr ⟨nofun, histories_bind target id v⟩
  | declare target child => exact .inr ⟨nofun, histories_declare target child id⟩
  | recordCall target function arguments line =>
    exact .inr ⟨nofun, histories_recordCall target id function _ line⟩
  | instantiate target => exact .inr ⟨nofun, histories_instantiate target id⟩

theorem recorded_concat {x : String} :
    Recorded (ops ++ [op]) id x ↔ Recorded ops id x ∨
      ∃ v, op = .write id v ∧ v.name = x ∧ ((performAll {} ops).write id v).2 = true := by
  constructor
  · rintro ⟨before, v, after, hops, hx, hw⟩
    rcases List.eq_nil_or_concat' after with rfl | ⟨after, op', rfl⟩
    · obtain ⟨rfl, hop⟩ := List.append_inj' hops rfl
      exact .inr ⟨v, List.head_eq_of_cons_eq hop, hx, hw⟩
    · rw [← List.cons_append, ← List.append_assoc] at hops
      exact .inl ⟨before, v, after, (List.append_inj' hops rfl).1, hx, hw⟩
  · rintro (⟨before, v, after, rfl, hx, hw⟩ | ⟨v, rfl, hx, hw⟩)
    · exact ⟨before, v, after ++ [op], by simp, hx, hw⟩
    · exact ⟨ops, v, [], rfl, hx, hw⟩

/-- A scope has a history of the variables that were ever written in it, and of no others. -/
theorem isSome_get?_iff_recorded (h : Admissible {} ops) (id : ScopeId) (x : String) :
    (((performAll {} ops).scope id).histories.get? x).isSome = true ↔ Recorded ops id x := by
  induction ops using List.reverseRecOn with
  | nil =>
    refine iff_of_false ?_ ?_
    · rw [performAll, List.foldl_nil, scope_of_le (Nat.zero_le id)]
      exact Bool.false_ne_true
    · rintro ⟨before, v, after, hops, -⟩
      exact absurd hops.symm (by simp)
  | append_singleton ops op ih =>
    obtain ⟨hops, hop⟩ := admissible_concat.1 h
    rw [performAll_concat, recorded_concat, ← ih hops]
    rcases histories_perform hop id with ⟨v, rfl, hw, hhistories⟩ | ⟨hdropped, hhistories⟩
    · rw [hhistories]
      by_cases hx : x = v.name
      · subst hx
        rw [Scope.get?_write_self]
        exact iff_of_true rfl (.inr ⟨v, rfl, rfl, hw⟩)
      · rw [Scope.get?_write_of_ne _ hx, or_iff_left]
        rintro ⟨w, hop, hwx, -⟩
        cases hop
        exact hx hwx.symm
    · rw [hhistories, or_iff_left]
      rintro ⟨v, hv, -, hw⟩
      rw [hdropped v hv] at hw
      cases hw

/-- A graph that operations led to, and any of its scopes. Histories are not empty, and everything
stands under its own name and line. The scopes of calls have the name, the outer scope and the depth
of the scope they belong to. The chain of outer scopes is finite and one longer than the scope is
deep. Looking up a variable gives the whole history in the first scope on the chain that it was ever
written in, and nothing exactly if there is none. -/
theorem representation_of_operations (h : Admissible {} ops) (id : ScopeId) :
    let g := performAll {} ops
    id < g.scopes.length →
    (∀ x history, (x, history) ∈ (g.scope id).histories.entries → history.entries ≠ [] ∧
      ∀ line v, (line, v) ∈ history.entries → v.line = line ∧ v.name = x) ∧
    (∀ x v, (x, v) ∈ (g.scope id).parameters.entries → v.name = x) ∧
    (∀ x c, (x, c) ∈ (g.scope id).functions.entries →
      c < g.scopes.length ∧ (g.scope c).name = x) ∧
    (∀ line c, (line, c) ∈ (g.scope id).calls.entries → c < g.scopes.length ∧
      (g.scope c).name = (g.scope id).name ∧ (g.scope c).outer = (g.scope id).outer ∧
      g.depth c = g.depth id) ∧
    (∀ o, (g.scope id).outer = some o → o < g.scopes.length ∧ g.depth id = g.depth o + 1) ∧
    ∃ chain, g.OuterChain id chain ∧ chain.length = g.depth id + 1 ∧ ∀ x,
      (∀ before i after, chain = before ++ i :: after → (∀ j ∈ before, ¬Recorded ops j x) →
        Recorded ops i x → g.history id x = ((g.scope i).ownHistory x).values) ∧
      (g.history id x = [] ↔ ∀ i ∈ chain, ¬Recorded ops i x) := by
  intro g hid
  have hbuilt : g.Built := built_performAll h
  have hlinked : g.Linked := hbuilt.linked
  have hnone (i : ScopeId) (x : String) :
      (g.scope i).histories.get? x = none ↔ ¬Recorded ops i x := by
    rw [← isSome_get?_iff_recorded h, Option.not_isSome_iff_eq_none]
  obtain ⟨houter, hparameters, hfunctions, hcalls⟩ := hlinked id
  obtain ⟨chain, hchain⟩ := hlinked.exists_outerChain id
  refine ⟨fun x history hx => ?_, fun x v hv => hparameters _ hv, fun x c hc => hfunctions _ hc,
    fun line c hc => ?_, fun o ho => ?_, chain, hchain, hchain.length_eq hlinked, fun x => ⟨?_, ?_⟩⟩
  · have hnodup : (g.scope id).histories.keys.Nodup :=
      hbuilt.histories_induct (P := fun t => t.keys.Nodup) List.nodup_nil
        (fun s v hs => Table.nodup_keys_insert hs _ _) id
    have hfiled := hbuilt.filed id x history (Table.get?_of_mem_entries hnodup hx)
    exact ⟨hfiled.nonempty, fun line v hv => (hfiled.own _ hv).symm⟩
  · obtain ⟨hlt, hname, houter'⟩ := hcalls _ hc
    refine ⟨hlt, hname, houter', ?_⟩
    rw [hlinked.depth_eq, houter', ← hlinked.depth_eq]
  · refine ⟨Nat.lt_trans (houter o ho) hid, ?_⟩
    rw [hlinked.depth_eq, ho, Option.elim_some]
  · intro before i after hsplit hbefore hi
    obtain ⟨history, hhistory⟩ :=
      Option.isSome_iff_exists.1 ((isSome_get?_iff_recorded h i x).2 hi)
    rw [Scope.ownHistory_of_get? hhistory]
    exact hchain.history_of_first hlinked hsplit (fun j hj => (hnone j x).2 (hbefore j hj)) hhistory
  · rw [hchain.history_eq_nil_iff hbuilt]
    exact forall₂_congr fun i _ => hnone i x

/-- Two scopes are declared in each other, a write is dropped, and a call is recorded with a key
that is not the name of its value. From the scope of the call the variable is found further out. -/
theorem representation_of_operations_mutual :
    let x : Value := ⟨"x", .int 1, .int, 1⟩
    let ops : List Operation := [.create "g" none, .create "f" (some 0), .declare 0 1, .declare 1 0,
      .write 0 x, .write 0 (.unresolved "x" .unknown 2),
      .recordCall 0 "f" ⟨[("k", ⟨"p", .int 5, .int, 3⟩)]⟩ none]
    let g := performAll {} ops
    Admissible {} ops ∧ (g.scope 2).name = (g.scope 1).name ∧ g.depth 2 = g.depth 1 ∧
      g.depth 1 = g.depth 0 + 1 ∧ (∀ y v, (y, v) ∈ (g.scope 2).parameters.entries → v.name = y) ∧
      g.history 2 "x" = [x] := by
  intro x ops g
  have h : Admissible {} ops :=
    ⟨by decide, by decide, by decide, by decide, by decide, by decide, by decide, trivial⟩
  obtain ⟨-, -, -, hcalls, houter, -⟩ := representation_of_operations h 1 (by decide)
  obtain ⟨-, hparameters, -, -, -, chain, hchain, -, hlookup⟩ :=
    representation_of_operations h 2 (by decide)
  obtain ⟨-, hname, -, hdepth⟩ := hcalls 3 2 (.head _)
  have hsplit : chain = [2] ++ 0 :: [] := by
    cases hchain with
    | outermost ho => cases ho
    | inner ho hrest =>
      cases ho
      cases hrest with
      | outermost => rfl
      | inner ho => cases ho
  have hrecorded : Recorded ops 0 "x" := ⟨ops.take 4, x, ops.drop 5, rfl, rfl, rfl⟩
  have hnot : ¬Recorded ops 2 "x" := by
    rw [← isSome_get?_iff_recorded h]
    exact Bool.false_ne_true
  refine ⟨h, hname, hdepth, (houter 0 rfl).2, hparameters, ?_⟩
  exact (hlookup "x").1 [2] 0 [] hsplit (by simpa using hnot) hrecorded

end ScopeGraph

end ValueTrace
