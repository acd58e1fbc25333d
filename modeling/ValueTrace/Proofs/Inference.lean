import Mathlib.Data.List.Basic
import ValueTrace.Inference

/-!
# Inference by the parts of a node

Most constructs have no rule of their own: their value is settled by the values of their parts
(`infer_of_structural`). `Node.induct` is the induction that goes with this: one case for each rule
of inference, and one for everything that is settled by its parts. The value of a node depends only
on the variables that it `Reads`, which are not those in the arguments of a call (`infer_congr`).
-/

namespace ValueTrace

namespace Node

/-- Whether a node is settled by the values of all its parts. -/
def structural : Node → Bool
  | .variable _ _ | .int _ _ | .float _ _ | .text _ _ | .array _ _ | .call _ _ _ => false
  | _ => true

/-! ## Induction -/

theorem sizeOf_value_lt (i : Item) : sizeOf i.value < sizeOf i := by
  cases i
  simp only [Item.mk.sizeOf_spec]
  omega

theorem sizeOf_key_lt {i : Item} {k : Node} (h : k ∈ i.key) : sizeOf k < sizeOf i := by
  obtain ⟨value, key, line⟩ := i
  cases h
  simp only [Item.mk.sizeOf_spec, Option.some.sizeOf_spec]
  omega

theorem sizeOf_lt_of_mem_children {n c : Node} (h : c ∈ n.children) : sizeOf c < sizeOf n := by
  cases n with
  | «variable» | name | int | float | text => cases h
  | array items line =>
    obtain ⟨i, hi, rfl⟩ := List.mem_map.1 h
    have := List.sizeOf_lt_of_mem hi
    simp only [item.sizeOf_spec, array.sizeOf_spec]
    omega
  | item i =>
    rw [children, List.mem_append, Option.mem_toList, List.mem_singleton] at h
    simp only [item.sizeOf_spec]
    rcases h with hk | rfl
    · have := sizeOf_key_lt hk
      omega
    · have := sizeOf_value_lt i
      omega
  | call callee args line =>
    rw [children, List.mem_cons, List.mem_map] at h
    simp only [call.sizeOf_spec]
    rcases h with rfl | ⟨a, ha, rfl⟩
    · omega
    · have := List.sizeOf_lt_of_mem ha
      simp only [argument.sizeOf_spec]
      omega
  | argument a =>
    obtain ⟨value, name, line⟩ := a
    cases List.mem_singleton.1 h
    simp only [argument.sizeOf_spec, Argument.mk.sizeOf_spec]
    omega
  | operation name operands line =>
    have := List.sizeOf_lt_of_mem (show c ∈ operands from h)
    simp only [operation.sizeOf_spec]
    omega
  | assign target value line =>
    rw [children, List.mem_cons, List.mem_singleton] at h
    simp only [assign.sizeOf_spec]
    rcases h with rfl | rfl <;> omega
  | function name params body line =>
    rw [children, List.mem_append, List.mem_map] at h
    simp only [function.sizeOf_spec]
    rcases h with ⟨p, hp, rfl⟩ | hb
    · have := List.sizeOf_lt_of_mem hp
      simp only [param.sizeOf_spec]
      omega
    · have := List.sizeOf_lt_of_mem hb
      omega
  | param p =>
    obtain ⟨name, default, declaredType, variadic, line⟩ := p
    cases Option.mem_toList.1 h
    simp only [param.sizeOf_spec, Param.mk.sizeOf_spec, Option.some.sizeOf_spec]
    omega
  | statement name operands line =>
    have := List.sizeOf_lt_of_mem (show c ∈ operands from h)
    simp only [statement.sizeOf_spec]
    omega

/-- Induction over the rules of inference. -/
@[elab_as_elim]
theorem induct {P : Node → Prop} (use : ∀ x line, P (.variable x line))
    (int : ∀ n line, P (.int n line)) (float : ∀ x line, P (.float x line))
    (text : ∀ s line, P (.text s line))
    (array : ∀ items line, (∀ i ∈ items, (∀ k ∈ i.key, P k) ∧ P i.value) → P (.array items line))
    (call : ∀ callee args line, P callee → (∀ a ∈ args, P (.argument a)) →
      P (.call callee args line))
    (structural : ∀ n : Node, n.structural = true → (∀ c ∈ n.children, P c) → P n) (n : Node) :
    P n := by
  induction hn : sizeOf n using Nat.strongRecOn generalizing n with
  | _ size ih =>
    subst hn
    have hchild {c : Node} (hc : c ∈ n.children) : P c :=
      ih _ (sizeOf_lt_of_mem_children hc) c rfl
    cases n with
    | «variable» x line => exact use x line
    | int k line => exact int k line
    | float x line => exact float x line
    | text s line => exact text s line
    | array items line =>
      refine array items line fun i hi => ⟨fun k hk => ?_, ?_⟩
      · refine ih _ (Nat.lt_trans (sizeOf_key_lt hk) ?_) k rfl
        exact Nat.lt_trans (List.sizeOf_lt_of_mem hi) (by simp only [Node.array.sizeOf_spec]; omega)
      · refine ih _ (Nat.lt_trans (sizeOf_value_lt i) ?_) i.value rfl
        exact Nat.lt_trans (List.sizeOf_lt_of_mem hi) (by simp only [Node.array.sizeOf_spec]; omega)
    | call callee args line =>
      refine call callee args line (hchild List.mem_cons_self) fun a ha => ?_
      exact hchild (List.mem_cons_of_mem _ (List.mem_map_of_mem ha))
    | _ => exact structural _ rfl fun c hc => hchild hc

/-! ## The rules -/

variable (sight : Sight)

theorem inferAll_eq_map (name : String) (ns : List Node) :
    inferAll sight name ns = ns.map (infer sight name) := by
  induction ns with
  | nil => rw [inferAll, List.map_nil]
  | cons n ns ih => rw [inferAll, ih, List.map_cons]

theorem inferOption_eq_map (name : String) (o : Option Node) :
    inferOption sight name o = o.toList.map (infer sight name) := by
  cases o <;> rw [inferOption] <;> rfl

theorem inferParams_eq_map (name : String) (ps : List Param) :
    inferParams sight name ps = (ps.map .param).map (infer sight name) := by
  induction ps with
  | nil => rw [inferParams, List.map_nil, List.map_nil]
  | cons p ps ih => rw [inferParams, ih, List.map_cons, List.map_cons, infer]

/-- A node without a rule of its own is settled by its parts. -/
theorem infer_of_structural {n : Node} (h : n.structural = true) (name : String) :
    n.infer sight name = .settle name n.line (n.children.map (infer sight name)) := by
  cases n with
  | «variable» | int | float | text | array | call => cases h
  | name identifier line => rw [infer]; rfl
  | item i =>
    obtain ⟨value, key, line⟩ := i
    rw [infer, inferOption_eq_map]
    simp only [children, Node.line, List.map_append, List.map_cons, List.map_nil]
  | argument a =>
    obtain ⟨value, argName, line⟩ := a
    rw [infer]
    rfl
  | operation construct operands line => rw [infer, inferAll_eq_map]; rfl
  | assign target value line => rw [infer]; rfl
  | function f params body line =>
    rw [infer, inferAll_eq_map, inferParams_eq_map]
    simp only [children, Node.line, List.map_append]
  | param p =>
    obtain ⟨paramName, default, declaredType, variadic, line⟩ := p
    rw [infer, inferParam, inferOption_eq_map]
    rfl
  | statement construct operands line => rw [infer, inferAll_eq_map]; rfl

end Node

/-- The type of the key of an item: the one of its key, or that of a number if it has none. -/
def Item.keyType (sight : Sight) (i : Item) (place : Nat) : Ty :=
  match i.key with
  | none => .int
  | some k => (k.infer sight ("key_" ++ toString place)).type

theorem Node.inferItems_eq_map (sight : Sight) (place : Nat) (items : List Item) :
    inferItems sight place items = (items.zipIdx place).map fun e =>
      (e.1.keyType sight e.2, e.1.value.infer sight ("value_" ++ toString e.2)) := by
  induction items generalizing place with
  | nil => rw [inferItems]; rfl
  | cons i items ih =>
    obtain ⟨value, key, line⟩ := i
    cases key <;> simp only [inferItems, inferOption, ih] <;> rfl

namespace Node

/-! ## What is read -/

/-- Whether a variable is used in a node other than in the arguments of a call. -/
inductive Reads (x : String) : Node → Prop
  | use (line : Int) : Reads x (.variable x line)
  | key {items : List Item} {i : Item} {k : Node} (line : Int) (hi : i ∈ items) (hk : k ∈ i.key)
    (h : Reads x k) : Reads x (.array items line)
  | value {items : List Item} {i : Item} (line : Int) (hi : i ∈ items) (h : Reads x i.value) :
    Reads x (.array items line)
  | callee {callee : Node} (args : List Argument) (line : Int) (h : Reads x callee) :
    Reads x (.call callee args line)
  | part {n c : Node} (hn : n.structural = true) (hc : c ∈ n.children) (h : Reads x c) : Reads x n

theorem infer_call (sight : Sight) (name : String) (callee : Node) (args : List Argument)
    (line : Int) :
    (Node.call callee args line).infer sight name =
      .settle name line [callee.infer sight name] := by
  rw [infer]

theorem infer_array (sight : Sight) (name : String) (items : List Item) (line : Int) :
    (Node.array items line).infer sight name = .ofItems name line (items.zipIdx.map fun e =>
      (e.1.keyType sight e.2, e.1.value.infer sight ("value_" ++ toString e.2))) := by
  rw [infer, inferItems_eq_map]

/-- The value of a node depends only on the variables that it reads. -/
theorem infer_congr {s s' : Sight} (hp : s.parameter? = s'.parameter?) {n : Node}
    (h : ∀ x, n.Reads x → s.latest? x = s'.latest? x) (name : String) :
    n.infer s name = n.infer s' name := by
  induction n using Node.induct generalizing name with
  | use x line => rw [infer, infer, h x (.use line), hp]
  | int k line => rw [infer, infer]
  | float x line => rw [infer, infer]
  | text t line => rw [infer, infer]
  | array items line ih =>
    rw [infer_array, infer_array]
    congr 1
    apply List.map_congr_left
    intro e he
    have hi : e.1 ∈ items := List.fst_mem_of_mem_zipIdx he
    have hvalue := (ih e.1 hi).2 (fun x hx => h x (.value line hi hx)) ("value_" ++ toString e.2)
    have hkey : e.1.keyType s e.2 = e.1.keyType s' e.2 := by
      unfold Item.keyType
      split
      · rfl
      · next k hk => rw [(ih e.1 hi).1 k hk fun x hx => h x (.key line hi hk hx)]
    rw [hvalue, hkey]
  | call callee args line ih _ =>
    rw [infer_call, infer_call, ih fun x hx => h x (.callee args line hx)]
  | structural n hn ih =>
    rw [infer_of_structural s hn, infer_of_structural s' hn]
    congr 1
    exact List.map_congr_left fun c hc => ih c hc (fun x hx => h x (.part hn hc hx)) name

end Node

end ValueTrace
