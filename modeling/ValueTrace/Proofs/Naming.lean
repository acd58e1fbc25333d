import ValueTrace.Proofs.Graph
import ValueTrace.Proofs.WellTyped

/-!
# The name that a value is to be known under

Inference is given a name for the value, and looks a variable that was never written up among the
parameters under that name. Apart from this the name makes no difference, since renaming commutes
with everything that combines values (`rename_settle`). The items of an array literal are named
after their places. Where there are no parameters, the type of an item is therefore the same at
every place, and the type of the literal depends only on which items it has, not on their order or
on how often they stand there.
-/

namespace ValueTrace

/-! ## Renaming -/

namespace Value

theorem filter_resolved_map_rename (parts : List Value) (z : String) :
    (parts.map (·.rename z)).filter resolved = (parts.filter resolved).map (·.rename z) :=
  List.filter_map

theorem rename_settle (x z : String) (line : Int) (parts : List Value) :
    (settle x line parts).rename z = settle z line (parts.map (·.rename z)) := by
  unfold settle
  rw [filter_resolved_map_rename]
  match parts.filter resolved with
  | [] => rfl
  | [_] => rfl
  | u :: v :: vs =>
    simp only [List.map_cons, List.map_map, type_rename]
    rfl

end Value

namespace Node

variable {sight : Sight} {x y : String}

/-- The name has no influence on what is inferred, unless it is that of a parameter. -/
theorem rename_infer_congr (hx : sight.parameter? x = none) (hy : sight.parameter? y = none)
    (n : Node) (z : String) : (n.infer sight x).rename z = (n.infer sight y).rename z := by
  induction n using Node.induct with
  | use u line =>
    rw [infer, infer, hx, hy]
    split
    · rfl
    · rw [Option.getD_none, Option.getD_none, Value.rename_settle, Value.rename_settle]
  | int k line => rw [infer, infer]; rfl
  | float f line => rw [infer, infer]; rfl
  | text t line => rw [infer, infer]; rfl
  | array items line _ =>
    -- The items have names of their own, which are the same on both sides.
    rw [infer, infer]
    rfl
  | call callee args line ih _ =>
    rw [infer_call, infer_call, Value.rename_settle, Value.rename_settle, List.map_singleton,
      List.map_singleton, ih]
  | structural n hn ih =>
    rw [infer_of_structural sight hn, infer_of_structural sight hn, Value.rename_settle,
      Value.rename_settle, List.map_map, List.map_map]
    congr 1
    exact List.map_congr_left ih

theorem type_infer_congr (hx : sight.parameter? x = none) (hy : sight.parameter? y = none)
    (n : Node) : (n.infer sight x).type = (n.infer sight y).type := by
  simpa using congrArg Value.type (rename_infer_congr hx hy n x)

end Node

namespace ScopeGraph

/-- An expression has the same value under any two names that are not parameters of the scope that
it stands in, apart from the name itself. -/
theorem rename_infer_of_not_parameter (g : ScopeGraph) (id : ScopeId) (n : Node) {x y : String}
    (hx : x ∉ (g.scope id).parameters.keys) (hy : y ∉ (g.scope id).parameters.keys) (z : String) :
    (n.infer (g.sight id) x).rename z = (n.infer (g.sight id) y).rename z :=
  Node.rename_infer_congr (Table.get?_eq_none_iff.2 hx) (Table.get?_eq_none_iff.2 hy) n z

/-- In `u .. { u }` neither `x` nor `y` is a parameter, so that the first operand is without a
content. The item sees the parameter that is called like its place. -/
theorem rename_infer_of_not_parameter_nested :
    let g := (create {} "f" none).1.bind 0 ⟨"value_0", .int 7, .int, 1⟩
    let n : Node := .operation "Concat" [.variable "u" 2, .array [⟨.variable "u" 3, none, 3⟩] 3] 2
    "x" ∉ (g.scope 0).parameters.keys ∧ "y" ∉ (g.scope 0).parameters.keys ∧
      (n.infer (g.sight 0) "x").rename "z" = (n.infer (g.sight 0) "y").rename "z" ∧
      (n.infer (g.sight 0) "y").rename "z" =
        ⟨"z", .array [⟨"value_0", .int 7, .int, 1⟩], .homogeneous .int, 3⟩ := by
  intro g n
  have hx : "x" ∉ (g.scope 0).parameters.keys := by decide
  have hy : "y" ∉ (g.scope 0).parameters.keys := by decide
  refine ⟨hx, hy, rename_infer_of_not_parameter g 0 n hx hy "z", ?_⟩
  with_unfolding_all rfl

end ScopeGraph

/-! ## The type of an array literal -/

namespace Ty

theorem common_eq_of_forall {ts : List Ty} {t : Ty} (hne : ts ≠ []) (h : ∀ u ∈ ts, u = t) :
    common ts = t := by
  match ts with
  | [] => exact absurd rfl hne
  | u :: us =>
    obtain ⟨rfl, hus⟩ := List.forall_mem_cons.1 h
    exact if_pos hus

theorem common_eq_unknown {ts : List Ty} (h : ¬∃ t, ∀ u ∈ ts, u = t) : common ts = unknown := by
  match ts with
  | [] => rfl
  | t :: ts => exact if_neg fun hts => h ⟨t, List.forall_mem_cons.2 ⟨rfl, hts⟩⟩

/-- What is common to types depends only on which types there are. -/
theorem common_congr {ts us : List Ty} (hne : ts ≠ []) (h : ∀ t, t ∈ us ↔ t ∈ ts) :
    common us = common ts := by
  by_cases hall : ∃ t, ∀ u ∈ ts, u = t
  · obtain ⟨t, ht⟩ := hall
    have hne' : us ≠ [] := by
      obtain ⟨u, hu⟩ := List.exists_mem_of_ne_nil ts hne
      exact List.ne_nil_of_mem ((h u).2 hu)
    rw [common_eq_of_forall hne ht, common_eq_of_forall hne' fun u hu => ht u ((h u).1 hu)]
  · have hall' : ¬∃ t, ∀ u ∈ us, u = t := fun ⟨t, ht⟩ => hall ⟨t, fun u hu => ht u ((h u).2 hu)⟩
    rw [common_eq_unknown hall, common_eq_unknown hall']

end Ty

theorem Value.type_ofItems (name : String) (line : Int) {items : List (Ty × Value)}
    (hne : items ≠ []) :
    let key := Ty.common (items.map Prod.fst)
    let element := Ty.common (items.map fun item => item.2.type)
    (ofItems name line items).type =
      if key = element then .homogeneous element else .mapping key element := by
  match items with
  | [] => exact absurd rfl hne
  | e :: items =>
    simp only [ofItems, List.map_cons, Ty.mergeAll_cons, Ty.ofArray]

section

variable {sight : Sight}

theorem Item.keyType_congr (hp : ∀ x, sight.parameter? x = none) (i : Item) (place place' : Nat) :
    i.keyType sight place = i.keyType sight place' := by
  unfold keyType
  split
  · rfl
  · next k _ => exact Node.type_infer_congr (hp _) (hp _) k

theorem map_zipIdx_of_forall {f : Item → Nat → Ty} (h : ∀ i place, f i place = f i 0)
    (items : List Item) : (items.zipIdx.map fun e => f e.1 e.2) = items.map (f · 0) :=
  calc (items.zipIdx.map fun e => f e.1 e.2)
    _ = items.zipIdx.map fun e => f e.1 0 := List.map_congr_left fun e _ => h e.1 e.2
    _ = (items.zipIdx.map Prod.fst).map (f · 0) := by rw [List.map_map]; rfl
    _ = items.map (f · 0) := by rw [List.zipIdx_map_fst]

/-- Without parameters the types of items do not depend on their places. -/
theorem common_of_places {f : Item → Nat → Ty} (h : ∀ i place, f i place = f i 0)
    {items items' : List Item} (hne : items ≠ []) (hmem : ∀ i, i ∈ items' ↔ i ∈ items) :
    Ty.common (items'.zipIdx.map fun e => f e.1 e.2) =
      Ty.common (items.zipIdx.map fun e => f e.1 e.2) := by
  rw [map_zipIdx_of_forall h, map_zipIdx_of_forall h]
  apply Ty.common_congr (by simpa using hne)
  simp [List.mem_map, hmem]

theorem Node.type_infer_array (name : String) {items : List Item} (hne : items ≠ []) (line : Int) :
    let key := Ty.common (items.zipIdx.map fun e => e.1.keyType sight e.2)
    let element := Ty.common (items.zipIdx.map fun e =>
      (e.1.value.infer sight ("value_" ++ toString e.2)).type)
    ((Node.array items line).infer sight name).type =
      if key = element then .homogeneous element else .mapping key element := by
  rw [infer_array, Value.type_ofItems name line (by simpa using hne), List.map_map, List.map_map]
  rfl

end

namespace ScopeGraph

/-- The value of an array literal that is not empty. It has one element for each item, in order. Its
type is built from what the types of the keys have in common and what those of the elements have in
common. In a scope without parameters every literal with the same items has that type, in whatever
order and however often they stand there. -/
theorem infer_array_literal (g : ScopeGraph) (id : ScopeId) (name : String) {items : List Item}
    (hne : items ≠ []) (line : Int) :
    let sight := g.sight id
    let v := (Node.array items line).infer sight name
    let elements := items.zipIdx.map fun e => e.1.value.infer sight ("value_" ++ toString e.2)
    let keyType := Ty.common (items.zipIdx.map fun e => e.1.keyType sight e.2)
    let elementType := Ty.common (elements.map Value.type)
    v.payload = .array elements ∧
    v.type = (if keyType = elementType then .homogeneous elementType
      else .mapping keyType elementType) ∧
    ((g.scope id).parameters.keys = [] → ∀ items' : List Item, (∀ i, i ∈ items' ↔ i ∈ items) →
      ∀ name' line', ((Node.array items' line').infer sight name').type = v.type) := by
  intro sight v elements keyType elementType
  refine ⟨?_, ?_, fun hkeys items' hmem name' line' => ?_⟩
  · simp only [v, elements, Node.infer_array, Value.ofItems, List.map_map]
    rfl
  · simp only [v, elementType, elements, List.map_map]
    exact Node.type_infer_array name hne line
  · have hp (x : String) : sight.parameter? x = none :=
      Table.get?_eq_none_iff.2 (by rw [hkeys]; exact List.not_mem_nil)
    have hne' : items' ≠ [] := by
      obtain ⟨i, hi⟩ := List.exists_mem_of_ne_nil items hne
      exact List.ne_nil_of_mem ((hmem i).2 hi)
    have hkey := common_of_places (fun i place => i.keyType_congr hp place 0) hne hmem
    have helement := common_of_places
      (fun i place => Node.type_infer_congr (hp ("value_" ++ toString place)) (hp _) i.value)
      hne hmem
    simp only [v, Node.type_infer_array _ hne, Node.type_infer_array _ hne', hkey, helement]

/-- In `{ 1, u }` nothing is known of the second element, nor therefore of the elements in common,
and `{ u, 1, u }` has the same type. -/
theorem infer_array_literal_repeated :
    let g := (create {} "global" none).1
    let one : Item := ⟨.int 1 1, none, 1⟩
    let unwritten : Item := ⟨.variable "u" 1, none, 1⟩
    let type (items : List Item) := ((Node.array items 1).infer (g.sight 0) "x").type
    (g.scope 0).parameters.keys = [] ∧ type [one, unwritten] = .mapping .int .unknown ∧
      type [unwritten, one, unwritten] = type [one, unwritten] := by
  intro g one unwritten type
  obtain ⟨-, htype, hsame⟩ :=
    infer_array_literal g 0 "x" (List.cons_ne_nil one [unwritten]) 1
  refine ⟨rfl, htype.trans ?_, hsame rfl [unwritten, one, unwritten] (fun i => ?_) "x" 1⟩
  · with_unfolding_all rfl
  · simp only [List.mem_cons, List.not_mem_nil, or_false]
    tauto

end ScopeGraph

end ValueTrace
