import ValueTrace.Proofs.Expressible
import ValueTrace.Proofs.WellTyped

/-!
# Descriptors of inferred types

Inference also gives types that no descriptor expresses: those of an array whose keys and elements
are of one union. The `[]` in the descriptor of such an array seems to belong to the last member of
the union alone. `alternatives` takes a type apart in this way, into what stands between the outer
bars of its descriptor. Two inferred types have the same descriptor if and only if they have the
same alternatives, so types without such arrays are told apart by their descriptors.
-/

namespace ValueTrace

namespace Ty

/-! ## Alternatives -/

/-- Makes the last of several alternatives an array. -/
def arrayOfLast : List Ty → List Ty
  | [] => []
  | [t] => [.homogeneous t]
  | t :: u :: ts => t :: arrayOfLast (u :: ts)

/-- The type that has the given alternatives. -/
def oneOf : List Ty → Ty
  | [t] => t
  | ts => .union ts

mutual
/-- What stands between the outer bars of the descriptor of a type. -/
def alternatives : Ty → List Ty
  | mk .homogeneous _ (t :: _) => arrayOfLast (alternatives t)
  | mk .mapping _ [k, v] => [.mapping (oneOf (alternatives k)) (oneOf (alternatives v))]
  | mk .union _ ts => alternativesAll ts
  | t => [t]
/-- The alternatives of several types, one after the other. -/
def alternativesAll : List Ty → List Ty
  | [] => []
  | t :: ts => alternatives t ++ alternativesAll ts
end

theorem mem_alternativesAll {a : Ty} {ts : List Ty} :
    a ∈ alternativesAll ts ↔ ∃ t ∈ ts, a ∈ alternatives t := by
  induction ts with
  | nil => simp [alternativesAll]
  | cons t ts ih => simp [alternativesAll, ih]

theorem alternativesAll_ne_nil {ts : List Ty} (hne : ts ≠ [])
    (h : ∀ t ∈ ts, alternatives t ≠ []) : alternativesAll ts ≠ [] := by
  obtain ⟨t, ts, rfl⟩ := List.exists_cons_of_ne_nil hne
  rw [alternativesAll]
  exact List.append_ne_nil_of_left_ne_nil (h t List.mem_cons_self) _

theorem arrayOfLast_ne_nil {ts : List Ty} (h : ts ≠ []) : arrayOfLast ts ≠ [] := by
  rcases ts with _ | ⟨t, _ | ⟨u, ts⟩⟩
  · exact absurd rfl h
  · rw [arrayOfLast]
    exact List.cons_ne_nil _ _
  · rw [arrayOfLast]
    exact List.cons_ne_nil _ _

theorem mem_arrayOfLast {a : Ty} {ts : List Ty} (h : a ∈ arrayOfLast ts) :
    a ∈ ts ∨ ∃ t ∈ ts, a = .homogeneous t := by
  fun_induction arrayOfLast ts with
  | case1 => cases h
  | case2 t => exact .inr ⟨t, List.mem_cons_self, List.mem_singleton.1 h⟩
  | case3 t u ts ih =>
    rcases List.mem_cons.1 h with rfl | h
    · exact .inl List.mem_cons_self
    · rcases ih h with ha | ⟨b, hb, rfl⟩
      · exact .inl (List.mem_cons_of_mem t ha)
      · exact .inr ⟨b, List.mem_cons_of_mem t hb, rfl⟩

theorem oneOf_injective {ts us : List Ty} (hts : ∀ t ∈ ts, t.isUnion = false)
    (hus : ∀ u ∈ us, u.isUnion = false) (h : oneOf ts = oneOf us) : ts = us := by
  unfold oneOf at h
  split at h <;> split at h
  · rw [h]
  · next t _ =>
    rw [h] at hts
    exact absurd (hts _ List.mem_cons_self) (by rintro ⟨⟩)
  · next u _ =>
    rw [← h] at hus
    exact absurd (hus _ List.mem_cons_self) (by rintro ⟨⟩)
  · cases h
    rfl

/-! ## Descriptors of alternatives -/

theorem descriptors_cons_eq_ok {t : Ty} {ts : List Ty} {ds : List String} :
    descriptors (t :: ts) = .ok ds ↔
      ∃ e es, descriptor t = .ok e ∧ descriptors ts = .ok es ∧ ds = e :: es := by
  rw [descriptors]
  constructor
  · intro h
    cases he : descriptor t with
    | error _ =>
      rw [he] at h
      cases h
    | ok e =>
      cases hes : descriptors ts with
      | error _ =>
        rw [he, hes] at h
        cases h
      | ok es =>
        rw [he, hes] at h
        cases h
        exact ⟨e, es, rfl, rfl, rfl⟩
  · rintro ⟨e, es, he, hes, rfl⟩
    rw [he, hes]
    rfl

theorem descriptors_append {ts us : List Ty} {ds es : List String} (hts : descriptors ts = .ok ds)
    (hus : descriptors us = .ok es) : descriptors (ts ++ us) = .ok (ds ++ es) := by
  induction ts generalizing ds with
  | nil =>
    cases hts
    exact hus
  | cons t ts ih =>
    obtain ⟨d, ds', hd, hds', rfl⟩ := descriptors_cons_eq_ok.1 hts
    exact descriptors_cons_eq_ok.2 ⟨d, ds' ++ es, hd, ih hds', rfl⟩

theorem ne_nil_of_descriptors {ts : List Ty} {ds : List String} (h : descriptors ts = .ok ds)
    (hne : ts ≠ []) : ds ≠ [] := by
  cases ts with
  | nil => exact absurd rfl hne
  | cons t ts =>
    obtain ⟨d, ds', -, -, rfl⟩ := descriptors_cons_eq_ok.1 h
    exact List.cons_ne_nil d ds'

theorem descriptor_oneOf {ts : List Ty} {ds : List String} (h : descriptors ts = .ok ds) :
    descriptor (oneOf ts) = .ok ("|".intercalate ds) := by
  unfold oneOf
  split
  · next t =>
    obtain ⟨d, ds', hd, hds', rfl⟩ := descriptors_cons_eq_ok.1 h
    cases hds'
    rw [hd, String.intercalate_singleton]
  · rw [union, descriptor, h]
    rfl

/-- Making the last alternative an array puts `[]` at the end of the descriptor. -/
theorem descriptors_arrayOfLast {ts : List Ty} {ds : List String} (hne : ts ≠ [])
    (h : descriptors ts = .ok ds) :
    ∃ es, descriptors (arrayOfLast ts) = .ok es ∧
      "|".intercalate es = "|".intercalate ds ++ "[]" := by
  fun_induction arrayOfLast ts generalizing ds with
  | case1 => exact absurd rfl hne
  | case2 t =>
    obtain ⟨d, ds', hd, hds', rfl⟩ := descriptors_cons_eq_ok.1 h
    cases hds'
    refine ⟨[d ++ "[]"], descriptors_cons_eq_ok.2 ⟨d ++ "[]", [], ?_, rfl, rfl⟩, ?_⟩
    · rw [homogeneous, descriptor, hd]
      rfl
    · rw [String.intercalate_singleton, String.intercalate_singleton]
  | case3 t u ts ih =>
    obtain ⟨d, ds', hd, hds', rfl⟩ := descriptors_cons_eq_ok.1 h
    have hne' : u :: ts ≠ [] := List.cons_ne_nil u ts
    obtain ⟨es, hes, hjoin⟩ := ih hne' hds'
    refine ⟨d :: es, descriptors_cons_eq_ok.2 ⟨d, es, hd, hes, rfl⟩, ?_⟩
    rw [String.intercalate_cons_of_ne_nil (ne_nil_of_descriptors hes (arrayOfLast_ne_nil hne')),
      String.intercalate_cons_of_ne_nil (ne_nil_of_descriptors hds' hne'), hjoin]
    simp only [String.append_assoc]

/-- The alternatives of a type are expressible, and its descriptor lists theirs. -/
structure Listed (t : Ty) : Prop where
  ne_nil : alternatives t ≠ []
  expressible : ∀ a ∈ alternatives t, Expressible a
  isUnion : ∀ a ∈ alternatives t, a.isUnion = false
  descriptor : ∃ ds, descriptors (alternatives t) = .ok ds ∧
    descriptor t = .ok ("|".intercalate ds)

namespace Listed

variable {t u : Ty}

/-- A type with one alternative that has its descriptor. -/
theorem of_single {a : Ty} (halternatives : alternatives t = [a]) (h : Expressible a)
    (hunion : a.isUnion = false) (hdescriptor : a.descriptor = t.descriptor) : Listed t := by
  obtain ⟨cs, hwritten, -⟩ := h.exists_text
  refine ⟨?_, ?_, ?_, [String.ofList cs], ?_, ?_⟩
  · rw [halternatives]
    exact List.cons_ne_nil a []
  · simpa [halternatives] using h
  · simpa [halternatives] using hunion
  · rw [halternatives]
    exact descriptors_cons_eq_ok.2 ⟨_, [], hwritten, rfl, rfl⟩
  · rw [← hdescriptor, hwritten, String.intercalate_singleton]

theorem expressible_oneOf (h : Listed t) : Expressible (oneOf (alternatives t)) := by
  unfold oneOf
  split
  · next a ha => exact h.expressible a (by simp [ha])
  · next hne =>
    refine .union ?_ h.expressible h.isUnion
    match hs : alternatives t with
    | [] => exact absurd hs h.ne_nil
    | [a] => exact absurd hs (hne a)
    | _ :: _ :: _ => simp

theorem descriptor_oneOf_eq (h : Listed t) :
    (oneOf (alternatives t)).descriptor = t.descriptor := by
  obtain ⟨ds, hds, hd⟩ := h.descriptor
  rw [descriptor_oneOf hds, hd]

/-- Types are told apart by their descriptors as far as by their alternatives. -/
theorem descriptor_eq_iff (ht : Listed t) (hu : Listed u) :
    t.descriptor = u.descriptor ↔ alternatives t = alternatives u := by
  rw [← ht.descriptor_oneOf_eq, ← hu.descriptor_oneOf_eq]
  constructor
  · intro h
    have heq := ht.expressible_oneOf.eq_of_descriptor_eq hu.expressible_oneOf h
    exact oneOf_injective ht.isUnion hu.isUnion heq
  · intro h
    rw [h]

theorem homogeneous (h : Listed t) : Listed (.homogeneous t) := by
  obtain ⟨ds, hds, hd⟩ := h.descriptor
  obtain ⟨es, hes, hjoin⟩ := descriptors_arrayOfLast h.ne_nil hds
  have halternatives : alternatives (.homogeneous t) = arrayOfLast (alternatives t) := by
    rw [Ty.homogeneous, alternatives]
  refine ⟨?_, ?_, ?_, es, ?_, ?_⟩
  · rw [halternatives]
    exact arrayOfLast_ne_nil h.ne_nil
  · intro a ha
    rw [halternatives] at ha
    rcases mem_arrayOfLast ha with ha | ⟨b, hb, rfl⟩
    · exact h.expressible a ha
    · exact .homogeneous (h.expressible b hb) (h.isUnion b hb)
  · intro a ha
    rw [halternatives] at ha
    rcases mem_arrayOfLast ha with ha | ⟨b, hb, rfl⟩
    · exact h.isUnion a ha
    · rfl
  · rw [halternatives, hes]
  · rw [Ty.homogeneous, Ty.descriptor, hd, hjoin]
    rfl

theorem mapping (ht : Listed t) (hu : Listed u) : Listed (.mapping t u) := by
  refine of_single (a := .mapping (oneOf (alternatives t)) (oneOf (alternatives u))) ?_
    (.mapping ht.expressible_oneOf hu.expressible_oneOf) rfl ?_
  · rw [Ty.mapping, alternatives]
  · rw [Ty.mapping, Ty.mapping, Ty.descriptor, Ty.descriptor, ht.descriptor_oneOf_eq,
      hu.descriptor_oneOf_eq]

/-- Listing the alternatives of several types is listing the types. -/
theorem descriptors_alternativesAll {ts : List Ty} (h : ∀ t ∈ ts, Listed t) :
    ∃ ds es, descriptors (alternativesAll ts) = .ok ds ∧ descriptors ts = .ok es ∧
      "|".intercalate ds = "|".intercalate es := by
  induction ts with
  | nil => exact ⟨[], [], rfl, rfl, rfl⟩
  | cons t ts ih =>
    have ht := h t List.mem_cons_self
    have hts : ∀ u ∈ ts, Listed u := fun u hu => h u (List.mem_cons_of_mem t hu)
    obtain ⟨ds₁, hds₁, hd⟩ := ht.descriptor
    obtain ⟨ds, es, hds, hes, hjoin⟩ := ih hts
    refine ⟨ds₁ ++ ds, "|".intercalate ds₁ :: es, ?_, ?_, ?_⟩
    · rw [alternativesAll]
      exact descriptors_append hds₁ hds
    · exact descriptors_cons_eq_ok.2 ⟨_, es, hd, hes, rfl⟩
    -- A bar stands between `t` and the rest only if there is a rest.
    · cases ts with
      | nil =>
        cases hds
        cases hes
        rw [List.append_nil, String.intercalate_singleton]
      | cons u us =>
        have hall : alternativesAll (u :: us) ≠ [] :=
          alternativesAll_ne_nil (List.cons_ne_nil u us) fun v hv => (hts v hv).ne_nil
        have hne₁ := ne_nil_of_descriptors hds₁ ht.ne_nil
        have hne := ne_nil_of_descriptors hds hall
        have hne' := ne_nil_of_descriptors hes (List.cons_ne_nil u us)
        rw [String.intercalate_append_of_ne_nil hne₁ hne, String.intercalate_cons_of_ne_nil hne',
          hjoin]

theorem union {ts : List Ty} (hne : ts ≠ []) (h : ∀ t ∈ ts, Listed t) : Listed (.union ts) := by
  obtain ⟨ds, es, hds, hes, hjoin⟩ := descriptors_alternativesAll h
  have halternatives : alternatives (.union ts) = alternativesAll ts := by
    rw [Ty.union, alternatives]
  refine ⟨?_, ?_, ?_, ds, ?_, ?_⟩
  · rw [halternatives]
    exact alternativesAll_ne_nil hne fun t ht => (h t ht).ne_nil
  · intro a ha
    rw [halternatives, mem_alternativesAll] at ha
    obtain ⟨t, ht, ha⟩ := ha
    exact (h t ht).expressible a ha
  · intro a ha
    rw [halternatives, mem_alternativesAll] at ha
    obtain ⟨t, ht, ha⟩ := ha
    exact (h t ht).isUnion a ha
  · rw [halternatives, hds]
  · rw [Ty.union, Ty.descriptor, hes, hjoin]
    rfl

end Listed

/-! ## Inferred types -/

/-- A type with an array in it whose keys and elements are of one union. -/
inductive HasUnionArray : Ty → Prop
  | here (members : List Ty) : HasUnionArray (.homogeneous (.union members))
  | part {kind : Kind} {label : Option String} {parts : List Ty} {t : Ty} (ht : t ∈ parts)
    (h : HasUnionArray t) : HasUnionArray (mk kind label parts)

theorem not_hasUnionArray_primitive (label : String) : ¬ HasUnionArray (.primitive label) := by
  rintro (_ | ⟨ht, -⟩)
  cases ht

theorem Definite.isUnion {t : Ty} (h : Definite t) : t.isUnion = false := by
  cases h <;> rfl

theorem Inferred.listed {t : Ty} (h : Inferred t) : Listed t := by
  induction h with
  | unknown => exact .of_single rfl .unknown rfl rfl
  | int | float | string | array => exact .of_single rfl (.primitive (by decide)) rfl rfl
  | homogeneous _ ih => exact ih.homogeneous
  | mapping _ _ ihk ihv => exact ihk.mapping ihv
  | union hlen _ _ ih =>
    refine .union ?_ ih
    rintro rfl
    cases hlen

theorem Inferred.expressible {t : Ty} (h : Inferred t) (harray : ¬ HasUnionArray t) :
    Expressible t := by
  induction h with
  | unknown => exact .unknown
  | int | float | string | array => exact .primitive (by decide)
  | @homogeneous t h ih =>
    refine .homogeneous (ih fun ht => harray (.part List.mem_cons_self ht)) ?_
    cases h with
    | union => exact absurd (.here _) harray
    | _ => rfl
  | mapping _ _ ihk ihv =>
    refine .mapping (ihk fun hk => harray (.part List.mem_cons_self hk)) (ihv fun hv => harray ?_)
    exact .part (List.mem_cons_of_mem _ List.mem_cons_self) hv
  | union hlen hdef _ ih =>
    exact .union hlen (fun t ht => ih t ht fun h => harray (.part ht h)) fun t ht =>
      (hdef t ht).isUnion

end Ty

namespace Analysis

theorem Reached.inferred_type {verbose : Bool} {fed : List Node} {a : Analysis}
    (h : Reached verbose fed a) (n : Node) (x : String) : (n.infer a.sight x).type.Inferred := by
  have hsight : a.sight.WellTyped := by
    rw [Analysis.sight, global, h.shaped.sight_eq]
    exact h.findings_wellTyped.sight
  exact (hsight.infer x n).inferred

/-- The types of any two expressions, each in the scope after some program, have descriptors. These
are the same if and only if the types have the same alternatives. So they differ for different types
in which no array has keys and elements of one union. -/
theorem inferred_descriptors {verbose₁ verbose₂ : Bool} {fed₁ fed₂ : List Node} {a₁ a₂ : Analysis}
    (h₁ : Reached verbose₁ fed₁ a₁) (h₂ : Reached verbose₂ fed₂ a₂) (n₁ n₂ : Node)
    (x₁ x₂ : String) :
    let t₁ := (n₁.infer a₁.sight x₁).type
    let t₂ := (n₂.infer a₂.sight x₂).type
    ∃ d₁ d₂, t₁.descriptor = .ok d₁ ∧ t₂.descriptor = .ok d₂ ∧
      (d₁ = d₂ ↔ t₁.alternatives = t₂.alternatives) ∧
      (¬ t₁.HasUnionArray → ¬ t₂.HasUnionArray → t₁ ≠ t₂ → d₁ ≠ d₂) := by
  intro t₁ t₂
  have hi₁ : t₁.Inferred := h₁.inferred_type n₁ x₁
  have hi₂ : t₂.Inferred := h₂.inferred_type n₂ x₂
  obtain ⟨d₁, hd₁⟩ := hi₁.exists_descriptor
  obtain ⟨d₂, hd₂⟩ := hi₂.exists_descriptor
  have hiff := hi₁.listed.descriptor_eq_iff hi₂.listed
  refine ⟨d₁, d₂, hd₁, hd₂, ?_, fun hu₁ hu₂ hne heq => hne ?_⟩
  · rw [← hiff, hd₁, hd₂, Except.ok.injEq]
  · apply (hi₁.expressible hu₁).eq_of_descriptor_eq (hi₂.expressible hu₂)
    rw [hd₁, hd₂, heq]

/-- A list of numbers, and a choice between a number and a text. -/
theorem inferred_descriptors_of_program :
    let program : List Node := [.assign (.variable "x" 1) (.int 1 1) 1]
    let a := ((start false).run program).1
    let n₁ : Node := .array [⟨.variable "x" 2, none, 2⟩] 2
    let n₂ : Node := .operation "OrLoOp" [.variable "x" 2, .text "a" 2] 2
    let t₁ := (n₁.infer a.sight "y").type
    let t₂ := (n₂.infer a.sight "y").type
    t₁ = .homogeneous .int ∧ t₂ = .union [.int, .string] ∧
      ∃ d₁ d₂, t₁.descriptor = .ok d₁ ∧ t₂.descriptor = .ok d₂ ∧ d₁ ≠ d₂ := by
  intro program a n₁ n₂ t₁ t₂
  have h : Reached false program a := .run .start program
  have ht₁ : t₁ = .homogeneous .int := by with_unfolding_all rfl
  have ht₂ : t₂ = .union [.int, .string] := by with_unfolding_all rfl
  have hu₁ : ¬ t₁.HasUnionArray := by
    rw [ht₁]
    rintro (_ | ⟨hmem, hpart⟩)
    cases List.mem_singleton.1 hmem
    exact Ty.not_hasUnionArray_primitive _ hpart
  have hu₂ : ¬ t₂.HasUnionArray := by
    rw [ht₂]
    rintro (_ | ⟨hmem, hpart⟩)
    rcases List.mem_pair.1 hmem with rfl | rfl <;> exact Ty.not_hasUnionArray_primitive _ hpart
  obtain ⟨d₁, d₂, hd₁, hd₂, -, hdiff⟩ := inferred_descriptors h h n₁ n₂ "y" "y"
  refine ⟨ht₁, ht₂, d₁, d₂, hd₁, hd₂, hdiff hu₁ hu₂ ?_⟩
  show t₁ ≠ t₂
  rw [ht₁, ht₂]
  decide

/-- An array with keys and elements of one union has the descriptor of a union with an array. -/
theorem inferred_descriptors_clash :
    let choice : Node := .operation "Concat" [.int 1 1, .text "a" 1] 1
    let n₁ : Node := .array [⟨choice, some choice, 1⟩] 1
    let n₂ : Node :=
      .operation "Concat" [.int 1 2, .array [⟨.text "b" 2, some (.text "a" 2), 2⟩] 2] 2
    let t₁ := (n₁.infer (start false).sight "x").type
    let t₂ := (n₂.infer (start false).sight "y").type
    t₁ ≠ t₂ ∧ t₁.descriptor = .ok "int|string[]" ∧ t₂.descriptor = .ok "int|string[]" := by
  intro choice n₁ n₂ t₁ t₂
  have ht₁ : t₁ = .homogeneous (.union [.int, .string]) := by with_unfolding_all rfl
  have ht₂ : t₂ = .union [.int, .homogeneous .string] := by with_unfolding_all rfl
  rw [ht₁, ht₂]
  exact ⟨by decide, by with_unfolding_all rfl, by with_unfolding_all rfl⟩

end Analysis

end ValueTrace
