import ValueTrace.Proofs.Descriptor

/-!
# Types that a descriptor expresses

A descriptor has no parentheses, so it expresses a type without loss only if no union stands in a
union or before `[]`, and if the labels have no marks of their own. For these types, `Expressible`,
the text is `Tidy`: its brackets match, and no comma of it stands outside them. So a text around it
is cut where it was put together, and reading gives the type back.
-/

namespace ValueTrace.Ty

open Text

/-! ## Tidy texts -/

/-- A text whose brackets match, with no comma outside them and no blanks at the ends. -/
structure Tidy (cs : List Char) : Prop where
  depth : depth cs = 0
  /-- Between brackets it is not cut. -/
  inside : ∀ d, isMark d = true → ∀ start, 0 < start → Whole d start cs
  comma : Whole ',' 0 cs
  startsBlank : startsBlank cs = false
  endsBlank : endsBlank cs = false

theorem Tidy.trim_eq {cs : List Char} (h : Tidy cs) : trim cs = cs :=
  trim_eq_self h.startsBlank h.endsBlank

theorem marks_eq_nil {cs : List Char} (h : ∀ c ∈ cs, isMark c = false) : marks cs = [] := by
  rw [marks, List.filter_eq_nil_iff]
  intro c hc
  simp [h c hc]

theorem whole_of_marks_eq_nil {d : Char} {start : Int} {cs : List Char} (hd : isMark d = true)
    (h : marks cs = []) : Whole d start cs :=
  (whole_congr hd (show marks cs = marks [] from h)).2 whole_nil

theorem tidy_of_marks_eq_nil {cs : List Char} (h : marks cs = []) (hstart : startsBlank cs = false)
    (hend : endsBlank cs = false) : Tidy cs where
  depth := depth_congr (show marks cs = marks [] from h)
  inside _ hd _ _ := whole_of_marks_eq_nil hd h
  comma := whole_of_marks_eq_nil rfl h
  startsBlank := hstart
  endsBlank := hend

/-- Tidy texts can be put together at a character that is neither a bracket, a comma nor a blank. -/
theorem Tidy.append_cons {p q : List Char} {c : Char} (hp : Tidy p) (hq : Tidy q)
    (hdepth : depthStep c = 0) (hcomma : c ≠ ',') (hblank : isBlank c = false) :
    Tidy (p ++ c :: q) where
  depth := by rw [depth_append, depth_cons, hp.depth, hq.depth, hdepth]; rfl
  inside d hd start hstart := by
    rw [whole_append, whole_cons, hp.depth, hdepth, add_zero, add_zero]
    exact ⟨hp.inside d hd start hstart, cutsAt_of_ne_zero (by omega), hq.inside d hd start hstart⟩
  comma := by
    rw [whole_append, whole_cons, hp.depth, hdepth, add_zero]
    exact ⟨hp.comma, cutsAt_of_ne hcomma, hq.comma⟩
  startsBlank := by rw [startsBlank_append_cons hblank, hp.startsBlank]
  endsBlank := by rw [endsBlank_append_cons hblank, hq.endsBlank]

theorem Tidy.element {cs : List Char} (h : Tidy cs) : Tidy (cs ++ ['[', ']']) :=
  h.append_cons (tidy_of_marks_eq_nil rfl rfl rfl) rfl (by decide) rfl

theorem tidy_intercalate {ps : List (List Char)} (h : ∀ p ∈ ps, Tidy p) :
    Tidy (['|'].intercalate ps) := by
  induction ps with
  | nil => exact tidy_of_marks_eq_nil rfl rfl rfl
  | cons p ps ih =>
    have hp := h p List.mem_cons_self
    have hps := ih fun q hq => h q (List.mem_cons_of_mem p hq)
    cases ps with
    | nil =>
      rw [List.intercalate_singleton]
      exact hp
    | cons q ps =>
      rw [List.intercalate_cons_cons, List.append_assoc]
      exact hp.append_cons hps rfl (by decide) rfl

/-- Commas and bars of a key and a value do not surface through the brackets around them. -/
theorem whole_mappingChars {k v : List Char} (hk : Tidy k) (hv : Tidy v) {d : Char}
    (hd : isMark d = true) {start : Int} (hstart : 0 ≤ start) :
    Whole d start (mappingChars k (' ' :: v)) := by
  -- Behind the opening bracket the depth is positive, so nothing is cut there.
  have hinner : Whole d (start + 1) (k ++ ',' :: ' ' :: v) := by
    have hcomma : depthStep ',' = 0 := rfl
    have hspace : depthStep ' ' = 0 := rfl
    rw [whole_append, whole_cons, whole_cons, hk.depth, hcomma, hspace, add_zero, add_zero]
    exact ⟨hk.inside d hd _ (by omega), cutsAt_of_ne_zero (by omega),
      cutsAt_of_ne_zero (by omega), hv.inside d hd _ (by omega)⟩
  have hname : depth ['a', 'r', 'r', 'a', 'y'] = 0 := rfl
  have hopen : depthStep '<' = 1 := rfl
  rw [mappingChars, whole_append, whole_append]
  refine ⟨⟨whole_of_marks_eq_nil hd rfl, ?_⟩, whole_cons.2 ⟨rfl, whole_nil⟩⟩
  rw [whole_cons, hname, hopen, add_zero]
  exact ⟨rfl, hinner⟩

theorem tidy_mappingChars {k v : List Char} (hk : Tidy k) (hv : Tidy v) :
    Tidy (mappingChars k (' ' :: v)) where
  depth := by simp [mappingChars, hk.depth, hv.depth, depthStep]
  inside d hd start hstart := whole_mappingChars hk hv hd (Int.le_of_lt hstart)
  comma := whole_mappingChars hk hv rfl (Int.le_refl 0)
  startsBlank := startsBlank_mappingChars _ _
  endsBlank := endsBlank_mappingChars _ _

theorem parts_of_tidy {d : Char} {ps : List (List Char)} (hne : ps ≠ [])
    (h : ∀ p ∈ ps, Tidy p ∧ Whole d 0 p) : Parts d 0 ps := by
  induction ps with
  | nil => exact absurd rfl hne
  | cons p ps ih =>
    obtain ⟨htidy, hwhole⟩ := h p List.mem_cons_self
    cases ps with
    | nil => exact hwhole
    | cons q ps =>
      refine ⟨hwhole, by rw [htidy.depth, add_zero], ?_⟩
      exact ih (List.cons_ne_nil q ps) fun r hr => h r (List.mem_cons_of_mem p hr)

/-! ## Expressible types -/

/-- A label that can stand anywhere in a descriptor. -/
structure IsLabel (label : String) : Prop where
  ne_empty : label ≠ ""
  ne_mixed : label ≠ mixed
  not_mark : ∀ c ∈ label.toList, isMark c = false
  not_element : ¬ ['[', ']'] <:+ label.toList
  startsBlank : startsBlank label.toList = false
  endsBlank : endsBlank label.toList = false

instance (label : String) : Decidable (IsLabel label) :=
  -- The marks are compared as a list: a bound over `Char` could be decided by running through all
  -- characters.
  decidable_of_iff
    (label ≠ "" ∧ label ≠ mixed ∧ marks label.toList = [] ∧ ¬ ['[', ']'] <:+ label.toList ∧
      startsBlank label.toList = false ∧ endsBlank label.toList = false)
    ⟨fun ⟨h₁, h₂, h₃, h₄, h₅, h₆⟩ =>
        ⟨h₁, h₂, by simpa [marks] using h₃, h₄, h₅, h₆⟩,
      fun ⟨h₁, h₂, h₃, h₄, h₅, h₆⟩ => ⟨h₁, h₂, marks_eq_nil h₃, h₄, h₅, h₆⟩⟩

/-- The types that a descriptor expresses. -/
inductive Expressible : Ty → Prop
  | unknown : Expressible .unknown
  | primitive {label : String} (h : IsLabel label) : Expressible (.primitive label)
  | homogeneous {t : Ty} (h : Expressible t) (hunion : t.isUnion = false) :
    Expressible (.homogeneous t)
  | mapping {k v : Ty} (hk : Expressible k) (hv : Expressible v) : Expressible (.mapping k v)
  | union {ts : List Ty} (hlen : 2 ≤ ts.length) (h : ∀ t ∈ ts, Expressible t)
    (hunion : ∀ t ∈ ts, t.isUnion = false) : Expressible (.union ts)

theorem Expressible.pair {t u : Ty} (ht : Expressible t) (hu : Expressible u)
    (htunion : t.isUnion = false) (huunion : u.isUnion = false) : Expressible (.union [t, u]) :=
  .union (Nat.le_refl 2) (by simp [ht, hu]) (by simp [htunion, huunion])

theorem IsLabel.describes {label : String} (h : IsLabel label) :
    Describes label.toList (.primitive label) := by
  have hmarks := marks_eq_nil h.not_mark
  have hdescribes : Describes label.toList (.primitive (String.ofList label.toList)) := by
    refine .label ?_ ?_ (whole_of_marks_eq_nil rfl hmarks) ?_ ?_
    · simpa using h.ne_empty
    · exact fun heq => h.ne_mixed (String.toList_inj.1 heq)
    · rw [Option.eq_none_iff_forall_ne_some]
      intro e he
      exact h.not_element ⟨e, (elementText?_eq_some.1 he).symm⟩
    · rw [Option.eq_none_iff_forall_ne_some]
      rintro ⟨k, v⟩ hm
      obtain ⟨k₀, v₀, heq, -⟩ := mappingTexts?_eq_some.1 hm
      have hopen : '<' ∈ label.toList := by simp [heq, mappingChars]
      exact absurd (h.not_mark '<' hopen) (by decide)
  rwa [String.ofList_toList] at hdescribes

/-- An expressible type is described by its descriptor, which is tidy and has no bar outside the
brackets unless the type is a union. -/
theorem Expressible.exists_text {t : Ty} (h : Expressible t) :
    ∃ cs, descriptor t = .ok (String.ofList cs) ∧ Describes cs t ∧ Tidy cs ∧
      (t.isUnion = false → Whole '|' 0 cs) := by
  induction h with
  | unknown =>
    exact ⟨_, descriptor_unknown, .unknown, tidy_of_marks_eq_nil rfl rfl rfl, fun _ => rfl⟩
  | @primitive label h =>
    have hmarks := marks_eq_nil h.not_mark
    refine ⟨label.toList, ?_, h.describes, tidy_of_marks_eq_nil hmarks h.startsBlank h.endsBlank,
      fun _ => whole_of_marks_eq_nil rfl hmarks⟩
    have hne : label.toList ≠ [] := by simpa using h.ne_empty
    have hwritten := descriptor_primitive hne
    rwa [String.ofList_toList] at hwritten ⊢
  | homogeneous _ hunion ih =>
    obtain ⟨cs, hwritten, hdescribes, htidy, hbar⟩ := ih
    exact ⟨_, descriptor_homogeneous hwritten, .homogeneous (hbar hunion) hdescribes, htidy.element,
      fun _ => whole_append.2 ⟨hbar hunion, whole_of_marks_eq_nil rfl rfl⟩⟩
  | mapping _ _ ihk ihv =>
    obtain ⟨k, hk, hdk, htk, -⟩ := ihk
    obtain ⟨v, hv, hdv, htv, -⟩ := ihv
    have hbar : Whole '|' 0 (mappingChars k (' ' :: v)) :=
      whole_mappingChars htk htv rfl (Int.le_refl 0)
    refine ⟨_, descriptor_mapping hk hv, .mapping hbar ?_ ?_ ?_, tidy_mappingChars htk htv,
      fun _ => hbar⟩
    · exact ⟨htk.comma, by rw [htk.depth, add_zero], whole_cons.2 ⟨rfl, htv.comma⟩⟩
    · rwa [htk.trim_eq]
    · rwa [trim_cons_of_isBlank rfl, htv.trim_eq]
  | @union ts hlen _ hunion ih =>
    choose! text hwritten hdescribes htidy hbar using ih
    let ms := ts.map fun t => (text t, t)
    have htypes : ms.map Prod.snd = ts := by simp [ms, Function.comp_def]
    have htexts : ms.map Prod.fst = ts.map text := by simp [ms, Function.comp_def]
    have hparts : Parts '|' 0 (ms.map Prod.fst) := by
      refine parts_of_tidy ?_ fun p hp => ?_
      · rw [htexts, Ne, List.map_eq_nil_iff]
        rintro rfl
        cases hlen
      · rw [htexts] at hp
        obtain ⟨t, ht, rfl⟩ := List.mem_map.1 hp
        exact ⟨htidy t ht, hbar t ht (hunion t ht)⟩
    have hms : ∀ m ∈ ms, Describes m.1 m.2 ∧ descriptor m.2 = .ok (String.ofList m.1) := by
      intro m hm
      obtain ⟨t, ht, rfl⟩ := List.mem_map.1 hm
      exact ⟨hdescribes t ht, hwritten t ht⟩
    have hjoined : Tidy (['|'].intercalate (ms.map Prod.fst)) := by
      rw [htexts]
      exact tidy_intercalate (by simpa using htidy)
    rw [← htypes]
    exact ⟨_, descriptor_union fun m hm => (hms m hm).2,
      .union (by simpa [ms] using hlen) hparts fun m hm => (hms m hm).1, hjoined, by rintro ⟨⟩⟩

/-- Reading the descriptor of an expressible type gives the type back. -/
theorem Expressible.ofDescriptor_eq {t : Ty} {d : String} (h : Expressible t)
    (hd : t.descriptor = .ok d) : ofDescriptor (some d) = t := by
  obtain ⟨cs, hwritten, hdescribes, -⟩ := h.exists_text
  rw [hd, Except.ok.injEq] at hwritten
  rw [hwritten, ofDescriptor, String.toList_ofList]
  exact hdescribes.ofChars_eq

theorem Expressible.eq_of_descriptor_eq {t u : Ty} (ht : Expressible t) (hu : Expressible u)
    (h : t.descriptor = u.descriptor) : t = u := by
  obtain ⟨cs, hwritten, -⟩ := ht.exists_text
  rw [← ht.ofDescriptor_eq hwritten, hu.ofDescriptor_eq (h ▸ hwritten)]

/-- An expressible type has a descriptor, reading it gives the type back, and no other expressible
type has that descriptor. -/
theorem descriptor_read_back {t : Ty} (h : Expressible t) :
    (∃ d, t.descriptor = .ok d ∧ ofDescriptor (some d) = t) ∧
      ∀ u, Expressible u → u.descriptor = t.descriptor → u = t := by
  obtain ⟨cs, hwritten, -⟩ := h.exists_text
  exact ⟨⟨_, hwritten, h.ofDescriptor_eq hwritten⟩, fun _ hu => hu.eq_of_descriptor_eq h⟩

/-- Arrays of mappings to a union, beside a label with a blank inside. -/
theorem descriptor_read_back_nested :
    let t : Ty := .union [.homogeneous (.mapping .string (.union [.int, .float])),
      .primitive "my type"]
    let d := "array<string, int|float>[]|my type"
    t.descriptor = .ok d ∧ ofDescriptor (some d) = t ∧
      ∀ u, Expressible u → u.descriptor = .ok d → u = t := by
  intro t d
  have hnumber : Expressible (.union [.int, .float]) :=
    .pair (.primitive (by decide)) (.primitive (by decide)) rfl rfl
  have hmapping : Expressible (.mapping .string (.union [.int, .float])) :=
    .mapping (.primitive (by decide)) hnumber
  have ht : Expressible t := .pair (.homogeneous hmapping rfl) (.primitive (by decide)) rfl rfl
  have hd : t.descriptor = .ok d := by with_unfolding_all rfl
  obtain ⟨⟨d', hd', hread⟩, hunique⟩ := descriptor_read_back ht
  rw [hd] at hd' hunique
  cases hd'
  exact ⟨hd, hread, hunique⟩

end ValueTrace.Ty
