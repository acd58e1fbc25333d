import Mathlib.Tactic.Choose
import ValueTrace.Proofs.Splitting
import ValueTrace.Ty.Descriptor

/-!
# Reading descriptors

`Describes` gives the grammar of descriptors: which text stands for which type expression. Reading
follows it exactly (`describes_iff`), and every text has a meaning. What is written for a type that
was read need not be the text that it was read from: blanks are lost around the parts of a mapping,
and `mixed` is put where a part is empty. But the two texts are `Alike`, so that they are cut at the
same places, and reading the second gives the same type (`Describes.rewritten`).
-/

namespace ValueTrace.Ty

open Text

/-! ## The forms of a text -/

/-- The text `array<key,value>`. -/
def mappingChars (k v : List Char) : List Char :=
  ['a', 'r', 'r', 'a', 'y'] ++ '<' :: (k ++ ',' :: v) ++ ['>']

theorem elementText?_eq_some {cs e : List Char} :
    elementText? cs = some e ↔ cs = e ++ ['[', ']'] := by
  unfold elementText?
  constructor
  · intro h
    split at h
    · next rest hrest =>
      cases h
      rw [← cs.reverse_reverse, hrest]
      simp
    · cases h
  · rintro rfl
    simp

theorem arrayText?_eq_some {cs e : List Char} :
    arrayText? cs = some e ↔ cs = ['a', 'r', 'r', 'a', 'y', '<'] ++ e ++ ['>'] := by
  unfold arrayText?
  constructor
  · intro h
    split at h
    · next rest =>
      split at h
      · next inner hinner =>
        cases h
        rw [← rest.reverse_reverse, hinner]
        simp
      · cases h
    · cases h
  · rintro rfl
    simp

theorem mappingTexts?_eq_some {cs k v : List Char} :
    mappingTexts? cs = some (k, v) ↔
      ∃ k₀ v₀, cs = mappingChars k₀ v₀ ∧ Parts ',' 0 [k₀, v₀] ∧ k = trim k₀ ∧ v = trim v₀ := by
  unfold mappingTexts?
  constructor
  · intro h
    split at h
    · cases h
    · next inner harray =>
      split at h
      · next k₀ v₀ hsplit =>
        cases h
        obtain ⟨hparts, rfl⟩ := (splitFrom_eq_iff rfl).1 hsplit
        refine ⟨k₀, v₀, ?_, hparts, rfl, rfl⟩
        rw [arrayText?_eq_some.1 harray, mappingChars]
        simp [List.intercalate_cons_cons]
      · cases h
  · rintro ⟨k₀, v₀, rfl, hparts, rfl, rfl⟩
    have harray : arrayText? (mappingChars k₀ v₀) = some ([','].intercalate [k₀, v₀]) := by
      rw [arrayText?_eq_some, mappingChars]
      simp [List.intercalate_cons_cons]
    have hsplit : splitOutside ',' ([','].intercalate [k₀, v₀]) = [k₀, v₀] :=
      hparts.splitFrom_eq rfl
    rw [harray]
    simp only [hsplit]

theorem elementText?_mappingChars (k v : List Char) : elementText? (mappingChars k v) = none := by
  simp [elementText?, mappingChars]

theorem startsBlank_mappingChars (k v : List Char) : startsBlank (mappingChars k v) = false := rfl

theorem endsBlank_mappingChars (k v : List Char) : endsBlank (mappingChars k v) = false :=
  endsBlank_append_cons rfl

theorem alike_mappingChars {k k' v v' : List Char} (hk : marks k = marks k')
    (hv : marks v = marks v') : Alike (mappingChars k v) (mappingChars k' v') := by
  refine ⟨?_, rfl, by rw [endsBlank_mappingChars, endsBlank_mappingChars]⟩
  have hmarks (k v : List Char) :
      marks (mappingChars k v) = '<' :: (marks k ++ ',' :: marks v) ++ ['>'] := by
    simp [mappingChars, marks, isMark]
  rw [hmarks, hmarks, hk, hv]

/-! ## The grammar -/

/-- Which text describes which type expression. -/
inductive Describes : List Char → Ty → Prop
  | empty : Describes [] .unknown
  | unknown : Describes mixed.toList .unknown
  | union {ms : List (List Char × Ty)} (hlen : 2 ≤ ms.length)
    (hparts : Parts '|' 0 (ms.map Prod.fst)) (h : ∀ m ∈ ms, Describes m.1 m.2) :
    Describes (['|'].intercalate (ms.map Prod.fst)) (.union (ms.map Prod.snd))
  | homogeneous {e : List Char} {t : Ty} (hbar : Whole '|' 0 e) (h : Describes e t) :
    Describes (e ++ ['[', ']']) (.homogeneous t)
  | mapping {k v : List Char} {tk tv : Ty} (hbar : Whole '|' 0 (mappingChars k v))
    (hparts : Parts ',' 0 [k, v]) (hk : Describes (trim k) tk) (hv : Describes (trim v) tv) :
    Describes (mappingChars k v) (.mapping tk tv)
  /-- Any other text is a label. -/
  | label {cs : List Char} (hne : cs ≠ []) (hmixed : cs ≠ mixed.toList) (hbar : Whole '|' 0 cs)
    (he : elementText? cs = none) (hm : mappingTexts? cs = none) :
    Describes cs (.primitive (String.ofList cs))

/-- What is read from a text is what it describes. -/
theorem describes_ofChars (cs : List Char) : Describes cs (ofChars cs) := by
  fun_induction ofChars cs with
  | case1 cs h =>
    rcases h with rfl | rfl
    · exact .empty
    · exact .unknown
  | case2 cs _ hcut ih =>
    let ms := (splitOutside '|' cs).map fun p => (p, ofChars p)
    have htexts : ms.map Prod.fst = splitOutside '|' cs := by
      simp [ms, Function.comp_def]
    have htypes : ms.map Prod.snd = (splitOutside '|' cs).attach.map fun p => ofChars p.1 := by
      rw [List.attach_map_val]
      simp [ms, Function.comp_def]
    have hms : ∀ m ∈ ms, Describes m.1 m.2 := by
      intro m hm
      obtain ⟨p, hp, rfl⟩ := List.mem_map.1 hm
      exact ih ⟨p, hp⟩
    have hjoin : ['|'].intercalate (splitOutside '|' cs) = cs := intercalate_splitFrom '|' 0 cs
    have hparts : Parts '|' 0 (ms.map Prod.fst) := htexts ▸ parts_splitFrom '|' 0 cs
    have h := Describes.union (by simpa [ms] using hcut) hparts hms
    rwa [htexts, hjoin, htypes] at h
  | case3 cs _ hcut e he ih =>
    obtain rfl := elementText?_eq_some.1 he
    exact .homogeneous (whole_append.1 (whole_iff_length.2 hcut)).1 ih
  | case4 cs _ hcut _ k v hm ihk ihv =>
    obtain ⟨k₀, v₀, rfl, hparts, rfl, rfl⟩ := mappingTexts?_eq_some.1 hm
    exact .mapping (whole_iff_length.2 hcut) hparts ihk ihv
  | case5 cs h hcut he hm =>
    rw [not_or] at h
    exact .label h.1 h.2 (whole_iff_length.2 hcut) he hm

theorem ofChars_of_cut {cs : List Char} (h : 2 ≤ (splitOutside '|' cs).length) :
    ofChars cs = union ((splitOutside '|' cs).map ofChars) := by
  have hshort : ¬ (cs = [] ∨ cs = mixed.toList) := by
    rintro (rfl | rfl) <;> exact absurd h (by decide)
  rw [ofChars, if_neg hshort, if_pos h, List.attach_map_val]

theorem ofChars_of_whole {cs : List Char} (hne : cs ≠ []) (hmixed : cs ≠ mixed.toList)
    (h : Whole '|' 0 cs) :
    ofChars cs =
      match elementText? cs with
      | some e => homogeneous (ofChars e)
      | none =>
        match mappingTexts? cs with
        | some (k, v) => mapping (ofChars k) (ofChars v)
        | none => primitive (String.ofList cs) := by
  have hshort : ¬ (cs = [] ∨ cs = mixed.toList) := not_or.2 ⟨hne, hmixed⟩
  have hcut : ¬ 2 ≤ (splitOutside '|' cs).length := whole_iff_length.1 h
  rw [ofChars, if_neg hshort, if_neg hcut]
  split
  · next e he => simp only [he]
  · next he =>
    split
    · next k v hm => simp only [he, hm]
    · next hm => simp only [he, hm]

theorem Describes.ofChars_eq {cs : List Char} {t : Ty} (h : Describes cs t) : ofChars cs = t := by
  induction h with
  | empty => rw [ofChars, if_pos (.inl rfl)]
  | unknown => rw [ofChars, if_pos (.inr rfl)]
  | @union ms hlen hparts _ ih =>
    have hsplit : splitOutside '|' (['|'].intercalate (ms.map Prod.fst)) = ms.map Prod.fst :=
      hparts.splitFrom_eq rfl
    rw [ofChars_of_cut (by rwa [hsplit, List.length_map]), hsplit, List.map_map]
    congr 1
    exact List.map_congr_left ih
  | @homogeneous e t hbar _ ih =>
    have hwhole : Whole '|' 0 (e ++ ['[', ']']) :=
      whole_append.2 ⟨hbar, whole_of_notMem (by decide)⟩
    have he : elementText? (e ++ ['[', ']']) = some e := elementText?_eq_some.2 rfl
    have hmixed : e ++ ['[', ']'] ≠ mixed.toList := by
      intro heq
      rw [heq] at he
      cases he
    rw [ofChars_of_whole (by simp) hmixed hwhole, he]
    simp only [ih]
  | @mapping k v tk tv hbar hparts _ _ ihk ihv =>
    have hne : mappingChars k v ≠ [] := by simp [mappingChars]
    have hmixed : mappingChars k v ≠ mixed.toList := by rintro ⟨⟩
    rw [ofChars_of_whole hne hmixed hbar, elementText?_mappingChars,
      mappingTexts?_eq_some.2 ⟨k, v, rfl, hparts, rfl, rfl⟩]
    simp only [ihk, ihv]
  | label hne hmixed hbar he hm => rw [ofChars_of_whole hne hmixed hbar, he, hm]

theorem describes_iff {cs : List Char} {t : Ty} : Describes cs t ↔ ofChars cs = t :=
  ⟨Describes.ofChars_eq, fun h => h ▸ describes_ofChars cs⟩

/-! ## Written forms -/

theorem descriptor_unknown : descriptor unknown = .ok (String.ofList mixed.toList) := by
  rw [unknown, descriptor, String.ofList_toList]

theorem descriptor_primitive {cs : List Char} (h : cs ≠ []) :
    descriptor (.primitive (String.ofList cs)) = .ok (String.ofList cs) := by
  have hne : String.ofList cs ≠ "" := by simpa using h
  rw [primitive, descriptor, shownLabel, if_neg hne]

theorem descriptor_homogeneous {t : Ty} {cs : List Char}
    (h : descriptor t = .ok (String.ofList cs)) :
    descriptor (.homogeneous t) = .ok (String.ofList (cs ++ ['[', ']'])) := by
  rw [homogeneous, descriptor, h, String.ofList_append]
  rfl

theorem descriptor_mapping {tk tv : Ty} {k v : List Char}
    (hk : descriptor tk = .ok (String.ofList k)) (hv : descriptor tv = .ok (String.ofList v)) :
    descriptor (.mapping tk tv) = .ok (String.ofList (mappingChars k (' ' :: v))) := by
  rw [mapping, descriptor, hk, hv]
  show Except.ok ("array<" ++ String.ofList k ++ ", " ++ String.ofList v ++ ">") = _
  congr 1
  rw [← String.toList_inj]
  simp [mappingChars]

theorem descriptors_map {ms : List (List Char × Ty)}
    (h : ∀ m ∈ ms, descriptor m.2 = .ok (String.ofList m.1)) :
    descriptors (ms.map Prod.snd) = .ok ((ms.map Prod.fst).map String.ofList) := by
  induction ms with
  | nil => rfl
  | cons m ms ih =>
    rw [List.map_cons, descriptors, h m List.mem_cons_self,
      ih fun m' hm' => h m' (List.mem_cons_of_mem m hm')]
    rfl

theorem descriptor_union {ms : List (List Char × Ty)}
    (h : ∀ m ∈ ms, descriptor m.2 = .ok (String.ofList m.1)) :
    descriptor (.union (ms.map Prod.snd)) =
      .ok (String.ofList (['|'].intercalate (ms.map Prod.fst))) := by
  rw [union, descriptor, descriptors_map h]
  show Except.ok ("|".intercalate ((ms.map Prod.fst).map String.ofList)) = _
  congr 1
  rw [← String.toList_inj, String.toList_intercalate, String.toList_ofList, List.map_map]
  simp [Function.comp_def]

/-! ## Reading what was written -/

/-- The type that a text describes is also described by the text that is written for it, which looks
like the first one. -/
theorem Describes.rewritten {cs : List Char} {t : Ty} (h : Describes cs t) :
    ∃ cs', descriptor t = .ok (String.ofList cs') ∧ Describes cs' t ∧ Alike cs cs' := by
  -- Likeness is part of the induction: the text around a part is cut where it was before only if
  -- the part has kept its marks, and the parts of a mapping are trimmed only at their blank ends.
  induction h with
  | empty => exact ⟨_, descriptor_unknown, .unknown, by constructor <;> rfl⟩
  | unknown => exact ⟨_, descriptor_unknown, .unknown, .refl _⟩
  | @union ms hlen hparts _ ih =>
    choose! text hwritten hdescribes halike using ih
    let ms' := ms.map fun m => (text m, m.2)
    have htypes : ms'.map Prod.snd = ms.map Prod.snd := by simp [ms', Function.comp_def]
    have htexts : ms'.map Prod.fst = ms.map text := by simp [ms', Function.comp_def]
    have hmarks : (ms.map Prod.fst).map marks = (ms'.map Prod.fst).map marks := by
      rw [htexts, List.map_map, List.map_map]
      exact List.map_congr_left fun m hm => (halike m hm).marks
    have hall : ∀ m ∈ ms', Describes m.1 m.2 ∧ descriptor m.2 = .ok (String.ofList m.1) := by
      intro m hm
      obtain ⟨m₀, hm₀, rfl⟩ := List.mem_map.1 hm
      exact ⟨hdescribes m₀ hm₀, hwritten m₀ hm₀⟩
    rw [← htypes]
    refine ⟨_, descriptor_union fun m hm => (hall m hm).2,
      .union (by simpa [ms'] using hlen) (hparts.congr rfl hmarks) fun m hm => (hall m hm).1, ?_⟩
    rw [htexts]
    exact .intercalate rfl halike
  | @homogeneous e t hbar _ ih =>
    obtain ⟨e', hwritten, hdescribes, halike⟩ := ih
    exact ⟨_, descriptor_homogeneous hwritten,
      .homogeneous ((whole_congr rfl halike.marks).1 hbar) hdescribes,
      halike.append_cons rfl (.refl _)⟩
  | @mapping k v tk tv hbar hparts _ _ ihk ihv =>
    obtain ⟨k', hk, hdk, hak⟩ := ihk
    obtain ⟨v', hv, hdv, hav⟩ := ihv
    have hmk : marks k = marks k' := by rw [← hak.marks, marks_trim]
    have hmv : marks v = marks (' ' :: v') := by
      rw [marks_cons, ← hav.marks, marks_trim]
      rfl
    have halike := alike_mappingChars hmk hmv
    refine ⟨_, descriptor_mapping hk hv, .mapping ?_ ?_ ?_ ?_, halike⟩
    · exact (whole_congr rfl halike.marks).1 hbar
    · exact hparts.congr rfl (by simp [hmk, hmv])
    · rwa [hak.trim_eq]
    · rwa [trim_cons_of_isBlank rfl, hav.trim_eq]
  | @label cs hne hmixed hbar he hm =>
    exact ⟨cs, descriptor_primitive hne, .label hne hmixed hbar he hm, .refl cs⟩

/-! ## Normal forms -/

/-- The type expressions that can be read: a union has several members and does not stand in a
union or before `[]`, and a label is read as a label. -/
inductive Normal : Ty → Prop
  | unknown : Normal .unknown
  | primitive {label : String} (hne : label ≠ "") (hmixed : label ≠ mixed)
    (hread : ofDescriptor (some label) = .primitive label) : Normal (.primitive label)
  | homogeneous {t : Ty} (h : Normal t) (hunion : t.isUnion = false) : Normal (.homogeneous t)
  | mapping {k v : Ty} (hk : Normal k) (hv : Normal v) : Normal (.mapping k v)
  | union {ts : List Ty} (hlen : 2 ≤ ts.length) (h : ∀ t ∈ ts, Normal t)
    (hunion : ∀ t ∈ ts, t.isUnion = false) : Normal (.union ts)

theorem Describes.isUnion_eq_false {cs : List Char} {t : Ty} (h : Describes cs t)
    (hbar : Whole '|' 0 cs) : t.isUnion = false := by
  cases h with
  | union hlen hparts _ =>
    rw [Whole, hparts.splitFrom_eq rfl] at hbar
    have := congrArg List.length hbar
    simp only [List.length_map, List.length_singleton] at this
    omega
  | _ => rfl

theorem Describes.normal {cs : List Char} {t : Ty} (h : Describes cs t) : t.Normal := by
  induction h with
  | empty | unknown => exact .unknown
  | @union ms hlen hparts h ih =>
    refine .union (by rwa [List.length_map]) ?_ ?_
    · intro t ht
      obtain ⟨m, hm, rfl⟩ := List.mem_map.1 ht
      exact ih m hm
    · intro t ht
      obtain ⟨m, hm, rfl⟩ := List.mem_map.1 ht
      exact (h m hm).isUnion_eq_false (hparts.whole_of_mem (List.mem_map_of_mem hm))
  | homogeneous hbar h ih => exact .homogeneous ih (h.isUnion_eq_false hbar)
  | mapping _ _ _ _ ihk ihv => exact .mapping ihk ihv
  | @label cs hne hmixed hbar he hm =>
    refine .primitive ?_ ?_ ?_
    · simpa using hne
    · intro h
      exact hmixed (by rw [← h, String.toList_ofList])
    · rw [ofDescriptor, String.toList_ofList]
      exact (Describes.label hne hmixed hbar he hm).ofChars_eq

/-- Every text is read as a type in normal form. It has a descriptor, and reading that descriptor
gives the same type again. -/
theorem ofDescriptor_stable (s : String) :
    (ofDescriptor (some s)).Normal ∧
      ∃ d, (ofDescriptor (some s)).descriptor = .ok d ∧
        ofDescriptor (some d) = ofDescriptor (some s) := by
  have h : Describes s.toList (ofDescriptor (some s)) := describes_ofChars s.toList
  obtain ⟨cs, hwritten, hdescribes, -⟩ := h.rewritten
  refine ⟨h.normal, _, hwritten, ?_⟩
  rw [ofDescriptor, String.toList_ofList]
  exact hdescribes.ofChars_eq

end ValueTrace.Ty
