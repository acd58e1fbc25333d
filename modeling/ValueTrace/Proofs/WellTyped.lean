import ValueTrace.Proofs.Inference
import ValueTrace.Proofs.Stored

/-!
# Contents and types agree

`Value.WellTyped` says that the type of a value is the one that its content calls for. Inference
keeps to it as long as the variables do (`wellTyped_infer`), and since variables only hold what was
inferred, every value that an analysis stores is well typed. The one exception is a parameter that
was declared without a default and has the type written at its declaration. In particular every
type that is stored has a descriptor, so that the tree of an analysis can be dumped.
-/

namespace ValueTrace

namespace Ty

/-! ## Types that inference gives -/

/-- The type that all members of a list have; nothing is known if they differ. -/
def common : List Ty → Ty
  | [] => unknown
  | t :: ts => if ∀ u ∈ ts, u = t then t else unknown

theorem foldl_merge_unknown (ts : List Ty) :
    ts.foldl (fun sofar t => some (merge sofar t)) (some unknown) = some unknown := by
  induction ts with
  | nil => rfl
  | cons t ts ih =>
    have hm : merge (some unknown) t = unknown := by
      rw [merge]
      split_ifs with h
      · exact h.symm
      · rfl
    rw [List.foldl_cons, hm, ih]

theorem mergeAll_cons (t : Ty) (ts : List Ty) : mergeAll (t :: ts) = some (common (t :: ts)) := by
  show ts.foldl (fun sofar t => some (merge sofar t)) (some t) = _
  induction ts with
  | nil => simp [common]
  | cons u us ih =>
    rw [List.foldl_cons]
    by_cases h : t = u
    · subst h
      have hm : merge (some t) t = t := if_pos rfl
      rw [hm, ih]
      simp [common]
    · have hm : merge (some t) u = unknown := if_neg h
      rw [hm, foldl_merge_unknown]
      simp [common, Ne.symm h]

theorem common_mem_or_unknown (ts : List Ty) : common ts ∈ ts ∨ common ts = unknown := by
  cases ts with
  | nil => exact .inr rfl
  | cons t ts =>
    rw [common]
    split_ifs
    · exact .inl List.mem_cons_self
    · exact .inr rfl

/-- The types of values with a content. -/
inductive Definite : Ty → Prop
  | int : Definite .int
  | float : Definite .float
  | string : Definite .string
  | array : Definite .array
  | homogeneous (t : Ty) : Definite (.homogeneous t)
  | mapping (k v : Ty) : Definite (.mapping k v)

/-- The types that inference gives. -/
inductive Inferred : Ty → Prop
  | unknown : Inferred .unknown
  | int : Inferred .int
  | float : Inferred .float
  | string : Inferred .string
  | array : Inferred .array
  | homogeneous {t : Ty} (h : Inferred t) : Inferred (.homogeneous t)
  | mapping {k v : Ty} (hk : Inferred k) (hv : Inferred v) : Inferred (.mapping k v)
  | union {ts : List Ty} (hlen : 2 ≤ ts.length) (hdef : ∀ t ∈ ts, Definite t)
    (h : ∀ t ∈ ts, Inferred t) : Inferred (.union ts)

theorem Inferred.common {ts : List Ty} (h : ∀ t ∈ ts, Inferred t) : Inferred (common ts) := by
  rcases common_mem_or_unknown ts with hm | he
  · exact h _ hm
  · rw [he]
    exact .unknown

theorem exists_descriptors {ts : List Ty} (h : ∀ t ∈ ts, ∃ s, descriptor t = .ok s) :
    ∃ ss, descriptors ts = .ok ss := by
  induction ts with
  | nil => exact ⟨[], by rw [descriptors]⟩
  | cons t ts ih =>
    obtain ⟨s, hs⟩ := h t List.mem_cons_self
    obtain ⟨ss, hss⟩ := ih fun u hu => h u (List.mem_cons_of_mem _ hu)
    exact ⟨s :: ss, by rw [descriptors, hs, hss]; rfl⟩

theorem Inferred.exists_descriptor {t : Ty} (h : Inferred t) : ∃ s, t.descriptor = .ok s := by
  induction h with
  | unknown => exact ⟨mixed, rfl⟩
  | int => exact ⟨"int", rfl⟩
  | float => exact ⟨"float", rfl⟩
  | string => exact ⟨"string", rfl⟩
  | array => exact ⟨"array", rfl⟩
  | homogeneous _ ih =>
    obtain ⟨s, hs⟩ := ih
    exact ⟨s ++ "[]", by rw [Ty.homogeneous, descriptor, hs]; rfl⟩
  | mapping _ _ ihk ihv =>
    obtain ⟨k, hk⟩ := ihk
    obtain ⟨v, hv⟩ := ihv
    exact ⟨"array<" ++ k ++ ", " ++ v ++ ">", by rw [Ty.mapping, descriptor, hk, hv]; rfl⟩
  | union _ _ _ ih =>
    obtain ⟨ss, hss⟩ := exists_descriptors ih
    exact ⟨"|".intercalate ss, by rw [Ty.union, descriptor, hss]; rfl⟩

theorem exists_descriptor_ofDeclared (label : Option String) :
    ∃ s, (ofDeclared label).descriptor = .ok s := by
  cases label with
  | none => exact ⟨mixed, rfl⟩
  | some l =>
    rw [ofDeclared]
    split_ifs
    · exact ⟨mixed, rfl⟩
    · exact ⟨shownLabel (some l), rfl⟩

end Ty

namespace Value

/-! ## Well-typed values -/

/-- The type of a value is the one that its content calls for. -/
inductive WellTyped : Value → Prop
  | int (name : String) (n line : Int) : WellTyped ⟨name, .int n, .int, line⟩
  | float (name : String) (x : Float) (line : Int) : WellTyped ⟨name, .float x, .float, line⟩
  | text (name s : String) (line : Int) : WellTyped ⟨name, .text s, .string, line⟩
  | empty (name : String) (line : Int) : WellTyped ⟨name, .array [], .array, line⟩
  /-- The keys have the type of the elements. -/
  | homogeneous (name : String) {vs : List Value} (line : Int) (hne : vs ≠ [])
    (hvs : ∀ v ∈ vs, WellTyped v) :
    WellTyped ⟨name, .array vs, .homogeneous (Ty.common (vs.map type)), line⟩
  /-- The keys have another type than the elements. -/
  | mapping (name : String) {vs : List Value} {k : Ty} (line : Int) (hne : vs ≠ [])
    (hvs : ∀ v ∈ vs, WellTyped v) (hk : k.Inferred) (hdiff : k ≠ Ty.common (vs.map type)) :
    WellTyped ⟨name, .array vs, .mapping k (Ty.common (vs.map type)), line⟩
  /-- Nothing is known. -/
  | unknown (name : String) (line : Int) : WellTyped ⟨name, .missing, .unknown, line⟩
  /-- There are several candidates, and each has the type of a content. -/
  | union (name : String) {ts : List Ty} (line : Int) (hlen : 2 ≤ ts.length)
    (hdef : ∀ t ∈ ts, t.Definite) (hts : ∀ t ∈ ts, t.Inferred) :
    WellTyped ⟨name, .missing, .union ts, line⟩

theorem WellTyped.congr {v w : Value} (h : v.WellTyped) (hp : w.payload = v.payload)
    (ht : w.type = v.type) : w.WellTyped := by
  obtain ⟨name, payload, type, line⟩ := w
  simp only at hp ht
  subst hp ht
  cases h with
  | int => exact .int ..
  | float => exact .float ..
  | text => exact .text ..
  | empty => exact .empty ..
  | homogeneous _ _ hne hvs => exact .homogeneous _ _ hne hvs
  | mapping _ _ hne hvs hk hdiff => exact .mapping _ _ hne hvs hk hdiff
  | unknown => exact .unknown ..
  | union _ _ hlen hdef hts => exact .union _ _ hlen hdef hts

theorem WellTyped.rename {v : Value} (h : v.WellTyped) (name : String) :
    (v.rename name).WellTyped :=
  h.congr rfl rfl

theorem WellTyped.inferred {v : Value} (h : v.WellTyped) : v.type.Inferred := by
  induction h with
  | int => exact .int
  | float => exact .float
  | text => exact .string
  | empty => exact .array
  | homogeneous _ _ _ _ ih =>
    refine .homogeneous (.common fun t ht => ?_)
    obtain ⟨v, hv, rfl⟩ := List.mem_map.1 ht
    exact ih v hv
  | mapping _ _ _ _ hk _ ih =>
    refine .mapping hk (.common fun t ht => ?_)
    obtain ⟨v, hv, rfl⟩ := List.mem_map.1 ht
    exact ih v hv
  | unknown => exact .unknown
  | union _ _ hlen hdef hts => exact .union hlen hdef hts

theorem WellTyped.definite {v : Value} (h : v.WellTyped) (hr : v.resolved = true) :
    v.type.Definite := by
  cases h with
  | int => exact .int
  | float => exact .float
  | text => exact .string
  | empty => exact .array
  | homogeneous => exact .homogeneous _
  | mapping => exact .mapping _ _
  | unknown | union => cases hr

/-! ## Inference -/

theorem wellTyped_settle (name : String) (line : Int) {parts : List Value}
    (h : ∀ v ∈ parts, v.WellTyped) : (settle name line parts).WellTyped := by
  unfold settle
  have hfilter : ∀ v ∈ parts.filter resolved, v.WellTyped ∧ v.resolved = true := by
    intro v hv
    rw [List.mem_filter] at hv
    exact ⟨h v hv.1, hv.2⟩
  split
  · exact .unknown name line
  · next v hv => exact (hfilter v (by rw [hv]; exact List.mem_cons_self)).1
  · next vs hnil hone =>
    have htype {t : Ty} (ht : t ∈ (parts.filter resolved).map type) : t.Definite ∧ t.Inferred := by
      obtain ⟨v, hv, rfl⟩ := List.mem_map.1 ht
      exact ⟨(hfilter v hv).1.definite (hfilter v hv).2, (hfilter v hv).1.inferred⟩
    refine .union name line ?_ (fun t ht => (htype ht).1) fun t ht => (htype ht).2
    rw [List.length_map]
    match hvs : parts.filter resolved with
    | [] => exact absurd hvs hnil
    | [v] => exact absurd hvs (hone v)
    | _ :: _ :: _ => simp

theorem wellTyped_ofItems (name : String) (line : Int) {items : List (Ty × Value)}
    (h : ∀ e ∈ items, e.1.Inferred ∧ e.2.WellTyped) : (ofItems name line items).WellTyped := by
  cases items with
  | nil => exact .empty name line
  | cons e items =>
    have hvalues : ∀ v ∈ (e :: items).map Prod.snd, v.WellTyped := by
      intro v hv
      obtain ⟨e', he', rfl⟩ := List.mem_map.1 hv
      exact (h e' he').2
    have hkeys : (Ty.common ((e :: items).map Prod.fst)).Inferred := by
      refine .common fun t ht => ?_
      obtain ⟨e', he', rfl⟩ := List.mem_map.1 ht
      exact (h e' he').1
    have htypes : (e :: items).map (fun e => e.2.type) = ((e :: items).map Prod.snd).map type := by
      rw [List.map_map]
      rfl
    rw [ofItems, htypes, List.map_cons, List.map_cons, List.map_cons, Ty.mergeAll_cons,
      Ty.mergeAll_cons, Ty.ofArray, ← List.map_cons, ← List.map_cons, ← List.map_cons]
    split_ifs with hkv
    · exact .homogeneous name line (by simp) hvalues
    · exact .mapping name line (by simp) hvalues hkeys hkv

end Value

/-! ## Records -/

theorem Value.exists_record {v : Value} (hp : ∃ p, v.payload.record = .ok p)
    (ht : ∃ s, v.type.descriptor = .ok s) : ∃ r, v.record = .ok r := by
  obtain ⟨name, payload, type, line⟩ := v
  obtain ⟨p, hp⟩ := hp
  obtain ⟨s, hs⟩ := ht
  exact ⟨⟨name, p, s, line⟩, by rw [record, hp, hs]; rfl⟩

theorem Value.exists_records {vs : List Value} (h : ∀ v ∈ vs, ∃ r, v.record = .ok r) :
    ∃ rs, records vs = .ok rs := by
  induction vs with
  | nil => exact ⟨[], by rw [records]⟩
  | cons v vs ih =>
    obtain ⟨r, hr⟩ := h v List.mem_cons_self
    obtain ⟨rs, hrs⟩ := ih fun w hw => h w (List.mem_cons_of_mem _ hw)
    exact ⟨r :: rs, by rw [records, hr, hrs]; rfl⟩

theorem Value.WellTyped.exists_record {v : Value} (h : v.WellTyped) : ∃ r, v.record = .ok r := by
  refine Value.exists_record ?_ h.inferred.exists_descriptor
  have harray {vs : List Value} (ih : ∀ w ∈ vs, ∃ r, w.record = .ok r) :
      ∃ p, (Payload.array vs).record = .ok p := by
    obtain ⟨rs, hrs⟩ := exists_records ih
    exact ⟨.array rs, by rw [Payload.record, hrs]; rfl⟩
  induction h with
  | int name n line => exact ⟨.int n, by rw [Payload.record]⟩
  | float name x line => exact ⟨.float x, by rw [Payload.record]⟩
  | text name s line => exact ⟨.text s, by rw [Payload.record]⟩
  | empty => exact harray (by rintro w ⟨⟩)
  | homogeneous _ _ _ hvs ih | mapping _ _ _ hvs _ _ ih =>
    exact harray fun w hw => Value.exists_record (ih w hw) (hvs w hw).inferred.exists_descriptor
  | unknown | union => exact ⟨.missing, by rw [Payload.record]⟩

namespace ScopeTree

theorem exists_dumpHistories {hs : List (String × List Value)}
    (h : ∀ e ∈ hs, ∀ v ∈ e.2, ∃ r, v.record = .ok r) : ∃ d, dumpHistories hs = .ok d := by
  induction hs with
  | nil => exact ⟨[], rfl⟩
  | cons e hs ih =>
    obtain ⟨rs, hrs⟩ := Value.exists_records (h e List.mem_cons_self)
    obtain ⟨d, hd⟩ := ih fun e' he' => h e' (List.mem_cons_of_mem _ he')
    exact ⟨(e.1, rs) :: d, by rw [dumpHistories, hrs, hd]; rfl⟩

theorem exists_dumpParameters {ps : List (String × Value)}
    (h : ∀ e ∈ ps, ∃ r, e.2.record = .ok r) : ∃ d, dumpParameters ps = .ok d := by
  induction ps with
  | nil => exact ⟨[], rfl⟩
  | cons e ps ih =>
    obtain ⟨r, hr⟩ := h e List.mem_cons_self
    obtain ⟨d, hd⟩ := ih fun e' he' => h e' (List.mem_cons_of_mem _ he')
    exact ⟨(e.1, r) :: d, by rw [dumpParameters, hr, hd]; rfl⟩

theorem exists_dumpFunctions {fs : List (String × ScopeTree Value)}
    (h : ∀ e ∈ fs, ∃ d, e.2.dump = .ok d) : ∃ d, dumpFunctions fs = .ok d := by
  induction fs with
  | nil => exact ⟨[], by rw [dumpFunctions]⟩
  | cons e fs ih =>
    obtain ⟨r, hr⟩ := h e List.mem_cons_self
    obtain ⟨d, hd⟩ := ih fun e' he' => h e' (List.mem_cons_of_mem _ he')
    exact ⟨(e.1, r) :: d, by rw [dumpFunctions, hr, hd]; rfl⟩

theorem exists_dumpCalls {cs : List (Int × ScopeTree Value)}
    (h : ∀ e ∈ cs, ∃ d, e.2.dump = .ok d) : ∃ d, dumpCalls cs = .ok d := by
  induction cs with
  | nil => exact ⟨[], by rw [dumpCalls]⟩
  | cons e cs ih =>
    obtain ⟨r, hr⟩ := h e List.mem_cons_self
    obtain ⟨d, hd⟩ := ih fun e' he' => h e' (List.mem_cons_of_mem _ he')
    exact ⟨(e.1, r) :: d, by rw [dumpCalls, hr, hd]; rfl⟩

/-- A tree can be dumped if all values in it have records. -/
theorem exists_dump {name : String} {hs : List (String × List Value)}
    {ps : List (String × Value)} {fs : List (String × ScopeTree Value)}
    {cs : List (Int × ScopeTree Value)} (hhs : ∀ e ∈ hs, ∀ v ∈ e.2, ∃ r, v.record = .ok r)
    (hps : ∀ e ∈ ps, ∃ r, e.2.record = .ok r) (hfs : ∀ e ∈ fs, ∃ d, e.2.dump = .ok d)
    (hcs : ∀ e ∈ cs, ∃ d, e.2.dump = .ok d) : ∃ d, (mk name hs ps fs cs).dump = .ok d := by
  obtain ⟨dh, hdh⟩ := exists_dumpHistories hhs
  obtain ⟨dp, hdp⟩ := exists_dumpParameters hps
  obtain ⟨df, hdf⟩ := exists_dumpFunctions hfs
  obtain ⟨dc, hdc⟩ := exists_dumpCalls hcs
  exact ⟨.mk name dh dp df dc, by rw [dump, hdh, hdp, hdf, hdc]; rfl⟩

end ScopeTree

/-! ## What can be seen -/

/-- Everything that can be seen is well typed. -/
structure Sight.WellTyped (sight : Sight) : Prop where
  latest : ∀ x v, sight.latest? x = some v → v.WellTyped
  parameter : ∀ x v, sight.parameter? x = some v → v.WellTyped

theorem Sight.WellTyped.infer {sight : Sight} (hs : sight.WellTyped) (name : String) (n : Node) :
    (n.infer sight name).WellTyped := by
  induction n using Node.induct generalizing name with
  | use x line =>
    rw [Node.infer]
    split
    · next v hv => exact hs.latest x v hv
    · rcases hp : sight.parameter? name with _ | v
      · exact .unknown name line
      · exact hs.parameter name v hp
  | int k line =>
    rw [Node.infer]
    exact .int name k line
  | float x line =>
    rw [Node.infer]
    exact .float name x line
  | text s line =>
    rw [Node.infer]
    exact .text name s line
  | array items line ih =>
    rw [Node.infer_array]
    refine Value.wellTyped_ofItems name line fun e he => ?_
    obtain ⟨⟨i, place⟩, hi, rfl⟩ := List.mem_map.1 he
    have hmem : i ∈ items := List.fst_mem_of_mem_zipIdx hi
    refine ⟨?_, (ih i hmem).2 _⟩
    unfold Item.keyType
    split
    · exact .int
    · next k hk => exact ((ih i hmem).1 k hk _).inferred
  | call callee args line ih _ =>
    rw [Node.infer_call]
    refine Value.wellTyped_settle name line fun v hv => ?_
    rw [List.mem_singleton.1 hv]
    exact ih name
  | structural n hn ih =>
    rw [Node.infer_of_structural sight hn]
    refine Value.wellTyped_settle name _ fun v hv => ?_
    obtain ⟨c, hc, rfl⟩ := List.mem_map.1 hv
    exact ih c hc name

/-! ## What is stored -/

/-- The value of a parameter that a statement declares without a default: it has no content and the
type written there. -/
def Annotated (fed : List Node) (function : String) (v : Value) : Prop :=
  ∃ params body line, .function function params body line ∈ fed ∧
    ∃ p ∈ params, p.default = none ∧ v = .unresolved p.name (.ofDeclared p.declaredType) p.line

/-- Whatever was found is well typed, apart from the declared types of parameters. -/
structure Findings.WellTyped (fed : List Node) (w : Findings) : Prop where
  histories : ∀ h ∈ w.histories.values, ∀ v ∈ h.values, v.WellTyped
  parameters : ∀ e ∈ w.functions.entries, ∀ v ∈ e.2.parameters.values,
    v.WellTyped ∨ Annotated fed e.1 v
  calls : ∀ e ∈ w.functions.entries, ∀ ps ∈ e.2.calls.values,
    ∃ vs, vs ≠ [] ∧ (∀ v ∈ vs, v.WellTyped) ∧ ps = e.2.parameters.overlay vs

namespace Findings.WellTyped

variable {fed : List Node} {w : Findings}

theorem iff_all : w.WellTyped fed ↔
    w.All Value.WellTyped fun function v => v.WellTyped ∨ Annotated fed function v :=
  ⟨fun ⟨hh, hp, hc⟩ => ⟨hh, hp, hc⟩, fun ⟨hh, hp, hc⟩ => ⟨hh, hp, hc⟩⟩

theorem mono (h : w.WellTyped fed) (ns : List Node) : w.WellTyped (fed ++ ns) := by
  refine ⟨h.histories, fun e he v hv => (h.parameters e he v hv).imp_right ?_, h.calls⟩
  rintro ⟨params, body, line, hmem, hp⟩
  exact ⟨params, body, line, List.mem_append_left ns hmem, hp⟩

theorem sight (h : w.WellTyped fed) : w.sight.WellTyped :=
  ⟨fun _ _ hv => (iff_all.1 h).latest hv, fun x v hv => by cases hv⟩

theorem exists_record_parameter (h : w.WellTyped fed) {e : String × Profile}
    (he : e ∈ w.functions.entries) {v : Value} (hv : v ∈ e.2.parameters.values) :
    ∃ r, v.record = .ok r := by
  rcases h.parameters e he v hv with hv | ⟨-, -, -, -, p, -, -, rfl⟩
  · exact hv.exists_record
  · refine Value.exists_record ⟨.missing, ?_⟩ (Ty.exists_descriptor_ofDeclared _)
    rw [Value.unresolved, Payload.record]

theorem exists_record_call (h : w.WellTyped fed) {e : String × Profile}
    (he : e ∈ w.functions.entries) {ps : Table String Value} (hps : ps ∈ e.2.calls.values)
    {v : Value} (hv : v ∈ ps.values) : ∃ r, v.record = .ok r := by
  obtain ⟨vs, -, hvs, rfl⟩ := h.calls e he ps hps
  rcases Table.mem_values_overlay hv with hv | hv
  · exact (hvs v hv).exists_record
  · exact h.exists_record_parameter he hv

theorem exists_dump (h : w.WellTyped fed) : ∃ d, w.tree.dump = .ok d := by
  refine ScopeTree.exists_dump ?_ (by rintro e ⟨⟩) ?_ (by rintro e ⟨⟩)
  · intro e he v hv
    obtain ⟨e', he', rfl⟩ := List.mem_map.1 he
    exact (h.histories e'.2 (Table.mem_values.2 ⟨e'.1, he'⟩) v hv).exists_record
  · intro e he
    obtain ⟨e', he', rfl⟩ := List.mem_map.1 he
    refine ScopeTree.exists_dump (by rintro e ⟨⟩) ?_ (by rintro e ⟨⟩) ?_
    · intro p hp
      exact h.exists_record_parameter he' (Table.mem_values.2 ⟨p.1, hp⟩)
    · intro c hc
      obtain ⟨c', hc', rfl⟩ := List.mem_map.1 hc
      refine ScopeTree.exists_dump (by rintro e ⟨⟩) ?_ (by rintro e ⟨⟩) (by rintro e ⟨⟩)
      intro p hp
      exact h.exists_record_call he' (Table.mem_values.2 ⟨c'.1, hc'⟩) (Table.mem_values.2 ⟨p.1, hp⟩)

end Findings.WellTyped

namespace Analysis

theorem boundValues_wellTyped {a : Analysis} (h : a.sight.WellTyped) {function : String}
    {args : List Argument} : ∀ v ∈ a.boundValues function args, v.WellTyped := by
  intro v hv
  obtain ⟨arg, -, he⟩ := exists_argument_of_mem_boundValues hv
  rw [he]
  exact (h.infer _ _).rename _

theorem parameter_wellTyped {sight : Sight} (h : sight.WellTyped) (p : Param) :
    (parameter sight p).WellTyped ∨
      p.default = none ∧
        parameter sight p = .unresolved p.name (.ofDeclared p.declaredType) p.line := by
  unfold parameter
  split
  · next hd => exact .inr ⟨hd, rfl⟩
  · exact .inl ((h.infer _ _).congr rfl rfl)

theorem Step.findings_wellTyped {fed : List Node} {a a' : Analysis} {n : Node}
    (hs : Step a n a') (hshape : a.graph.Shaped) (h : a.findings.WellTyped fed) :
    a'.findings.WellTyped (fed ++ [n]) := by
  have hsight : a.sight.WellTyped := by
    rw [Analysis.sight, global, hshape.sight_eq]
    exact h.sight
  rw [Findings.WellTyped.iff_all]
  refine hs.findings_all hshape (Findings.WellTyped.iff_all.1 (h.mono [n])) ?_ ?_ ?_
  · intro x nameLine value line _
    exact (hsight.infer _ _).rename _
  · intro callee args line _ arg _ x
    exact (hsight.infer _ _).rename _
  · rintro function params body line rfl p hp
    refine (parameter_wellTyped hsight p).imp_right fun hd => ?_
    exact ⟨params, body, line, by simp, p, hp, hd⟩

theorem findings_start_wellTyped (verbose : Bool) :
    (Analysis.start verbose).findings.WellTyped [] :=
  Findings.WellTyped.iff_all.2 (findings_start_all verbose (.empty _ _))

theorem Reached.findings_wellTyped {verbose : Bool} {fed : List Node} {a : Analysis}
    (h : Reached verbose fed a) : a.findings.WellTyped fed := by
  have hboth : a.graph.Shaped ∧ a.findings.WellTyped fed :=
    h.induct (P := fun fed a => a.graph.Shaped ∧ a.findings.WellTyped fed)
      (fun _ _ _ _ hp hs => ⟨hs.shaped hp.1, hs.findings_wellTyped hp.1 hp.2⟩)
      (fun _ _ ns hp => ⟨hp.1, hp.2.mono ns⟩)
      ⟨shaped_start verbose, findings_start_wellTyped verbose⟩
  exact hboth.2

/-- Everything that an analysis stores is well typed: the histories, what the next call binds, and
the parameters of functions and calls, apart from parameters declared without a default. So every
type in it has a descriptor, and the tree can be dumped. -/
theorem Reached.stored_wellTyped {verbose : Bool} {fed : List Node} {a : Analysis}
    (h : Reached verbose fed a) :
    (∀ history ∈ (a.graph.scope global).histories.values, ∀ v ∈ history.values, v.WellTyped) ∧
    (∀ function args, ∀ v ∈ a.boundValues function args, v.WellTyped) ∧
    (∀ function f, a.function? function = some f →
      (∀ v ∈ (a.graph.scope f).parameters.values, v.WellTyped ∨ Annotated fed function v) ∧
      ∀ call ∈ (a.graph.scope f).calls.values, ∃ vs, vs ≠ [] ∧ (∀ v ∈ vs, v.WellTyped) ∧
        (a.graph.scope call).parameters = (a.graph.scope f).parameters.overlay vs) ∧
    ∃ tree dump, a.tree? = some tree ∧ tree.dump = .ok dump := by
  have hw := h.findings_wellTyped
  have hsight : a.sight.WellTyped := by
    rw [Analysis.sight, global, h.shaped.sight_eq]
    exact hw.sight
  refine ⟨hw.histories, fun _ _ => boundValues_wellTyped hsight, fun function f hf => ?_, ?_⟩
  · have hget : a.findings.functions.get? function = some (a.graph.profile f) := by
      rw [findings, ScopeGraph.get?_findings]
      exact congrArg (Option.map a.graph.profile) hf
    have hmem := Table.mem_entries_of_get? hget
    refine ⟨hw.parameters _ hmem, fun call hcall => hw.calls _ hmem _ ?_⟩
    obtain ⟨line, hline⟩ := Table.mem_values.1 hcall
    exact Table.mem_values.2 ⟨line, List.mem_map.2 ⟨(line, call), hline, rfl⟩⟩
  · obtain ⟨d, hd⟩ := hw.exists_dump
    exact ⟨a.findings.tree, d, h.shaped.tree?_eq, hd⟩

/-- A list of a number and a text, a function with a declared type, and a call of it. -/
theorem Reached.stored_wellTyped_of_program :
    let program : List Node :=
      [.assign (.variable "xs" 1) (.array [⟨.int 1 1, none, 1⟩, ⟨.text "a" 1, none, 1⟩] 1) 1,
       .function "f" [⟨"p", none, some "Foo", false, 2⟩] [] 2,
       .call (.name "f" 3) [⟨.int 7 3, none, 3⟩] 3]
    let a := ((Analysis.start false).run program).1
    (∃ history ∈ (a.graph.scope global).histories.values, ∃ v ∈ history.values,
      v.type = .mapping .int .unknown ∧ v.WellTyped) ∧
    ∃ f, a.function? "f" = some f ∧ ∀ v ∈ (a.graph.scope f).parameters.values,
      v.WellTyped ∨ Annotated program "f" v := by
  intro program a
  have h : Reached false program a := .run .start program
  obtain ⟨hhistories, -, hfunctions, -⟩ := h.stored_wellTyped
  refine ⟨?_, 1, rfl, (hfunctions "f" 1 rfl).1⟩
  have hmem := List.mem_of_getElem? (l := (a.graph.scope global).histories.values) (i := 1) rfl
  exact ⟨_, hmem, _, List.mem_cons_self, rfl, hhistories _ hmem _ List.mem_cons_self⟩

end Analysis

end ValueTrace
