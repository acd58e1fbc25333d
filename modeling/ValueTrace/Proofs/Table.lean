import Mathlib.Data.List.Induction
import Mathlib.Data.List.Nodup
import ValueTrace.Table

/-!
# Laws of tables

A write either replaces one entry in its place or adds one at the end (`entries_insert_of_mem`,
`entries_insert_of_notMem`); all other laws follow from these two. `mapValues` applies a function to
every value of a table, and `insertAll` writes a list of entries one after the other.
-/

namespace ValueTrace.Table

variable {κ α β : Type}

/-- The table with a function applied to every value. -/
def mapValues (f : α → β) (t : Table κ α) : Table κ β := ⟨t.entries.map fun e => (e.1, f e.2)⟩

theorem mapValues_congr {f g : α → β} {t : Table κ α} (h : ∀ e ∈ t.entries, f e.2 = g e.2) :
    t.mapValues f = t.mapValues g := by
  unfold mapValues
  congr 1
  apply List.map_congr_left
  intro e he
  rw [h e he]

theorem mem_values {t : Table κ α} {a : α} : a ∈ t.values ↔ ∃ k, (k, a) ∈ t.entries := by
  simp [values]

theorem mem_keys {t : Table κ α} {k : κ} : k ∈ t.keys ↔ ∃ a, (k, a) ∈ t.entries := by
  simp [keys]

theorem last?_eq (t : Table κ α) : t.last? = t.entries.getLast?.map Prod.snd := by
  rw [last?, values, List.getLast?_map]

variable [DecidableEq κ]

/-! ## Where a write goes -/

theorem insertEntry_of_notMem {k : κ} (a : α) {es : List (κ × α)} (h : k ∉ es.map Prod.fst) :
    insertEntry k a es = es ++ [(k, a)] := by
  induction es with
  | nil => rfl
  | cons e es ih =>
    simp only [List.map_cons, List.mem_cons, not_or] at h
    rw [insertEntry, if_neg (fun he => h.1 he.symm), ih h.2, List.cons_append]

theorem insertEntry_append_cons {k : κ} (a b : α) {l : List (κ × α)} (r : List (κ × α))
    (h : k ∉ l.map Prod.fst) : insertEntry k a (l ++ (k, b) :: r) = l ++ (k, a) :: r := by
  induction l with
  | nil => simp [insertEntry]
  | cons e l ih =>
    simp only [List.map_cons, List.mem_cons, not_or] at h
    rw [List.cons_append, insertEntry, if_neg (fun he => h.1 he.symm), ih h.2, List.cons_append]

theorem entries_insert_of_notMem {t : Table κ α} {k : κ} (a : α) (h : k ∉ t.keys) :
    (t.insert k a).entries = t.entries ++ [(k, a)] :=
  insertEntry_of_notMem a h

/-- A present key splits the entries, and a write to it replaces what stands at the split. -/
theorem entries_insert_of_mem {t : Table κ α} {k : κ} (h : k ∈ t.keys) :
    ∃ l b r, t.entries = l ++ (k, b) :: r ∧ k ∉ l.map Prod.fst ∧
      ∀ a, (t.insert k a).entries = l ++ (k, a) :: r := by
  obtain ⟨l, r, hk, hl⟩ := List.eq_append_cons_of_mem h
  obtain ⟨l₀, r₀, he, rfl, hr₀⟩ := List.map_eq_append_iff.1 hk
  obtain ⟨e, r₁, rfl, rfl, -⟩ := List.map_eq_cons_iff.1 hr₀
  refine ⟨l₀, e.2, r₁, he, hl, fun a => ?_⟩
  show insertEntry e.1 a t.entries = _
  rw [he]
  exact insertEntry_append_cons a e.2 r₁ hl

/-! ## Entries and look-ups -/

theorem mem_entries_insert {t : Table κ α} {k : κ} {a : α} {e : κ × α}
    (h : e ∈ (t.insert k a).entries) : e = (k, a) ∨ e ∈ t.entries := by
  by_cases hk : k ∈ t.keys
  · obtain ⟨l, b, r, ht, -, hi⟩ := entries_insert_of_mem hk
    rw [hi, List.mem_append, List.mem_cons] at h
    rw [ht, List.mem_append, List.mem_cons]
    tauto
  · rw [entries_insert_of_notMem a hk, List.mem_append, List.mem_singleton] at h
    exact h.symm

theorem mem_values_insert {t : Table κ α} {k : κ} {a b : α} (h : b ∈ (t.insert k a).values) :
    b = a ∨ b ∈ t.values := by
  obtain ⟨k', h⟩ := mem_values.1 h
  rcases mem_entries_insert h with he | he
  · exact .inl (congrArg Prod.snd he)
  · exact .inr (mem_values.2 ⟨k', he⟩)

theorem mem_entries_of_get? {t : Table κ α} {k : κ} {a : α} (h : t.get? k = some a) :
    (k, a) ∈ t.entries := by
  obtain ⟨es⟩ := t
  simp only [get?] at h ⊢
  induction es with
  | nil => cases h
  | cons e es ih =>
    rw [findEntry] at h
    split_ifs at h with hk
    · cases h
      subst hk
      exact List.mem_cons_self
    · exact List.mem_cons_of_mem _ (ih h)

theorem get?_eq_none_iff {t : Table κ α} {k : κ} : t.get? k = none ↔ k ∉ t.keys := by
  obtain ⟨es⟩ := t
  simp only [get?, keys]
  induction es with
  | nil => simp [findEntry]
  | cons e es ih =>
    rw [findEntry, List.map_cons, List.mem_cons, not_or]
    split_ifs with hk
    · simp [hk]
    · rw [ih]
      exact ⟨fun h => ⟨fun he => hk he.symm, h⟩, fun h => h.2⟩

theorem get?_of_mem_entries {t : Table κ α} (hn : t.keys.Nodup) {k : κ} {a : α}
    (h : (k, a) ∈ t.entries) : t.get? k = some a := by
  rcases hb : t.get? k with _ | b
  · exact absurd (mem_keys.2 ⟨a, h⟩) (get?_eq_none_iff.1 hb)
  · have hinj := List.inj_on_of_nodup_map hn (mem_entries_of_get? hb) h rfl
    rw [Prod.mk.injEq] at hinj
    rw [hinj.2]

theorem nodup_keys_insert {t : Table κ α} (hn : t.keys.Nodup) (k : κ) (a : α) :
    (t.insert k a).keys.Nodup := by
  rw [keys_insert]
  split_ifs with hk
  · exact hn
  · exact List.Nodup.append hn (List.nodup_singleton k) (by simpa using hk)

theorem mem_keys_insert {t : Table κ α} {k k' : κ} {a : α} :
    k' ∈ (t.insert k a).keys ↔ k' = k ∨ k' ∈ t.keys := by
  rw [keys_insert]
  split_ifs with hk
  · exact ⟨.inr, fun h => h.elim (fun he => he ▸ hk) id⟩
  · rw [List.mem_append, List.mem_singleton, or_comm]

theorem keys_prefix_insert (t : Table κ α) (k : κ) (a : α) : t.keys <+: (t.insert k a).keys := by
  rw [keys_insert]
  split_ifs
  · exact List.prefix_rfl
  · exact List.prefix_append _ _

/-! ## The last value -/

/-- A write to a new key, or to the key that came in last, is the last value. -/
theorem last?_insert_of_last {t : Table κ α} (hn : t.keys.Nodup) {k : κ} (a : α)
    (h : k ∉ t.keys ∨ t.keys.getLast? = some k) : (t.insert k a).last? = some a := by
  by_cases hk : k ∈ t.keys
  · obtain ⟨l, b, r, ht, -, hi⟩ := entries_insert_of_mem hk
    have hlast := h.resolve_left (not_not_intro hk)
    rw [keys, ht, List.map_append, List.map_cons] at hn hlast
    have hr : r = [] := by
      by_contra hne
      have hmem : k ∈ r.map Prod.fst := by
        have hne' : r.map Prod.fst ≠ [] := by simpa using hne
        rw [List.getLast?_append, List.getLast?_cons, List.getLast?_eq_some_getLast hne'] at hlast
        simp only [Option.getD_some, Option.some_or, Option.some.injEq] at hlast
        exact hlast ▸ List.getLast_mem hne'
      exact (List.nodup_cons.1 (List.nodup_append.1 hn).2.1).1 hmem
    rw [last?_eq, hi, hr]
    simp
  · rw [last?_eq, entries_insert_of_notMem a hk]
    simp

/-- A write to a key that others came in after leaves the last value as it is. -/
theorem last?_insert_of_not_last {t : Table κ α} {k : κ} (a : α) (hk : k ∈ t.keys)
    (h : t.keys.getLast? ≠ some k) : (t.insert k a).last? = t.last? := by
  obtain ⟨l, b, r, ht, -, hi⟩ := entries_insert_of_mem hk
  have hr : r ≠ [] := by
    rintro rfl
    exact h (by simp [keys, ht])
  rw [last?_eq, last?_eq, hi, ht]
  simp [List.getLast?_append, List.getLast?_cons, List.getLast?_eq_some_getLast hr]

/-! ## Mapped tables -/

theorem get?_mapValues (f : α → β) (t : Table κ α) (k : κ) :
    (t.mapValues f).get? k = (t.get? k).map f := by
  obtain ⟨es⟩ := t
  simp only [get?, mapValues]
  induction es with
  | nil => rfl
  | cons e es ih =>
    rw [List.map_cons, findEntry, findEntry]
    split_ifs with hk
    · rfl
    · exact ih

theorem mapValues_insert (f : α → β) (t : Table κ α) (k : κ) (a : α) :
    (t.insert k a).mapValues f = (t.mapValues f).insert k (f a) := by
  obtain ⟨es⟩ := t
  simp only [mapValues, insert, mk.injEq]
  induction es with
  | nil => rfl
  | cons e es ih =>
    rw [List.map_cons, insertEntry, insertEntry]
    split_ifs with hk
    · rfl
    · rw [List.map_cons, ih]

theorem insert_mapValues_of_get? {f : α → β} {t : Table κ α} (hn : t.keys.Nodup) {k : κ} {a : α}
    (hk : t.get? k = some a) {g : α → β} (h : ∀ e ∈ t.entries, e.1 ≠ k → g e.2 = f e.2) :
    t.mapValues g = (t.mapValues f).insert k (g a) := by
  have hmem : k ∈ t.keys := mem_keys.2 ⟨a, mem_entries_of_get? hk⟩
  obtain ⟨l, b, r, ht, hl, -⟩ := entries_insert_of_mem hmem
  have hb : b = a := by
    have := get?_of_mem_entries hn (k := k) (a := b) (by rw [ht]; simp)
    rw [hk] at this
    exact (Option.some.inj this).symm
  have hr : k ∉ r.map Prod.fst := by
    rw [keys, ht, List.map_append, List.map_cons] at hn
    exact (List.nodup_cons.1 (List.nodup_append.1 hn).2.1).1
  have hside {es : List (κ × α)} (hes : ∀ e ∈ es, e ∈ t.entries) (hke : k ∉ es.map Prod.fst) :
      (es.map fun e => (e.1, g e.2)) = es.map fun e => (e.1, f e.2) := by
    apply List.map_congr_left
    intro e he
    rw [h e (hes e he) fun hek => hke (hek ▸ List.mem_map_of_mem he)]
  have hkl : k ∉ (l.map fun e => (e.1, f e.2)).map Prod.fst := by simpa using hl
  simp only [mapValues, insert, ht, List.map_append, List.map_cons, mk.injEq]
  rw [insertEntry_append_cons _ _ _ hkl, hb, hside (fun e he => by rw [ht]; simp [he]) hl,
    hside (fun e he => by rw [ht]; simp [he]) hr]

/-! ## Several writes -/

/-- Writes entries one after the other. -/
def insertAll (t : Table κ α) (es : List (κ × α)) : Table κ α :=
  es.foldl (fun t e => t.insert e.1 e.2) t

@[simp] theorem insertAll_nil (t : Table κ α) : t.insertAll [] = t := rfl

@[simp] theorem insertAll_cons (t : Table κ α) (e : κ × α) (es : List (κ × α)) :
    t.insertAll (e :: es) = (t.insert e.1 e.2).insertAll es := rfl

theorem insertAll_append (t : Table κ α) (es es' : List (κ × α)) :
    t.insertAll (es ++ es') = (t.insertAll es).insertAll es' := List.foldl_append

theorem insert_insert_self (t : Table κ α) (k : κ) (a b : α) :
    (t.insert k b).insert k a = t.insert k a := by
  obtain ⟨es⟩ := t
  simp only [insert, mk.injEq]
  induction es with
  | nil => simp [insertEntry]
  | cons e es ih => by_cases h : e.1 = k <;> simp [insertEntry, h, ih]

/-- A write to a present key can be moved before a write to another key. -/
theorem insert_insert_of_mem {t : Table κ α} {k k' : κ} (hk : k ∈ t.keys) (hne : k' ≠ k)
    (a b : α) : (t.insert k' b).insert k a = (t.insert k a).insert k' b := by
  obtain ⟨es⟩ := t
  simp only [insert, mk.injEq, keys] at hk ⊢
  induction es with
  | nil => cases hk
  | cons e es ih =>
    by_cases he : e.1 = k
    · simp [insertEntry, he, hne.symm]
    · have hk' : k ∈ es.map Prod.fst := by
        rw [List.map_cons, List.mem_cons] at hk
        exact hk.resolve_left fun h => he h.symm
      by_cases he' : e.1 = k'
      · simp [insertEntry, he', hne]
      · simp [insertEntry, he, he', ih hk']

theorem insertAll_insert_of_mem {t : Table κ α} {k : κ} (hk : k ∈ t.keys) (a : α)
    {es : List (κ × α)} (hes : k ∉ es.map Prod.fst) :
    (t.insertAll es).insert k a = (t.insert k a).insertAll es := by
  induction es generalizing t with
  | nil => rfl
  | cons e es ih =>
    rw [List.map_cons, List.mem_cons, not_or] at hes
    rw [insertAll_cons, insertAll_cons, ih (mem_keys_insert.2 (.inr hk)) hes.2,
      insert_insert_of_mem hk (Ne.symm hes.1)]

theorem insertAll_insertEntry (t : Table κ α) (k : κ) (a : α) {es : List (κ × α)}
    (hn : (es.map Prod.fst).Nodup) :
    t.insertAll (insertEntry k a es) = (t.insertAll es).insert k a := by
  induction es generalizing t with
  | nil => rfl
  | cons e es ih =>
    rw [List.map_cons, List.nodup_cons] at hn
    by_cases he : e.1 = k
    · have hmem : k ∈ (t.insert k e.2).keys := mem_keys_insert.2 (.inl rfl)
      rw [insertEntry, if_pos he, insertAll_cons, insertAll_cons, he,
        insertAll_insert_of_mem hmem a (he ▸ hn.1), insert_insert_self]
    · rw [insertEntry, if_neg he, insertAll_cons, insertAll_cons, ih _ hn.2]

theorem nodup_keys_insertAll {t : Table κ α} (hn : t.keys.Nodup) (es : List (κ × α)) :
    (t.insertAll es).keys.Nodup := by
  induction es generalizing t with
  | nil => exact hn
  | cons e es ih => exact ih (nodup_keys_insert hn e.1 e.2)

theorem keys_prefix_insertAll (t : Table κ α) (es : List (κ × α)) :
    t.keys <+: (t.insertAll es).keys := by
  induction es generalizing t with
  | nil => exact List.prefix_rfl
  | cons e es ih => exact (keys_prefix_insert t e.1 e.2).trans (ih _)

theorem mem_entries_insertAll {t : Table κ α} {es : List (κ × α)} {e : κ × α}
    (h : e ∈ (t.insertAll es).entries) : e ∈ es ∨ e ∈ t.entries := by
  induction es generalizing t with
  | nil => exact .inr h
  | cons e' es ih =>
    rw [List.mem_cons]
    rcases ih h with he | he
    · exact .inl (.inr he)
    · exact (mem_entries_insert he).imp .inl id

theorem mem_values_insertAll {t : Table κ α} {es : List (κ × α)} {a : α}
    (h : a ∈ (t.insertAll es).values) : a ∈ es.map Prod.snd ∨ a ∈ t.values := by
  obtain ⟨k, hk⟩ := mem_values.1 h
  refine (mem_entries_insertAll hk).imp (fun he => ?_) fun he => mem_values.2 ⟨k, he⟩
  exact List.mem_map_of_mem (f := Prod.snd) he

theorem get?_insertAll_of_notMem (t : Table κ α) {k : κ} {es : List (κ × α)}
    (h : k ∉ es.map Prod.fst) : (t.insertAll es).get? k = t.get? k := by
  induction es generalizing t with
  | nil => rfl
  | cons e es ih =>
    rw [List.map_cons, List.mem_cons, not_or] at h
    rw [insertAll_cons, ih _ h.2, get?_insert_of_ne t h.1]

/-- The last of several writes to a key counts. -/
theorem get?_insertAll_of_last (t : Table κ α) {k : κ} (a : α) (l : List (κ × α))
    {r : List (κ × α)} (h : k ∉ r.map Prod.fst) :
    (t.insertAll (l ++ (k, a) :: r)).get? k = some a := by
  rw [insertAll_append, insertAll_cons, get?_insertAll_of_notMem _ h, get?_insert_self]

/-- Writes do not change which key comes first. -/
theorem entries_insertAll_cons {t : Table κ α} {k : κ} {a : α} {l : List (κ × α)}
    (h : t.entries = (k, a) :: l) (es : List (κ × α)) :
    ∃ a' l', (t.insertAll es).entries = (k, a') :: l' := by
  induction es generalizing t a l with
  | nil => exact ⟨a, l, h⟩
  | cons e es ih =>
    by_cases he : k = e.1
    · refine ih (t := t.insert e.1 e.2) (a := e.2) (l := l) ?_
      rw [insert, h, insertEntry, if_pos he, he]
    · refine ih (t := t.insert e.1 e.2) (a := a) (l := insertEntry e.1 e.2 l) ?_
      rw [insert, h, insertEntry, if_neg he]

/-- Writing the entries of a table that was itself written entry by entry is writing these. -/
theorem insertAll_entries_insertAll (t : Table κ α) (es : List (κ × α)) :
    t.insertAll ((∅ : Table κ α).insertAll es).entries = t.insertAll es := by
  induction es using List.reverseRecOn with
  | nil => rfl
  | append_singleton es e ih =>
    have hn : ((∅ : Table κ α).insertAll es).keys.Nodup :=
      nodup_keys_insertAll (t := ∅) List.nodup_nil es
    rw [insertAll_append, insertAll_append, insertAll_cons, insertAll_cons, insertAll_nil,
      insertAll_nil, ← ih]
    exact insertAll_insertEntry t e.1 e.2 hn

end ValueTrace.Table
