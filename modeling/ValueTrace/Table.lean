/-!
# Insertion-ordered tables

A `Table` maps keys to values and lists its entries in the order in which the keys came in. Writing
to a key that is present replaces its value and keeps its place; a new key goes to the end.
-/

namespace ValueTrace

/-- A finite map whose entries stand in the order of first insertion. -/
structure Table (κ α : Type) where
  entries : List (κ × α) := []

namespace Table

variable {κ α : Type}

instance : EmptyCollection (Table κ α) := ⟨{}⟩

instance : Inhabited (Table κ α) := ⟨∅⟩

/-- The keys, oldest first. -/
def keys (t : Table κ α) : List κ := t.entries.map Prod.fst

/-- The values, in the order of their keys. -/
def values (t : Table κ α) : List α := t.entries.map Prod.snd

def isEmpty (t : Table κ α) : Bool := t.entries.isEmpty

/-- The value whose key came in last. -/
def last? (t : Table κ α) : Option α := t.values.getLast?

@[simp] theorem entries_empty : (∅ : Table κ α).entries = [] := rfl

variable [DecidableEq κ]

/-- The value of the first entry at a key. -/
def findEntry (k : κ) : List (κ × α) → Option α
  | [] => none
  | e :: es => if e.1 = k then some e.2 else findEntry k es

/-- Puts an entry at the place of its key, or at the end if the key is new. -/
def insertEntry (k : κ) (a : α) : List (κ × α) → List (κ × α)
  | [] => [(k, a)]
  | e :: es => if e.1 = k then (k, a) :: es else e :: insertEntry k a es

/-- The value at a key. -/
def get? (t : Table κ α) (k : κ) : Option α := findEntry k t.entries

/-- Writes a value at a key. -/
def insert (t : Table κ α) (k : κ) (a : α) : Table κ α := ⟨insertEntry k a t.entries⟩

/-! ## What a write does to the views -/

@[simp] theorem get?_empty (k : κ) : (∅ : Table κ α).get? k = none := rfl

@[simp] theorem get?_insert_self (t : Table κ α) (k : κ) (a : α) :
    (t.insert k a).get? k = some a := by
  obtain ⟨es⟩ := t
  simp only [get?, insert]
  induction es with
  | nil => simp [insertEntry, findEntry]
  | cons e es ih => by_cases h : e.1 = k <;> simp [insertEntry, findEntry, h, ih]

theorem get?_insert_of_ne (t : Table κ α) {k k' : κ} (h : k' ≠ k) (a : α) :
    (t.insert k a).get? k' = t.get? k' := by
  obtain ⟨es⟩ := t
  simp only [get?, insert]
  induction es with
  | nil => simp [insertEntry, findEntry, h.symm]
  | cons e es ih =>
    by_cases h₀ : e.1 = k
    · simp [insertEntry, findEntry, h₀, h.symm]
    · simp [insertEntry, findEntry, h₀, ih]

/-- A key that is present keeps its place and a new one goes to the end. -/
theorem keys_insert (t : Table κ α) (k : κ) (a : α) :
    (t.insert k a).keys = if k ∈ t.keys then t.keys else t.keys ++ [k] := by
  obtain ⟨es⟩ := t
  simp only [keys, insert]
  induction es with
  | nil => simp [insertEntry]
  | cons e es ih =>
    obtain ⟨k₀, a₀⟩ := e
    by_cases h : k₀ = k
    · simp [insertEntry, h]
    · have h' : ¬k = k₀ := fun hk => h hk.symm
      simp only [insertEntry, h, if_false, List.map_cons, ih, List.mem_cons, h', false_or]
      by_cases hk : k ∈ es.map Prod.fst <;> simp only [hk, if_true, if_false, List.cons_append]

end Table

end ValueTrace
