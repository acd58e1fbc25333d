import Mathlib.Data.List.Forall2

/-!
# Attempts

An attempt gives a result or an error. Of attempts made one after the other, the first error counts
and ends the chain (`bind_eq_error_iff`); a list of attempts succeeds exactly if each of them does
(`mapM_eq_ok_iff`). The lemmas hold for any type of errors.
-/

namespace ValueTrace

variable {ε α β γ : Type}

section

variable {x : Except ε α} {f : α → Except ε β}

/-- What a chain that succeeds goes through. -/
theorem bind_eq_ok_iff {b : β} : x >>= f = .ok b ↔ ∃ a, x = .ok a ∧ f a = .ok b := by
  constructor
  · intro h
    cases x with
    | error e => cases h
    | ok a => exact ⟨a, rfl, h⟩
  · rintro ⟨a, rfl, h⟩
    exact h

/-- Where a chain that fails breaks off. -/
theorem bind_eq_error_iff {e : ε} :
    x >>= f = .error e ↔ x = .error e ∨ ∃ a, x = .ok a ∧ f a = .error e := by
  constructor
  · intro h
    cases x with
    | error e' =>
      cases h
      exact .inl rfl
    | ok a => exact .inr ⟨a, rfl, h⟩
  · rintro (rfl | ⟨a, rfl, h⟩)
    · rfl
    · exact h

/-- A result that is only passed on in another form is there as before. -/
theorem exists_bind_pure_eq_ok_iff {g : α → β} :
    (∃ b, (do return g (← x)) = Except.ok b) ↔ ∃ a, x = .ok a := by
  constructor
  · rintro ⟨b, h⟩
    obtain ⟨a, ha, -⟩ := bind_eq_ok_iff.1 h
    exact ⟨a, ha⟩
  · rintro ⟨a, rfl⟩
    exact ⟨g a, rfl⟩

theorem bind_pure_eq_error_iff {g : α → β} {e : ε} :
    (do return g (← x)) = Except.error e ↔ x = .error e := by
  rw [bind_eq_error_iff]
  exact or_iff_left fun ⟨_, _, h⟩ => by cases h

theorem map_eq_ok_iff {g : α → β} {b : β} : g <$> x = .ok b ↔ ∃ a, x = .ok a ∧ b = g a := by
  rw [map_eq_pure_bind, bind_eq_ok_iff]
  refine exists_congr fun a => and_congr_right fun _ => ?_
  exact ⟨fun h => (Except.ok.inj h).symm, congrArg Except.ok ∘ Eq.symm⟩

end

section

variable {f : α → Except ε β} {as : List α} {bs : List β}

theorem mapM_eq_ok_iff :
    as.mapM f = .ok bs ↔ List.Forall₂ (fun a b => f a = .ok b) as bs := by
  induction as generalizing bs with
  | nil =>
    rw [List.mapM_nil, List.forall₂_nil_left_iff]
    exact ⟨fun h => (Except.ok.inj h).symm, congrArg Except.ok ∘ Eq.symm⟩
  | cons a as ih =>
    rw [List.mapM_cons, List.forall₂_cons_left_iff, bind_eq_ok_iff]
    constructor
    · rintro ⟨first, hfirst, h⟩
      obtain ⟨rest, hrest, h⟩ := bind_eq_ok_iff.1 h
      cases h
      exact ⟨first, rest, hfirst, ih.1 hrest, rfl⟩
    · rintro ⟨first, rest, hfirst, hrest, rfl⟩
      exact ⟨first, hfirst, by rw [ih.2 hrest]; rfl⟩

theorem exists_mapM_eq_ok_iff : (∃ bs, as.mapM f = .ok bs) ↔ ∀ a ∈ as, ∃ b, f a = .ok b := by
  simp only [mapM_eq_ok_iff]
  induction as with
  | nil => exact ⟨fun _ _ ha => absurd ha List.not_mem_nil, fun _ => ⟨[], .nil⟩⟩
  | cons a as ih =>
    rw [List.forall_mem_cons, ← ih]
    constructor
    · rintro ⟨_, hb | ⟨hb, hbs⟩⟩
      exact ⟨⟨_, hb⟩, ⟨_, hbs⟩⟩
    · rintro ⟨⟨_, hb⟩, ⟨_, hbs⟩⟩
      exact ⟨_, .cons hb hbs⟩

theorem forall_of_mapM_eq_ok {P : β → Prop} (h : as.mapM f = .ok bs)
    (hP : ∀ a ∈ as, ∀ b, f a = .ok b → P b) : ∀ b ∈ bs, P b := by
  rw [mapM_eq_ok_iff] at h
  induction h with
  | nil => exact fun _ hb => absurd hb List.not_mem_nil
  | cons hb _ ih =>
    rw [List.forall_mem_cons] at hP ⊢
    exact ⟨hP.1 _ hb, ih hP.2⟩

/-- Attempts that agree one by one agree together. -/
theorem mapM_eq_mapM {g : γ → Except ε β} {cs : List γ}
    (h : List.Forall₂ (fun a c => f a = g c) as cs) : as.mapM f = cs.mapM g := by
  induction h with
  | nil => rfl
  | cons hfirst _ ih => rw [List.mapM_cons, List.mapM_cons, hfirst, ih]

/-- An error in a list of attempts is that of one of them. -/
theorem exists_of_mapM_eq_error {R : α → γ → Prop} {cs : List γ} {e : ε}
    (hcs : List.Forall₂ R as cs) (h : as.mapM f = .error e) :
    ∃ a c, R a c ∧ f a = .error e := by
  induction hcs with
  | nil => cases h
  | @cons a c as cs hfirst _ ih =>
    rw [List.mapM_cons] at h
    rcases bind_eq_error_iff.1 h with h | ⟨_, -, h⟩
    · exact ⟨a, c, hfirst, h⟩
    · rcases bind_eq_error_iff.1 h with h | ⟨_, -, h⟩
      · exact ih h
      · cases h

end

end ValueTrace
