import Mathlib.Algebra.Group.Int.Defs
import Mathlib.Tactic.ByContra
import Mathlib.Tactic.SplitIfs
import ValueTrace.Text.Blank
import ValueTrace.Text.Split

/-!
# Cuts outside brackets

Where a text is cut depends on its bracket depth alone. `Parts d start ps` says that a text made of
the parts `ps` with delimiters between them is cut just there (`splitFrom_eq_iff`), so that the text
can be put together again and no part is cut a second time. All of this can be read off the `marks`
of a text, which are its brackets, bars and commas. Texts that are `Alike` in their marks and in the
blanks at their ends are cut alike and trimmed alike.
-/

namespace ValueTrace.Text

/-! ## Bracket depth -/

/-- What a text adds to the bracket depth. -/
def depth : List Char → Int
  | [] => 0
  | c :: cs => depthStep c + depth cs

@[simp] theorem depth_nil : depth [] = 0 := rfl

@[simp] theorem depth_cons (c : Char) (cs : List Char) :
    depth (c :: cs) = depthStep c + depth cs := rfl

@[simp] theorem depth_append (p q : List Char) : depth (p ++ q) = depth p + depth q := by
  induction p with
  | nil => simp
  | cons c p ih => rw [List.cons_append, depth_cons, depth_cons, ih, add_assoc]

/-- The depth counts opening brackets up and closing ones down. -/
theorem depth_eq_count (cs : List Char) : depth cs = (cs.count '<' : Int) - cs.count '>' := by
  induction cs with
  | nil => rfl
  | cons c cs ih =>
    rw [depth_cons, ih, depthStep]
    by_cases hopen : c = '<'
    · subst hopen
      rw [if_pos rfl, List.count_cons_self, List.count_cons_of_ne (by decide)]
      omega
    · by_cases hclose : c = '>'
      · subst hclose
        rw [if_neg hopen, if_pos rfl, List.count_cons_self, List.count_cons_of_ne hopen]
        omega
      · rw [if_neg hopen, if_neg hclose, List.count_cons_of_ne hopen,
          List.count_cons_of_ne hclose, zero_add]

theorem depthStep_eq_zero {d : Char} (hopen : d ≠ '<') (hclose : d ≠ '>') : depthStep d = 0 := by
  rw [depthStep, if_neg hopen, if_neg hclose]

theorem cutsAt_self {d : Char} (hd : depthStep d = 0) : cutsAt d 0 d = true := by
  have hopen : d ≠ '<' := by
    rintro rfl
    cases hd
  have hclose : d ≠ '>' := by
    rintro rfl
    cases hd
  simp [cutsAt, hopen, hclose]

theorem eq_and_eq_of_cutsAt {d c : Char} {start : Int} (h : cutsAt d start c = true) :
    c = d ∧ start = 0 := by
  simp only [cutsAt, Bool.and_eq_true, beq_iff_eq] at h
  exact ⟨h.1.2, h.2⟩

theorem cutsAt_of_ne_zero {d c : Char} {start : Int} (h : start ≠ 0) :
    cutsAt d start c = false := by
  by_contra hcut
  exact h (eq_and_eq_of_cutsAt (eq_true_of_ne_false hcut)).2

theorem cutsAt_of_ne {d c : Char} {start : Int} (h : c ≠ d) : cutsAt d start c = false := by
  by_contra hcut
  exact h (eq_and_eq_of_cutsAt (eq_true_of_ne_false hcut)).1

/-! ## Texts without a cut -/

/-- A text without a delimiter to cut at, if it starts at the given depth. -/
def Whole (d : Char) (start : Int) (cs : List Char) : Prop := splitFrom d start cs = [cs]

section Whole

variable {d c : Char} {start : Int} {cs p q : List Char}

@[simp] theorem whole_nil : Whole d start [] := rfl

theorem whole_cons :
    Whole d start (c :: cs) ↔ cutsAt d start c = false ∧ Whole d (start + depthStep c) cs := by
  unfold Whole
  rw [splitFrom]
  split_ifs with hcut
  · simp [hcut]
  · rcases hps : splitFrom d (start + depthStep c) cs with _ | ⟨p, ps⟩
    · exact absurd hps (splitFrom_ne_nil _ _ _)
    · simp [hcut]

theorem whole_append :
    Whole d start (p ++ q) ↔ Whole d start p ∧ Whole d (start + depth p) q := by
  induction p generalizing start with
  | nil => simp
  | cons c p ih =>
    rw [List.cons_append, whole_cons, whole_cons, ih, depth_cons, and_assoc, add_assoc]

/-- A delimiter in a text that is not cut stands inside brackets. -/
theorem Whole.depth_ne_zero (hd : depthStep d = 0) (h : Whole d start (p ++ d :: q)) :
    start + depth p ≠ 0 := by
  intro hdepth
  obtain ⟨-, hrest⟩ := whole_append.1 h
  obtain ⟨hcut, -⟩ := whole_cons.1 hrest
  rw [hdepth, cutsAt_self hd] at hcut
  cases hcut

theorem whole_of_notMem (h : d ∉ cs) : Whole d start cs := by
  induction cs generalizing start with
  | nil => exact whole_nil
  | cons c cs ih =>
    rw [List.mem_cons, not_or] at h
    obtain ⟨hc, hcs⟩ := h
    exact whole_cons.2 ⟨cutsAt_of_ne (Ne.symm hc), ih hcs⟩

end Whole

/-! ## The parts of a text -/

/-- The parts of a text that is cut between them and nowhere else. Each part but the last ends
outside the brackets. -/
def Parts (d : Char) : Int → List (List Char) → Prop
  | _, [] => False
  | start, [p] => Whole d start p
  | start, p :: q :: ps => Whole d start p ∧ start + depth p = 0 ∧ Parts d 0 (q :: ps)

section Parts

variable {d : Char} {start : Int} {cs p : List Char} {ps : List (List Char)}

theorem Parts.whole_of_mem (h : Parts d 0 ps) (hp : p ∈ ps) : Whole d 0 p := by
  induction ps with
  | nil => cases hp
  | cons q ps ih =>
    cases ps with
    | nil =>
      cases List.mem_singleton.1 hp
      exact h
    | cons r ps =>
      obtain ⟨hq, -, hps⟩ := h
      rcases List.mem_cons.1 hp with rfl | hp
      · exact hq
      · exact ih hps hp

theorem Parts.depth_eq_zero (h : Parts d 0 ps) (hp : p ∈ ps.dropLast) : depth p = 0 := by
  induction ps with
  | nil => cases hp
  | cons q ps ih =>
    cases ps with
    | nil => cases hp
    | cons r ps =>
      obtain ⟨-, hdepth, hps⟩ := h
      rcases List.mem_cons.1 hp with rfl | hp
      · rwa [zero_add] at hdepth
      · exact ih hps hp

/-- Text in front that is not cut belongs to the first part. -/
theorem Parts.cons_head {c : Char} (hcut : cutsAt d start c = false)
    (h : Parts d (start + depthStep c) (p :: ps)) : Parts d start ((c :: p) :: ps) := by
  cases ps with
  | nil => exact whole_cons.2 ⟨hcut, h⟩
  | cons q ps =>
    obtain ⟨hp, hdepth, hps⟩ := h
    refine ⟨whole_cons.2 ⟨hcut, hp⟩, ?_, hps⟩
    rw [depth_cons]
    omega

theorem parts_splitFrom (d : Char) (start : Int) (cs : List Char) :
    Parts d start (splitFrom d start cs) := by
  induction cs generalizing start with
  | nil => exact whole_nil
  | cons c cs ih =>
    rw [splitFrom]
    split_ifs with hcut
    · obtain ⟨-, rfl⟩ := eq_and_eq_of_cutsAt hcut
      have h := ih 0
      rcases hps : splitFrom d 0 cs with _ | ⟨p, ps⟩
      · exact absurd hps (splitFrom_ne_nil _ _ _)
      · rw [hps] at h
        exact ⟨whole_nil, by simp, h⟩
    · have h := ih (start + depthStep c)
      rcases hps : splitFrom d (start + depthStep c) cs with _ | ⟨p, ps⟩
      · exact absurd hps (splitFrom_ne_nil _ _ _)
      · rw [hps] at h
        exact h.cons_head (eq_false_of_ne_true hcut)

theorem intercalate_splitFrom (d : Char) (start : Int) (cs : List Char) :
    [d].intercalate (splitFrom d start cs) = cs := by
  induction cs generalizing start with
  | nil => rw [splitFrom, List.intercalate_singleton]
  | cons c cs ih =>
    rw [splitFrom]
    split_ifs with hcut
    · obtain ⟨rfl, -⟩ := eq_and_eq_of_cutsAt hcut
      rw [List.intercalate_cons_of_ne_nil (splitFrom_ne_nil _ _ _), ih]
      rfl
    · have h := ih (start + depthStep c)
      rcases hps : splitFrom d (start + depthStep c) cs with _ | ⟨p, _ | ⟨q, ps⟩⟩
      · exact absurd hps (splitFrom_ne_nil _ _ _)
      · rw [hps, List.intercalate_singleton] at h
        rw [List.modifyHead_cons, List.intercalate_singleton, h]
      · rw [hps, List.intercalate_cons_cons] at h
        rw [List.modifyHead_cons, List.intercalate_cons_cons, ← h]
        rfl

theorem splitFrom_append_of_whole {q : List Char} (h : Whole d start p) :
    splitFrom d start (p ++ q) = (splitFrom d (start + depth p) q).modifyHead (p ++ ·) := by
  induction p generalizing start with
  | nil =>
    rcases hps : splitFrom d start q with _ | ⟨r, ps⟩
    · exact absurd hps (splitFrom_ne_nil _ _ _)
    · simp [hps]
  | cons c p ih =>
    obtain ⟨hcut, hp⟩ := whole_cons.1 h
    rw [List.cons_append, splitFrom, hcut, ih hp, depth_cons, add_assoc]
    simp only [Bool.false_eq_true, if_false, List.modifyHead_modifyHead]
    rfl

theorem Parts.splitFrom_eq (hd : depthStep d = 0) (h : Parts d start ps) :
    splitFrom d start ([d].intercalate ps) = ps := by
  induction ps generalizing start with
  | nil => exact h.elim
  | cons p ps ih =>
    cases ps with
    | nil =>
      rw [List.intercalate_singleton]
      exact h
    | cons q ps =>
      obtain ⟨hp, hdepth, hps⟩ := h
      rw [List.intercalate_cons_cons, List.append_assoc, splitFrom_append_of_whole hp, hdepth,
        List.singleton_append, splitFrom, cutsAt_self hd, ih hps]
      simp

/-- A text is cut into these parts and no others. -/
theorem splitFrom_eq_iff (hd : depthStep d = 0) :
    splitFrom d start cs = ps ↔ Parts d start ps ∧ [d].intercalate ps = cs := by
  constructor
  · rintro rfl
    exact ⟨parts_splitFrom d start cs, intercalate_splitFrom d start cs⟩
  · rintro ⟨h, rfl⟩
    exact h.splitFrom_eq hd

theorem whole_iff_length : Whole d start cs ↔ ¬ 2 ≤ (splitFrom d start cs).length := by
  constructor
  · intro h
    rw [h, List.length_singleton]
    decide
  · intro h
    have hjoin := intercalate_splitFrom d start cs
    rcases hps : splitFrom d start cs with _ | ⟨p, _ | ⟨q, ps⟩⟩
    · exact absurd hps (splitFrom_ne_nil _ _ _)
    · rw [hps, List.intercalate_singleton] at hjoin
      rw [Whole, hps, hjoin]
    · rw [hps] at h
      exact absurd (by simp) h

end Parts

/-- Cutting a text loses nothing and is done once. There is always a part, and the parts joined by
the delimiter are the text again. No part is cut a second time, since at a delimiter left in it the
brackets before it do not balance, and in every part but the last they do. This also holds where
more brackets are closed than opened, or the other way round. -/
theorem splitOutside_lossless_and_final {d : Char} (hopen : d ≠ '<') (hclose : d ≠ '>')
    (cs : List Char) :
    let parts := splitOutside d cs
    [d].intercalate parts = cs ∧ 1 ≤ parts.length ∧
      (∀ p ∈ parts, splitOutside d p = [p]) ∧
      (∀ p ∈ parts, ∀ before after, p = before ++ d :: after →
        (before.count '<' : Int) - before.count '>' ≠ 0) ∧
      ∀ p ∈ parts.dropLast, (p.count '<' : Int) - p.count '>' = 0 := by
  intro parts
  have hd := depthStep_eq_zero hopen hclose
  have hparts : Parts d 0 parts := parts_splitFrom d 0 cs
  have hwhole : ∀ p ∈ parts, Whole d 0 p := fun p hp => hparts.whole_of_mem hp
  refine ⟨intercalate_splitFrom d 0 cs, ?_, hwhole, ?_, ?_⟩
  · exact List.length_pos_iff.2 (splitFrom_ne_nil d 0 cs)
  · rintro p hp before after rfl
    have hdepth := (hwhole _ hp).depth_ne_zero hd
    rwa [zero_add, depth_eq_count] at hdepth
  · intro p hp
    rw [← depth_eq_count]
    exact hparts.depth_eq_zero hp

/-- The first part closes a bracket before it opens one, and the last part opens one too many. -/
theorem splitOutside_lossless_and_final_unbalanced :
    let parts := splitOutside '|' "a>|<b|c<|d".toList
    parts = ["a>|<b".toList, "c<|d".toList] ∧
      ['|'].intercalate parts = "a>|<b|c<|d".toList ∧
      splitOutside '|' "a>|<b".toList = ["a>|<b".toList] := by
  intro parts
  have hparts : parts = ["a>|<b".toList, "c<|d".toList] := by decide
  obtain ⟨hjoin, -, honce, -⟩ := splitOutside_lossless_and_final (d := '|') (by decide) (by decide)
    "a>|<b|c<|d".toList
  refine ⟨hparts, hjoin, honce _ ?_⟩
  rw [show splitOutside '|' "a>|<b|c<|d".toList = _ from hparts]
  exact List.mem_cons_self

/-! ## Marks -/

/-- The characters that bear on where a text is cut. -/
def isMark (c : Char) : Bool := c = '<' ∨ c = '>' ∨ c = '|' ∨ c = ','

def marks (cs : List Char) : List Char := cs.filter isMark

section Marks

variable {d c : Char} {start : Int} {cs cs' p q : List Char}

@[simp] theorem marks_append : marks (p ++ q) = marks p ++ marks q := List.filter_append ..

theorem marks_cons (c : Char) (cs : List Char) : marks (c :: cs) = marks [c] ++ marks cs :=
  marks_append (p := [c])

theorem depthStep_of_not_isMark (h : isMark c = false) : depthStep c = 0 := by
  simp only [isMark, decide_eq_false_iff_not, not_or] at h
  rw [depthStep, if_neg h.1, if_neg h.2.1]

theorem cutsAt_of_not_isMark (hd : isMark d = true) (h : isMark c = false) :
    cutsAt d start c = false := by
  apply cutsAt_of_ne
  rintro rfl
  rw [hd] at h
  cases h

theorem depth_marks (cs : List Char) : depth (marks cs) = depth cs := by
  induction cs with
  | nil => rfl
  | cons c cs ih =>
    rw [marks, List.filter_cons]
    split_ifs with hc
    · rw [depth_cons, depth_cons, ← ih]
      rfl
    · rw [depth_cons, depthStep_of_not_isMark (eq_false_of_ne_true hc), zero_add, ← ih]
      rfl

theorem whole_marks (hd : isMark d = true) : Whole d start (marks cs) ↔ Whole d start cs := by
  induction cs generalizing start with
  | nil => rfl
  | cons c cs ih =>
    rw [marks, List.filter_cons]
    split_ifs with hc
    · rw [whole_cons, whole_cons, ← ih]
      rfl
    · have hc' := eq_false_of_ne_true hc
      rw [whole_cons, depthStep_of_not_isMark hc', add_zero, ← ih]
      simp only [cutsAt_of_not_isMark hd hc', true_and]
      rfl

theorem depth_congr (h : marks cs = marks cs') : depth cs = depth cs' := by
  rw [← depth_marks, h, depth_marks]

theorem whole_congr (hd : isMark d = true) (h : marks cs = marks cs') :
    Whole d start cs ↔ Whole d start cs' := by
  rw [← whole_marks hd, h, whole_marks hd]

/-- Parts with the same marks are cut off alike. -/
theorem Parts.congr {ps qs : List (List Char)} (hd : isMark d = true)
    (h : ps.map marks = qs.map marks) (hps : Parts d start ps) : Parts d start qs := by
  induction ps generalizing start qs with
  | nil => exact hps.elim
  | cons p ps ih =>
    rcases qs with _ | ⟨q, qs⟩
    · cases h
    · rw [List.map_cons, List.map_cons, List.cons.injEq] at h
      rcases ps with _ | ⟨p', ps⟩ <;> rcases qs with _ | ⟨q', qs⟩
      · exact (whole_congr hd h.1).1 hps
      · cases h.2
      · cases h.2
      · obtain ⟨hp, hdepth, hps'⟩ := hps
        exact ⟨(whole_congr hd h.1).1 hp, by rw [← depth_congr h.1, hdepth], ih h.2 hps'⟩

end Marks

/-! ## Blanks at the ends -/

def startsBlank (cs : List Char) : Bool := cs.head?.any isBlank

def endsBlank (cs : List Char) : Bool := cs.getLast?.any isBlank

section Blank

variable {c : Char} {cs p q : List Char}

theorem startsBlank_append_cons (hc : isBlank c = false) :
    startsBlank (p ++ c :: q) = startsBlank p := by
  cases p <;> simp [startsBlank, hc]

theorem startsBlank_reverse (cs : List Char) : startsBlank cs.reverse = endsBlank cs := by
  rw [startsBlank, endsBlank, List.head?_reverse]

theorem endsBlank_append_cons (hc : isBlank c = false) :
    endsBlank (p ++ c :: q) = endsBlank q := by
  rw [← startsBlank_reverse, ← startsBlank_reverse]
  simp [startsBlank_append_cons hc]

theorem endsBlank_reverse (cs : List Char) : endsBlank cs.reverse = startsBlank cs := by
  rw [startsBlank, endsBlank, List.getLast?_reverse]

theorem dropWhile_isBlank_of_startsBlank (h : startsBlank cs = false) :
    cs.dropWhile isBlank = cs := by
  cases cs with
  | nil => rfl
  | cons c cs => exact List.dropWhile_cons_of_neg (by simpa [startsBlank] using h)

theorem startsBlank_dropWhile (cs : List Char) : startsBlank (cs.dropWhile isBlank) = false := by
  rw [startsBlank]
  cases h : (cs.dropWhile isBlank).head? with
  | none => rfl
  | some c =>
    have hnot := List.head?_dropWhile_not isBlank cs
    rw [h] at hnot
    exact hnot

theorem endsBlank_dropWhile (h : endsBlank cs = false) :
    endsBlank (cs.dropWhile isBlank) = false := by
  induction cs with
  | nil => rfl
  | cons c cs ih =>
    rw [List.dropWhile_cons]
    split_ifs
    · cases cs with
      | nil => rfl
      | cons b cs => exact ih h
    · exact h

theorem trim_eq_self (hstart : startsBlank cs = false) (hend : endsBlank cs = false) :
    trim cs = cs := by
  rw [trim, dropWhile_isBlank_of_startsBlank hstart, dropWhile_isBlank_of_startsBlank,
    List.reverse_reverse]
  rw [startsBlank_reverse, hend]

theorem endsBlank_trim (cs : List Char) : endsBlank (trim cs) = false := by
  rw [trim, endsBlank_reverse]
  exact startsBlank_dropWhile _

theorem startsBlank_trim (cs : List Char) : startsBlank (trim cs) = false := by
  rw [trim, startsBlank_reverse]
  apply endsBlank_dropWhile
  rw [endsBlank_reverse]
  exact startsBlank_dropWhile _

theorem trim_cons_of_isBlank (hc : isBlank c = true) : trim (c :: cs) = trim cs := by
  rw [trim, List.dropWhile_cons_of_pos hc, trim]

theorem not_isMark_of_isBlank (h : isBlank c = true) : isMark c = false := by
  by_contra hc
  simp only [Bool.not_eq_false, isMark, decide_eq_true_eq] at hc
  rcases hc with rfl | rfl | rfl | rfl <;> exact absurd h (by decide)

theorem marks_dropWhile_isBlank (cs : List Char) : marks (cs.dropWhile isBlank) = marks cs := by
  induction cs with
  | nil => rfl
  | cons c cs ih =>
    rw [List.dropWhile_cons]
    split_ifs with hc
    · rw [ih, marks, marks, List.filter_cons_of_neg (by simp [not_isMark_of_isBlank hc])]
    · rfl

theorem marks_trim (cs : List Char) : marks (trim cs) = marks cs := by
  rw [trim, marks, List.filter_reverse, ← marks, marks_dropWhile_isBlank, marks,
    List.filter_reverse, List.reverse_reverse, ← marks, marks_dropWhile_isBlank]

end Blank

/-! ## Texts that look alike -/

/-- Two texts with the same marks and with blanks at the same ends. -/
structure Alike (cs cs' : List Char) : Prop where
  marks : marks cs = marks cs'
  startsBlank : startsBlank cs = startsBlank cs'
  endsBlank : endsBlank cs = endsBlank cs'

theorem Alike.refl (cs : List Char) : Alike cs cs := ⟨rfl, rfl, rfl⟩

/-- A text that looks like a trimmed one has no blanks to trim. -/
theorem Alike.trim_eq {cs cs' : List Char} (h : Alike (trim cs) cs') : trim cs' = cs' := by
  apply trim_eq_self
  · rw [← h.startsBlank, startsBlank_trim]
  · rw [← h.endsBlank, endsBlank_trim]

/-- Texts stay alike when they are put together at a character that is not blank. -/
theorem Alike.append_cons {p p' q q' : List Char} {c : Char} (hc : isBlank c = false)
    (hp : Alike p p') (hq : Alike q q') : Alike (p ++ c :: q) (p' ++ c :: q') := by
  refine ⟨?_, ?_, ?_⟩
  · rw [marks_append, marks_append, marks_cons c q, marks_cons c q', hp.marks, hq.marks]
  · rw [startsBlank_append_cons hc, startsBlank_append_cons hc, hp.startsBlank]
  · rw [endsBlank_append_cons hc, endsBlank_append_cons hc, hq.endsBlank]

theorem Alike.intercalate {α : Type} {c : Char} (hc : isBlank c = false) {f g : α → List Char}
    {xs : List α} (h : ∀ x ∈ xs, Alike (f x) (g x)) :
    Alike ([c].intercalate (xs.map f)) ([c].intercalate (xs.map g)) := by
  induction xs with
  | nil => exact .refl _
  | cons x xs ih =>
    have hx := h x List.mem_cons_self
    have hxs := ih fun y hy => h y (List.mem_cons_of_mem x hy)
    cases xs with
    | nil => simpa using hx
    | cons y xs =>
      rw [List.map_cons, List.map_cons, List.map_cons, List.map_cons, List.intercalate_cons_cons,
        List.intercalate_cons_cons, ← List.map_cons, ← List.map_cons, List.append_assoc,
        List.append_assoc]
      exact hx.append_cons hc hxs

end ValueTrace.Text
