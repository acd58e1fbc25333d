import Mathlib
import ValueTrace.Proofs.Attempts
import ValueTrace.Proofs.Quoting
import ValueTrace.Value.Text

/-!
# Texts of payloads

The text of a payload without floating-point numbers says what the payload is: whether it is
missing, which integer or text it is, or which elements it has. The argument goes through what may
follow a text inside an array. The first character tells the sort of a payload (`head_shown`), a
quoted text ends at its quote, a numeral ends where something follows that cannot belong to it, and
an array ends at its bracket. So a text and all that follows it can be told apart
(`Payload.FloatFree.readable`).
-/

namespace ValueTrace

namespace Payload

/-! ## Payloads without floating-point numbers -/

/-- A payload with no floating-point number in it. -/
inductive FloatFree : Payload → Prop
  | missing : FloatFree .missing
  | int (n : Int) : FloatFree (.int n)
  | text (s : String) : FloatFree (.text s)
  | array {vs : List Value} (h : ∀ v ∈ vs, FloatFree v.payload) : FloatFree (.array vs)

/-- Payloads of the same shape with the same scalars. Names, types and lines of elements may
differ. -/
inductive Same : Payload → Payload → Prop
  | missing : Same .missing .missing
  | int (n : Int) : Same (.int n) (.int n)
  | text (s : String) : Same (.text s) (.text s)
  | array {vs ws : List Value} (h : List.Forall₂ (fun v w => Same v.payload w.payload) vs ws) :
    Same (.array vs) (.array ws)

theorem shownElements_eq_mapM (vs : List Value) :
    shownElements vs = vs.mapM fun v => v.payload.shown := by
  induction vs with
  | nil => rfl
  | cons v vs ih =>
    obtain ⟨name, p, type, line⟩ := v
    rw [shownElements, ih, List.mapM_cons]

theorem shownElements_eq_ok_iff {vs : List Value} {texts : List String} :
    shownElements vs = .ok texts ↔
      List.Forall₂ (fun v text => v.payload.shown = .ok text) vs texts := by
  rw [shownElements_eq_mapM, mapM_eq_ok_iff]

theorem shown_array_eq_ok_iff {vs : List Value} {s : String} :
    (Payload.array vs).shown = .ok s ↔
      ∃ texts, shownElements vs = .ok texts ∧ s = "[" ++ ", ".intercalate texts ++ "]" := by
  rw [shown, bind_eq_ok_iff]
  constructor
  · rintro ⟨texts, htexts, h⟩
    cases h
    exact ⟨texts, htexts, rfl⟩
  · rintro ⟨texts, htexts, rfl⟩
    exact ⟨texts, htexts, rfl⟩

end Payload

/-! ## Numerals -/

/-- Whether a character may stand in the text of an integer. -/
def isNumeral (c : Char) : Bool := c.isDigit || c == '-'

/-- An integer with few enough digits to be written. -/
def ShortInteger (n : Int) : Prop := n.natAbs < Decimal.tenPow Decimal.maxDigits

theorem integerText_eq_ok_iff {n : Int} {s : String} :
    integerText n = .ok s ↔ ShortInteger n ∧ s = n.repr := by
  unfold integerText Decimal.integerText?
  by_cases h : n.natAbs < Decimal.tenPow Decimal.maxDigits
  · rw [if_pos h, Int.toString_eq_repr]
    constructor
    · rintro ⟨⟩
      exact ⟨h, rfl⟩
    · rintro ⟨-, rfl⟩
      rfl
  · rw [if_neg h]
    constructor
    · rintro ⟨⟩
    · rintro ⟨hn, -⟩
      exact absurd hn h

theorem isNumeral_of_mem_repr {n : Int} {c : Char} (h : c ∈ n.repr.toList) :
    isNumeral c = true := by
  have hdigit {k : Nat} (h : c ∈ k.repr.toList) : isNumeral c = true := by
    rw [Nat.toList_repr] at h
    rw [isNumeral, Nat.isDigit_of_mem_toDigits (by decide) (by decide) h, Bool.true_or]
  rw [Int.repr_eq_if] at h
  split at h
  · exact hdigit h
  · rw [String.toList_append] at h
    rcases List.mem_append.1 h with h | h
    · cases List.mem_singleton.1 h
      rfl
    · exact hdigit h

theorem repr_ne_nil (n : Int) : n.repr.toList ≠ [] := by
  have hdigits (k : Nat) : k.repr.toList ≠ [] := by
    rw [Nat.toList_repr]
    exact Nat.toDigits_ne_nil
  rw [Int.repr_eq_if]
  split
  · exact hdigits _
  · rw [String.toList_append]
    exact List.append_ne_nil_of_right_ne_nil _ (hdigits _)

/-- Text that cannot go on with a numeral. -/
def EndsNumeral (rest : List Char) : Prop := ∀ c ∈ rest.head?, isNumeral c = false

theorem takeWhile_isNumeral_repr {n : Int} {rest : List Char} (h : EndsNumeral rest) :
    (n.repr.toList ++ rest).takeWhile isNumeral = n.repr.toList := by
  rw [List.takeWhile_append_of_pos fun c hc => isNumeral_of_mem_repr hc]
  cases rest with
  | nil => simp
  | cons c rest =>
    have hc : isNumeral c = false := h c rfl
    simp [hc]

theorem repr_append_inj {n m : Int} {rest rest' : List Char} (hrest : EndsNumeral rest)
    (hrest' : EndsNumeral rest') (h : n.repr.toList ++ rest = m.repr.toList ++ rest') :
    n = m ∧ rest = rest' := by
  have hnumeral := congrArg (List.takeWhile isNumeral) h
  rw [takeWhile_isNumeral_repr hrest, takeWhile_isNumeral_repr hrest'] at hnumeral
  rw [hnumeral] at h
  exact ⟨Int.repr_inj.1 (String.toList_inj.1 hnumeral), List.append_cancel_left h⟩

/-! ## Arrays -/

/-- The end of the text of an array, from behind an element: the elements that follow it and the
closing bracket. -/
def closing : List String → List Char
  | [] => [']']
  | text :: texts => ',' :: ' ' :: (text.toList ++ closing texts)

theorem endsNumeral_closing (texts : List String) (rest : List Char) :
    EndsNumeral (closing texts ++ rest) := by
  intro c hc
  cases texts <;> cases hc <;> rfl

/-- The elements of an array and the closing bracket. -/
def elementChars : List String → List Char
  | [] => [']']
  | text :: texts => text.toList ++ closing texts

theorem intercalate_append_bracket (text : String) (texts : List String) :
    [',', ' '].intercalate ((text :: texts).map String.toList) ++ [']'] =
      text.toList ++ closing texts := by
  induction texts generalizing text with
  | nil => simp [closing]
  | cons next texts ih =>
    have hnext := ih next
    rw [List.map_cons] at hnext
    rw [List.map_cons, List.map_cons, List.intercalate_cons_cons, List.append_assoc,
      List.append_assoc, hnext]
    rfl

theorem toList_bracketed (texts : List String) :
    ("[" ++ ", ".intercalate texts ++ "]").toList = '[' :: elementChars texts := by
  rw [String.toList_append, String.toList_append, String.toList_intercalate]
  cases texts with
  | nil => rfl
  | cons text texts =>
    rw [elementChars, ← intercalate_append_bracket]
    rfl

namespace Payload

/-! ## The first character -/

/-- The sorts of payloads that are told apart by their first character. -/
inductive Sorting where
  | missing
  | number
  | text
  | array
  deriving DecidableEq

def sorting : Payload → Sorting
  | .missing => .missing
  | .int _ | .float _ => .number
  | .text _ => .text
  | .array _ => .array

/-- The sort of the payloads whose texts start with a character. -/
def sortingOf? (c : Char) : Option Sorting :=
  if isNumeral c then some .number
  else if c = '?' then some .missing
  else if c = '[' then some .array
  else if c = Text.singleQuote ∨ c = Text.doubleQuote then some .text
  else none

theorem FloatFree.head_shown {p : Payload} (hp : p.FloatFree) {s : String} (h : p.shown = .ok s) :
    ∃ c cs, s.toList = c :: cs ∧ sortingOf? c = some p.sorting := by
  cases hp with
  | missing =>
    rw [shown] at h
    cases h
    exact ⟨'?', [], rfl, rfl⟩
  | int n =>
    rw [shown] at h
    obtain ⟨-, rfl⟩ := integerText_eq_ok_iff.1 h
    obtain ⟨c, cs, hcs⟩ := List.exists_cons_of_ne_nil (repr_ne_nil n)
    have hc : isNumeral c = true := isNumeral_of_mem_repr (by rw [hcs]; exact List.mem_cons_self)
    exact ⟨c, cs, hcs, if_pos hc⟩
  | text t =>
    rw [shown] at h
    cases h
    refine ⟨_, _, String.toList_ofList, ?_⟩
    rcases Text.isQuote_quoteFor t.toList with hq | hq <;> rw [hq] <;> rfl
  | array =>
    obtain ⟨texts, -, rfl⟩ := shown_array_eq_ok_iff.1 h
    exact ⟨'[', _, toList_bracketed texts, rfl⟩

/-! ## Whole texts -/

/-- The text of a payload tells what it is, and where it ends. -/
def Readable (p : Payload) : Prop :=
  ∀ {q : Payload} {s t : String} {rest rest' : List Char}, q.FloatFree → p.shown = .ok s →
    q.shown = .ok t → EndsNumeral rest → EndsNumeral rest' →
      s.toList ++ rest = t.toList ++ rest' → p.Same q ∧ rest = rest'

theorem forall₂_same_of_closing {vs ws : List Value} {texts texts' : List String}
    {rest rest' : List Char} (ih : ∀ v ∈ vs, v.payload.Readable)
    (hws : ∀ w ∈ ws, w.payload.FloatFree) (hvs : shownElements vs = .ok texts)
    (hws' : shownElements ws = .ok texts')
    (h : closing texts ++ rest = closing texts' ++ rest') :
    List.Forall₂ (fun v w => v.payload.Same w.payload) vs ws ∧ rest = rest' := by
  rw [shownElements_eq_ok_iff] at hvs hws'
  induction hvs generalizing ws texts' with
  | nil =>
    cases hws' with
    | nil => exact ⟨.nil, (List.cons.inj h).2⟩
    | cons => cases h
  | @cons v text vs texts hv hvs ihvs =>
    cases hws' with
    | nil => cases h
    | @cons w text' ws texts' hw hws' =>
      rw [List.forall_mem_cons] at ih hws
      simp only [closing, List.cons_append, List.append_assoc, List.cons.injEq, true_and] at h
      have hends := endsNumeral_closing texts rest
      have hends' := endsNumeral_closing texts' rest'
      obtain ⟨hsame, htail⟩ := ih.1 hws.1 hv hw hends hends' h
      obtain ⟨hrest, heq⟩ := ihvs ih.2 hws.2 hws' htail
      exact ⟨.cons hsame hrest, heq⟩

/-- The text of an element does not start with a closing bracket. -/
theorem FloatFree.bracket_cons_ne {p : Payload} (hp : p.FloatFree) {s : String}
    (h : p.shown = .ok s) (cs rest : List Char) : ']' :: cs ≠ s.toList ++ rest := by
  obtain ⟨c, tail, hs, hc⟩ := hp.head_shown h
  rw [hs]
  intro heq
  obtain rfl := (List.cons.inj heq).1
  cases hc

theorem forall₂_same_of_elementChars {vs ws : List Value} {texts texts' : List String}
    {rest rest' : List Char} (hfree : ∀ v ∈ vs, v.payload.FloatFree)
    (ih : ∀ v ∈ vs, v.payload.Readable) (hfree' : ∀ w ∈ ws, w.payload.FloatFree)
    (hvs : shownElements vs = .ok texts) (hws : shownElements ws = .ok texts')
    (h : elementChars texts ++ rest = elementChars texts' ++ rest') :
    List.Forall₂ (fun v w => v.payload.Same w.payload) vs ws ∧ rest = rest' := by
  have hvs' := shownElements_eq_ok_iff.1 hvs
  have hws' := shownElements_eq_ok_iff.1 hws
  cases hvs' with
  | nil =>
    cases hws' with
    | nil => exact ⟨.nil, (List.cons.inj h).2⟩
    | cons hw =>
      rw [elementChars, elementChars, List.append_assoc] at h
      exact absurd h ((hfree' _ List.mem_cons_self).bracket_cons_ne hw _ _)
  | cons hv =>
    cases hws' with
    | nil =>
      rw [elementChars, elementChars, List.append_assoc] at h
      exact absurd h.symm ((hfree _ List.mem_cons_self).bracket_cons_ne hv _ _)
    | cons =>
      -- With a comma before them, the first elements are like all others.
      exact forall₂_same_of_closing ih hfree' hvs hws (congrArg (fun cs => ',' :: ' ' :: cs) h)

theorem FloatFree.readable {p : Payload} (hp : p.FloatFree) : p.Readable := by
  -- With the first characters the sorts agree, so each case is left with payloads of one sort.
  have hsort {p q : Payload} {s t : String} {rest rest' : List Char} (hp : p.FloatFree)
      (hq : q.FloatFree) (hs : p.shown = .ok s) (ht : q.shown = .ok t)
      (h : s.toList ++ rest = t.toList ++ rest') : p.sorting = q.sorting := by
    obtain ⟨c, cs, hc, hp⟩ := hp.head_shown hs
    obtain ⟨d, ds, hd, hq⟩ := hq.head_shown ht
    rw [hc, hd] at h
    rw [(List.cons.inj h).1, hq] at hp
    exact (Option.some.inj hp).symm
  induction hp with
  | missing =>
    intro q s t rest rest' hq hs ht _ _ h
    have hsorting := hsort .missing hq hs ht h
    cases hq with
    | missing =>
      rw [shown] at hs ht
      cases hs
      cases ht
      exact ⟨.missing, List.append_cancel_left h⟩
    | int | text | array => cases hsorting
  | int n =>
    intro q s t rest rest' hq hs ht hrest hrest' h
    have hsorting := hsort (.int n) hq hs ht h
    cases hq with
    | int m =>
      rw [shown] at hs ht
      obtain ⟨-, rfl⟩ := integerText_eq_ok_iff.1 hs
      obtain ⟨-, rfl⟩ := integerText_eq_ok_iff.1 ht
      obtain ⟨rfl, heq⟩ := repr_append_inj hrest hrest' h
      exact ⟨.int n, heq⟩
    | missing | text | array => cases hsorting
  | text a =>
    intro q s t rest rest' hq hs ht _ _ h
    have hsorting := hsort (.text a) hq hs ht h
    cases hq with
    | text b =>
      rw [shown] at hs ht
      cases hs
      cases ht
      rw [Text.quoted, Text.quoted, String.toList_ofList, String.toList_ofList] at h
      obtain ⟨hab, heq⟩ := Text.quoteChars_append_inj h
      rw [String.toList_inj.1 hab]
      exact ⟨.text b, heq⟩
    | missing | int | array => cases hsorting
  | array hvs ih =>
    intro q s t rest rest' hq hs ht _ _ h
    have hsorting := hsort (.array hvs) hq hs ht h
    cases hq with
    | array hws =>
      obtain ⟨texts, htexts, rfl⟩ := shown_array_eq_ok_iff.1 hs
      obtain ⟨texts', htexts', rfl⟩ := shown_array_eq_ok_iff.1 ht
      rw [toList_bracketed, toList_bracketed] at h
      obtain ⟨hsame, heq⟩ :=
        forall₂_same_of_elementChars hvs ih hws htexts htexts' (List.cons.inj h).2
      exact ⟨.array hsame, heq⟩
    | missing | int | text => cases hsorting

theorem shownElements_eq_of_same {vs ws : List Value}
    (ih : ∀ v ∈ vs, ∀ {q : Payload}, v.payload.Same q → q.shown = v.payload.shown)
    (h : List.Forall₂ (fun v w => v.payload.Same w.payload) vs ws) :
    shownElements ws = shownElements vs := by
  induction h with
  | nil => rfl
  | @cons v w vs ws hv _ ihvs =>
    rw [List.forall_mem_cons] at ih
    have hfirst := ih.1 hv
    have hrest := ihvs ih.2
    obtain ⟨name, p, type, line⟩ := v
    obtain ⟨name', q, type', line'⟩ := w
    rw [shownElements, hfirst, hrest, shownElements]

theorem FloatFree.shown_eq_of_same {p q : Payload} (hp : p.FloatFree) (h : p.Same q) :
    q.shown = p.shown := by
  induction hp generalizing q with
  | missing | int | text =>
    cases h
    rfl
  | array hvs ih =>
    cases h with
    | array hsame => rw [shown, shown, shownElements_eq_of_same ih hsame]

/-- Payloads without floating-point numbers have the same text only if they are of the same shape
and hold the same scalars, and then they have it. -/
theorem shown_eq_iff_same {p q : Payload} (hp : p.FloatFree) (hq : q.FloatFree) {s : String}
    (hs : p.shown = .ok s) : q.shown = .ok s ↔ p.Same q := by
  constructor
  · intro ht
    have hend : EndsNumeral [] := fun _ hc => by cases hc
    have h : s.toList ++ [] = s.toList ++ [] := rfl
    exact (hp.readable hq hs ht hend hend h).1
  · intro h
    rw [hp.shown_eq_of_same h, hs]

/-- An array of the one text `', '` is not shown like an array of two empty texts. -/
theorem shown_eq_iff_same_of_quotes :
    let element (p : Payload) : Value := ⟨"", p, .string, 1⟩
    let one : Payload := .array [element (.text "', '")]
    let two : Payload := .array [element (.text ""), element (.text "")]
    one.shown = .ok "[\"', '\"]" ∧ two.shown ≠ .ok "[\"', '\"]" := by
  intro element one two
  have hone : one.shown = .ok "[\"', '\"]" := by with_unfolding_all rfl
  have hfree : one.FloatFree := .array (List.forall_mem_singleton.2 (.text _))
  have hfree' : two.FloatFree :=
    .array (List.forall_mem_cons.2 ⟨.text _, List.forall_mem_singleton.2 (.text _)⟩)
  refine ⟨hone, fun htwo => ?_⟩
  -- Arrays of one and of two elements are not the same.
  have hsame : Same (.array [element (.text "', '")])
      (.array [element (.text ""), element (.text "")]) :=
    (shown_eq_iff_same hfree hfree' hone).1 htwo
  cases hsame with
  | array helements => cases helements.length_eq

end Payload

end ValueTrace
