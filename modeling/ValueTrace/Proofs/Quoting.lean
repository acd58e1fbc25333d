import ValueTrace.Lua.Token.Escape
import ValueTrace.Text.Quoted

/-!
# Reading quoted text

A text between quotes can be read back, whatever follows it. `readCharacter` reads one character as
it is written between quotes, and undoes `escape` (`readCharacter_escape`). Since no written
character starts with the quote, the end of the text can be told, and so no two texts are written
alike (`quoteChars_append_inj`). A quoted text has no line break in it
(`newline_notMem_quoteChars`).
-/

namespace ValueTrace.Text

/-! ## Hexadecimal digits -/

theorem hexValue_digitChar {d : Nat} (h : d < 16) : Lua.hexValue (Nat.digitChar d) = d := by
  have hall : ∀ d < 16, Lua.hexValue (Nat.digitChar d) = d := by decide
  exact hall d h

theorem ofHexDigits_concat (cs : List Char) (c : Char) :
    Lua.ofHexDigits (cs ++ [c]) = Lua.ofHexDigits cs * 16 + Lua.hexValue c := by
  simp [Lua.ofHexDigits]

/-- A number that fits into the given width is the one its digits spell. -/
theorem ofHexDigits_hexDigits {width n : Nat} (h : n < Nat.pow 16 width) :
    Lua.ofHexDigits (hexDigits width n) = n := by
  induction width generalizing n with
  | zero =>
    cases Nat.lt_one_iff.1 h
    rfl
  | succ width ih =>
    have hdiv : n / 16 < Nat.pow 16 width := Nat.div_lt_of_lt_mul (by rwa [Nat.mul_comm])
    rw [hexDigits, ofHexDigits_concat, ih hdiv, hexValue_digitChar (Nat.mod_lt n (by decide))]
    omega

theorem newline_notMem_hexDigits (width n : Nat) : '\n' ∉ hexDigits width n := by
  induction width generalizing n with
  | zero => exact List.not_mem_nil
  | succ width ih =>
    rw [hexDigits, List.mem_append, List.mem_singleton, not_or]
    exact ⟨ih _, (Nat.digitChar_ne '\n' rfl).symm⟩

/-! ## Characters between quotes -/

/-- How many hexadecimal digits follow a letter after a backslash. -/
def escapeWidth? : Char → Option Nat
  | 'x' => some 2
  | 'u' => some 4
  | 'U' => some 8
  | _ => none

/-- What a letter or sign without digits stands for after a backslash. -/
def escapedSign : Char → Char
  | 'n' => '\n'
  | 'r' => '\r'
  | 't' => '\t'
  | c => c

/-- Reads one character as it is written between quotes, and gives what follows it. -/
def readCharacter : List Char → Option (Char × List Char)
  | [] => none
  | '\\' :: sign :: cs =>
    match escapeWidth? sign with
    | some width => some (Char.ofNat (Lua.ofHexDigits (cs.take width)), cs.drop width)
    | none => some (escapedSign sign, cs)
  | c :: cs => some (c, cs)

/-- The quotes that a text may stand in. -/
def IsQuote (quote : Char) : Prop := quote = singleQuote ∨ quote = doubleQuote

theorem isQuote_quoteFor (cs : List Char) : IsQuote (quoteFor cs) := by
  unfold quoteFor
  split
  · exact .inr rfl
  · exact .inl rfl

section

variable {quote : Char} (hq : IsQuote quote)
include hq

theorem IsQuote.ne_backslash : quote ≠ '\\' := by
  rcases hq with rfl | rfl <;> decide

/-- The three ways to write a character: as it is, by a sign after a backslash, or by its code
point. -/
theorem escape_cases (c : Char) :
    (c ≠ quote ∧ c ≠ '\\' ∧ c ≠ '\n' ∧ escape quote c = [c]) ∨
    (∃ sign, sign ≠ '\n' ∧ escapeWidth? sign = none ∧ escapedSign sign = c ∧
      escape quote c = ['\\', sign]) ∨
    ∃ letter width, escapeWidth? letter = some width ∧ c.toNat < Nat.pow 16 width ∧
      escape quote c = '\\' :: letter :: hexDigits width c.toNat := by
  unfold escape
  by_cases hsign : c = quote ∨ c = '\\'
  · rw [if_pos hsign]
    refine .inr (.inl ⟨c, ?_, ?_, ?_, rfl⟩) <;>
    · rcases hsign with rfl | rfl
      · rcases hq with rfl | rfl <;> decide
      · decide
  rw [if_neg hsign]
  by_cases hn : c = '\n'
  · subst hn
    exact .inr (.inl ⟨'n', by decide, rfl, rfl, rfl⟩)
  rw [if_neg hn]
  by_cases hr : c = '\r'
  · subst hr
    exact .inr (.inl ⟨'r', by decide, rfl, rfl, rfl⟩)
  rw [if_neg hr]
  by_cases ht : c = '\t'
  · subst ht
    exact .inr (.inl ⟨'t', by decide, rfl, rfl, rfl⟩)
  rw [if_neg ht]
  by_cases hprintable : isPrintable c = true
  · rw [if_pos hprintable]
    rw [not_or] at hsign
    exact .inl ⟨hsign.1, hsign.2, hn, rfl⟩
  rw [if_neg hprintable]
  by_cases hbyte : c.toNat < 0x100
  · rw [if_pos hbyte]
    exact .inr (.inr ⟨'x', 2, rfl, hbyte, rfl⟩)
  rw [if_neg hbyte]
  by_cases hshort : c.toNat < 0x10000
  · rw [if_pos hshort]
    exact .inr (.inr ⟨'u', 4, rfl, hshort, rfl⟩)
  · rw [if_neg hshort]
    exact .inr (.inr ⟨'U', 8, rfl, c.val.toNat_lt, rfl⟩)

/-- A written character is read back, whatever follows it. -/
theorem readCharacter_escape (c : Char) (rest : List Char) :
    readCharacter (escape quote c ++ rest) = some (c, rest) := by
  rcases escape_cases hq c with ⟨-, hc, -, h⟩ | ⟨sign, -, hnone, hsign, h⟩ |
    ⟨letter, width, hwidth, hlt, h⟩ <;> rw [h]
  · rw [List.singleton_append, readCharacter]
    exact fun _ _ hbackslash => absurd hbackslash hc
  · simp only [List.cons_append, List.nil_append, readCharacter, hnone, hsign]
  · have htake : (hexDigits width c.toNat ++ rest).take width = hexDigits width c.toNat :=
      List.take_left' (length_hexDigits width _)
    have hdrop : (hexDigits width c.toNat ++ rest).drop width = rest :=
      List.drop_left' (length_hexDigits width _)
    simp only [List.cons_append, readCharacter, hwidth, htake, hdrop, ofHexDigits_hexDigits hlt,
      Char.ofNat_toNat]

/-- A written character does not start with the quote. -/
theorem quote_cons_ne_escape_append (c : Char) (cs rest : List Char) :
    quote :: cs ≠ escape quote c ++ rest := by
  intro heq
  rcases escape_cases hq c with ⟨hc, -, -, h⟩ | ⟨sign, -, -, -, h⟩ | ⟨letter, width, -, -, h⟩ <;>
    rw [h] at heq
  · exact hc (List.cons.inj heq).1.symm
  · exact hq.ne_backslash (List.cons.inj heq).1
  · exact hq.ne_backslash (List.cons.inj heq).1

/-- A written character has no line break in it. -/
theorem newline_notMem_escape (c : Char) : '\n' ∉ escape quote c := by
  rcases escape_cases hq c with ⟨-, -, hc, h⟩ | ⟨sign, hsign, -, -, h⟩ |
    ⟨letter, width, hwidth, -, h⟩ <;> rw [h]
  · rw [List.mem_singleton]
    exact hc.symm
  · rw [List.mem_cons, List.mem_singleton, not_or]
    exact ⟨by decide, hsign.symm⟩
  · rw [List.mem_cons, List.mem_cons, not_or, not_or]
    refine ⟨by decide, ?_, newline_notMem_hexDigits width _⟩
    rintro rfl
    cases hwidth

/-! ## Whole texts -/

/-- What stands before the closing quote can be told from what follows it. -/
theorem flatMap_escape_append_inj {cs ds rest rest' : List Char}
    (h : cs.flatMap (escape quote) ++ quote :: rest = ds.flatMap (escape quote) ++ quote :: rest') :
    cs = ds ∧ rest = rest' := by
  induction cs generalizing ds with
  | nil =>
    cases ds with
    | nil => exact ⟨rfl, (List.cons.inj h).2⟩
    | cons d ds =>
      rw [List.flatMap_cons, List.append_assoc] at h
      exact absurd h (quote_cons_ne_escape_append hq _ _ _)
  | cons c cs ih =>
    rw [List.flatMap_cons, List.append_assoc] at h
    cases ds with
    | nil => exact absurd h.symm (quote_cons_ne_escape_append hq _ _ _)
    | cons d ds =>
      rw [List.flatMap_cons, List.append_assoc] at h
      have hread := congrArg readCharacter h
      rw [readCharacter_escape hq, readCharacter_escape hq, Option.some.injEq,
        Prod.mk.injEq] at hread
      obtain ⟨rfl, htail⟩ := hread
      obtain ⟨rfl, hrest⟩ := ih htail
      exact ⟨rfl, hrest⟩

end

/-- A text can be read off its quoted form, and so can what follows it. -/
theorem quoteChars_append_inj {cs ds rest rest' : List Char}
    (h : quoteChars cs ++ rest = quoteChars ds ++ rest') : cs = ds ∧ rest = rest' := by
  simp only [quoteChars, List.cons_append, List.append_assoc] at h
  obtain ⟨hquote, h⟩ := List.cons.inj h
  rw [← hquote] at h
  exact flatMap_escape_append_inj (isQuote_quoteFor cs) h

theorem newline_notMem_quoteChars (cs : List Char) : '\n' ∉ quoteChars cs := by
  have hq := isQuote_quoteFor cs
  have hquote : '\n' ≠ quoteFor cs := by rcases hq with hq | hq <;> rw [hq] <;> decide
  rw [quoteChars, List.mem_append, List.mem_cons, List.mem_singleton, List.mem_flatMap]
  rintro ((h | ⟨c, -, h⟩) | h)
  · exact hquote h
  · exact newline_notMem_escape hq c h
  · exact hquote h

end ValueTrace.Text
