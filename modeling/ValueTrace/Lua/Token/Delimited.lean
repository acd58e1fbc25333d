import ValueTrace.Lua.Token.Escape

/-!
# Strings and long brackets in Lua

Reads what stands between two delimiters: quotes, between which a backslash starts an escape, or
long brackets of one level, between which everything stands for itself.
-/

namespace ValueTrace.Lua

/-! ## Quotes -/

/-- Reads the rest of a quoted string. The bytes are missing if those of an escape are. -/
def quotedRest (quote : Char) (cs : List Char) (bytes : Option ByteArray) (breaks : Nat) :
    Option (Option ByteArray × Nat × List Char) :=
  match cs with
  | [] => none
  | c :: rest =>
    if c = quote then some (bytes, breaks, rest)
    else if c = '\\' then
      match escape? rest with
      | none => none
      | some e =>
        have := e.le
        quotedRest quote e.rest (e.appendTo bytes) (breaks + e.breaks)
    else
      quotedRest quote rest (bytes.map (· ++ (String.singleton c).toUTF8))
        (if c = '\n' then breaks + 1 else breaks)
termination_by cs.length
decreasing_by
  · simp only [List.length_cons]; omega
  · simp

theorem length_quotedRest_lt {quote : Char} {cs rest : List Char} {bytes bytes' : Option ByteArray}
    {breaks breaks' : Nat} (h : quotedRest quote cs bytes breaks = some (bytes', breaks', rest)) :
    rest.length < cs.length := by
  fun_induction quotedRest quote cs bytes breaks with
  | case1 => cases h
  | case2 => cases h; simp
  | case3 => cases h
  | case4 bytes breaks more hq e he hle ih =>
    have hrest := ih h
    simp only [List.length_cons]
    omega
  | case5 bytes breaks c more hq hc ih =>
    have hrest := ih h
    simp only [List.length_cons]
    omega

/-! ## Long brackets -/

/-- The number of equals signs between the opening brackets of a long bracket, and its content. -/
def longOpening? : List Char → Option (Nat × List Char)
  | '[' :: cs =>
    match cs.dropWhile (· = '=') with
    | '[' :: content => some ((cs.takeWhile (· = '=')).length, content)
    | _ => none
  | _ => none

/-- What follows the rest of a closing long bracket, after its first bracket. -/
def longClosing? (level : Nat) (cs : List Char) : Option (List Char) :=
  if (List.replicate level '=').isPrefixOf cs then
    match cs.drop level with
    | ']' :: rest => some rest
    | _ => none
  else none

/-- The content of a long bracket, and what follows it. -/
def longContent? (level : Nat) : List Char → Option (List Char × List Char)
  | [] => none
  | c :: cs =>
    match if c = ']' then longClosing? level cs else none with
    | some rest => some ([], rest)
    | none => (longContent? level cs).map fun (content, rest) => (c :: content, rest)

theorem length_longOpening_lt {cs content : List Char} {level : Nat}
    (h : longOpening? cs = some (level, content)) : content.length < cs.length := by
  unfold longOpening? at h
  split at h
  · next cs' =>
    have hdrop := Text.length_dropWhile_le (fun c => decide (c = '=')) cs'
    split at h
    · next inner heq =>
      rw [heq] at hdrop
      simp only [List.length_cons] at hdrop ⊢
      cases h
      omega
    · cases h
  · cases h

theorem length_longClosing_lt {level : Nat} {cs rest : List Char}
    (h : longClosing? level cs = some rest) : rest.length < cs.length := by
  unfold longClosing? at h
  split at h
  · split at h
    · next more heq =>
      have hl := congrArg List.length heq
      simp only [List.length_drop, List.length_cons] at hl
      cases h
      omega
    · cases h
  · cases h

theorem length_longContent_lt {level : Nat} {cs content rest : List Char}
    (h : longContent? level cs = some (content, rest)) : rest.length < cs.length := by
  induction cs generalizing content with
  | nil => cases h
  | cons c cs ih =>
    simp only [List.length_cons]
    unfold longContent? at h
    split at h
    · next r hr =>
      split at hr
      · have hlt := length_longClosing_lt hr
        cases h
        omega
      · cases hr
    · cases hc : longContent? level cs with
      | none => rw [hc] at h; cases h
      | some r =>
        obtain ⟨content', rest'⟩ := r
        rw [hc] at h
        cases h
        have hlt := ih hc
        omega

end ValueTrace.Lua
