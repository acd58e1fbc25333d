/-!
# Splitting outside brackets

`splitOutside d cs` cuts a text at every delimiter `d` that stands outside the angle brackets. The
bracket depth is signed, so a closing bracket too many also shields what follows it.
-/

namespace ValueTrace.Text

/-- What a character adds to the bracket depth. -/
def depthStep (c : Char) : Int :=
  if c = '<' then 1 else if c = '>' then -1 else 0

/-- Whether a character is a delimiter to cut at, at a given bracket depth. -/
def cutsAt (d : Char) (depth : Int) (c : Char) : Bool :=
  c != '<' && c != '>' && c == d && depth == 0

/-- The parts of a text that starts at a given bracket depth. -/
def splitFrom (d : Char) (depth : Int) : List Char → List (List Char)
  | [] => [[]]
  | c :: cs =>
    if cutsAt d depth c then [] :: splitFrom d depth cs
    else (splitFrom d (depth + depthStep c) cs).modifyHead (c :: ·)

/-- The parts of a text between the delimiters that stand outside the angle brackets. -/
def splitOutside (d : Char) (cs : List Char) : List (List Char) := splitFrom d 0 cs

/-! ## The sizes of the parts -/

theorem splitFrom_ne_nil (d : Char) (depth : Int) (cs : List Char) :
    splitFrom d depth cs ≠ [] := by
  induction cs generalizing depth with
  | nil => simp [splitFrom]
  | cons c cs ih =>
    rw [splitFrom]
    split
    · simp
    · simpa using ih _

/-- With the delimiters, the parts make up the length of the text. -/
theorem length_flatten_splitFrom (d : Char) (depth : Int) (cs : List Char) :
    (splitFrom d depth cs).flatten.length + (splitFrom d depth cs).length = cs.length + 1 := by
  induction cs generalizing depth with
  | nil => simp [splitFrom]
  | cons c cs ih =>
    rw [splitFrom]
    split
    · have := ih depth
      simp only [List.flatten_cons, List.nil_append, List.length_cons]
      omega
    · have h := ih (depth + depthStep c)
      cases hp : splitFrom d (depth + depthStep c) cs with
      | nil => exact absurd hp (splitFrom_ne_nil _ _ _)
      | cons p ps =>
        rw [hp] at h
        simp only [List.flatten_cons, List.length_append, List.length_cons,
          List.modifyHead_cons] at h ⊢
        omega

theorem length_le_length_flatten {ps : List (List Char)} {p : List Char} (h : p ∈ ps) :
    p.length ≤ ps.flatten.length :=
  (List.sublist_flatten_of_mem h).length_le

theorem length_le_of_mem_splitOutside {d : Char} {cs p : List Char}
    (h : p ∈ splitOutside d cs) : p.length ≤ cs.length := by
  have hsum := length_flatten_splitFrom d 0 cs
  have hle := length_le_length_flatten h
  have hpos : 0 < (splitFrom d 0 cs).length :=
    List.length_pos_iff.2 (splitFrom_ne_nil d 0 cs)
  simp only [splitOutside] at h hle
  omega

/-- A text that is cut at all has only shorter parts. -/
theorem length_lt_of_mem_splitOutside {d : Char} {cs p : List Char}
    (h : p ∈ splitOutside d cs) (hcut : 2 ≤ (splitOutside d cs).length) :
    p.length < cs.length := by
  have hsum := length_flatten_splitFrom d 0 cs
  have hle := length_le_length_flatten h
  simp only [splitOutside] at h hle hcut
  omega

end ValueTrace.Text
