import ValueTrace.Text.Blank
import ValueTrace.Text.Split
import ValueTrace.Ty.Basic

/-!
# Descriptors

A descriptor is the text of a type expression: `int`, `int[]`, `array<string, mixed>`,
`int|string`, or `mixed` where nothing is known. `descriptor` writes it and fails on a record that
lacks parts; `ofDescriptor` reads it and never fails, since any text is at least a label.
-/

namespace ValueTrace

/-- Why a type expression has no descriptor. -/
inductive ShapeError where
  /-- A homogeneous array without an element type. -/
  | noElement
  /-- A mapping that does not have exactly two parts. -/
  | notAPair
  deriving DecidableEq

namespace Ty

/-- The descriptor of a type of which nothing is known. -/
def mixed : String := "mixed"

/-! ## Writing -/

/-- The label to show: one that is missing or empty says nothing. -/
def shownLabel (label : Option String) : String :=
  match label with
  | none => mixed
  | some l => if l = "" then mixed else l

mutual
/-- The text of a type expression. -/
def descriptor : Ty → Except ShapeError String
  | mk .unknown _ _ => .ok mixed
  | mk .primitive label _ => .ok (shownLabel label)
  | mk .homogeneous _ [] => .error .noElement
  | mk .homogeneous _ (t :: _) => do
    return (← descriptor t) ++ "[]"
  | mk .mapping _ [k, v] => do
    let key ← descriptor k
    let value ← descriptor v
    return "array<" ++ key ++ ", " ++ value ++ ">"
  | mk .mapping _ [] => .error .notAPair
  | mk .mapping _ [_] => .error .notAPair
  | mk .mapping _ (_ :: _ :: _ :: _) => .error .notAPair
  | mk .union _ ts => do
    return "|".intercalate (← descriptors ts)
/-- The texts of a list of type expressions. -/
def descriptors : List Ty → Except ShapeError (List String)
  | [] => .ok []
  | t :: ts => do
    let first ← descriptor t
    let rest ← descriptors ts
    return first :: rest
end

/-! ## Reading -/

/-- The text before a final `[]`. -/
def elementText? (cs : List Char) : Option (List Char) :=
  match cs.reverse with
  | ']' :: '[' :: rest => some rest.reverse
  | _ => none

/-- The text between `array<` and a final `>`. -/
def arrayText? (cs : List Char) : Option (List Char) :=
  match cs with
  | 'a' :: 'r' :: 'r' :: 'a' :: 'y' :: '<' :: rest =>
    match rest.reverse with
    | '>' :: inner => some inner.reverse
    | _ => none
  | _ => none

/-- The texts of the key and the value in `array<key, value>`. -/
def mappingTexts? (cs : List Char) : Option (List Char × List Char) :=
  match arrayText? cs with
  | none => none
  | some inner =>
    match Text.splitOutside ',' inner with
    | [k, v] => some (Text.trim k, Text.trim v)
    | _ => none

theorem length_elementText {cs e : List Char} (h : elementText? cs = some e) :
    e.length < cs.length := by
  unfold elementText? at h
  split at h
  · next rest hr =>
    have hl := congrArg List.length hr
    simp only [List.length_reverse, List.length_cons] at hl
    cases h
    simp only [List.length_reverse]
    omega
  · cases h

theorem length_arrayText {cs e : List Char} (h : arrayText? cs = some e) :
    e.length < cs.length := by
  unfold arrayText? at h
  split at h
  · next rest =>
    split at h
    · next inner hr =>
      have hl := congrArg List.length hr
      simp only [List.length_reverse, List.length_cons] at hl
      cases h
      simp only [List.length_reverse, List.length_cons]
      omega
    · cases h
  · cases h

theorem length_mappingTexts {cs k v : List Char} (h : mappingTexts? cs = some (k, v)) :
    k.length < cs.length ∧ v.length < cs.length := by
  unfold mappingTexts? at h
  split at h
  · cases h
  · next inner ha =>
    have hi := length_arrayText ha
    split at h
    · next k₀ v₀ hs =>
      have hk : k₀.length ≤ inner.length := Text.length_le_of_mem_splitOutside (by rw [hs]; simp)
      have hv : v₀.length ≤ inner.length := Text.length_le_of_mem_splitOutside (by rw [hs]; simp)
      have hk' := Text.length_trim_le k₀
      have hv' := Text.length_trim_le v₀
      cases h
      omega
    · cases h

/-- The type expression that a list of characters describes. Bars outside brackets bind loosest,
then a final `[]`, then `array<key, value>`; anything else is a label. -/
def ofChars (cs : List Char) : Ty :=
  if cs = [] ∨ cs = mixed.toList then unknown
  else
    if 2 ≤ (Text.splitOutside '|' cs).length then
      union ((Text.splitOutside '|' cs).attach.map fun member => ofChars member.1)
    else
      match _he : elementText? cs with
      | some e => homogeneous (ofChars e)
      | none =>
        match _hm : mappingTexts? cs with
        | some (k, v) => mapping (ofChars k) (ofChars v)
        | none => primitive (String.ofList cs)
termination_by cs.length
decreasing_by
  · next hcut => exact Text.length_lt_of_mem_splitOutside member.2 hcut
  · exact length_elementText _he
  · exact (length_mappingTexts _hm).1
  · exact (length_mappingTexts _hm).2

/-- The type expression that a descriptor describes. A missing one says nothing. -/
def ofDescriptor : Option String → Ty
  | none => unknown
  | some s => ofChars s.toList

/-- The type written at a declaration, which keeps its spelling. -/
def ofDeclared : Option String → Ty
  | none => unknown
  | some label => if label = "" ∨ label = mixed then unknown else primitive label

end Ty

end ValueTrace
