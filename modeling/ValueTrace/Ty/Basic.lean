/-!
# Type expressions

A type expression says what is known about the type of a value. It is a record of a kind, an
optional label and parts, and only some records are proper: a homogeneous array has one part, a
mapping has two. `merge` and `ofArray` say how the types of the items of an array combine.
-/

namespace ValueTrace

/-- The kinds of type expressions. -/
inductive Kind where
  | unknown
  | primitive
  | homogeneous
  | mapping
  | union
  deriving DecidableEq

/-- What is known about the type of a value. -/
inductive Ty where
  | mk (kind : Kind) (label : Option String) (parts : List Ty)

namespace Ty

/-- Nothing is known. -/
@[match_pattern]
def unknown : Ty := mk .unknown none []

instance : Inhabited Ty := ⟨unknown⟩

/-- A type known by its label alone. -/
@[match_pattern]
def primitive (label : String) : Ty := mk .primitive (some label) []

/-- An array whose keys and elements have one type. -/
@[match_pattern]
def homogeneous (element : Ty) : Ty := mk .homogeneous none [element]

/-- An array with a type for its keys and one for its elements. -/
@[match_pattern]
def mapping (key value : Ty) : Ty := mk .mapping none [key, value]

/-- One of several types, in the order in which they were met and with repetitions. -/
@[match_pattern]
def union (members : List Ty) : Ty := mk .union none members

def int : Ty := primitive "int"

def float : Ty := primitive "float"

def string : Ty := primitive "string"

def array : Ty := primitive "array"

def kind : Ty → Kind
  | mk kind _ _ => kind

def isUnknown (t : Ty) : Bool := t.kind = .unknown

def isUnion (t : Ty) : Bool := t.kind = .union

/-! ## Equality -/

mutual
/-- Whether two type expressions agree in kind, label and parts. -/
def same : Ty → Ty → Bool
  | mk k l ps, mk k' l' ps' => k = k' && l = l' && sameAll ps ps'
/-- Whether two lists of type expressions agree place by place. -/
def sameAll : List Ty → List Ty → Bool
  | [], [] => true
  | t :: ts, u :: us => same t u && sameAll ts us
  | [], _ :: _ => false
  | _ :: _, [] => false
end

mutual
theorem same_iff : (t u : Ty) → (t.same u ↔ t = u)
  | mk k l ps, mk k' l' ps' => by
    simp [same, sameAll_iff ps ps', and_assoc]
theorem sameAll_iff : (ts us : List Ty) → (sameAll ts us ↔ ts = us)
  | [], [] => by simp [sameAll]
  | t :: ts, u :: us => by simp [sameAll, same_iff t u, sameAll_iff ts us]
  | [], _ :: _ => by simp [sameAll]
  | _ :: _, [] => by simp [sameAll]
end

instance : DecidableEq Ty := fun t u => decidable_of_iff _ (same_iff t u)

/-! ## Combining -/

/-- The type of one more item, given the type of the items so far: the same, or nothing known. -/
def merge (sofar : Option Ty) (next : Ty) : Ty :=
  match sofar with
  | none => next
  | some t => if t = next then next else unknown

/-- The merged type of a list of items, if there are any. -/
def mergeAll (ts : List Ty) : Option Ty := ts.foldl (fun sofar t => some (merge sofar t)) none

/-- The type of an array with the given merged types of its keys and of its elements. -/
def ofArray : (key value : Option Ty) → Ty
  | none, none => array
  | some k, some v => if k = v then homogeneous v else mapping k v
  | some k, none => mapping k unknown
  | none, some v => mapping unknown v

end Ty

end ValueTrace
