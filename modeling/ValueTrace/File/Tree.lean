import ValueTrace.File.Path

/-!
# File trees

A file tree lists files and directories by their places below a directory, and says what a path
names that starts there.
-/

namespace ValueTrace

/-- What a path can name. -/
inductive FileEntry where
  | directory
  | file (contents : ByteArray)

/-- Why a path names nothing. -/
inductive LookupError where
  | missing
  /-- The path, or a name on the way, is longer than a path or a name can be. -/
  | tooLong
  deriving DecidableEq

/-- Files and directories with their places; the directories on the way to a place are implied. -/
structure FileTree where
  entries : List (List String × FileEntry)

namespace FileTree

/-- What is at a place. Of several entries for a place the last one counts. -/
def at? (t : FileTree) (place : List String) : Option FileEntry :=
  match t.entries.reverse.find? fun e => e.1 = place with
  | some e => some e.2
  | none =>
    if place = [] ∨ t.entries.any (fun e => place.isPrefixOf e.1) then some .directory else none

/-- Why there is nothing under a name that is not known. -/
def unknownName (step : String) : LookupError :=
  if Path.maxName < step.utf8ByteSize then .tooLong else .missing

/-- What is found by steps outside of the tree. No names are known there, but every directory has a
parent. -/
def outside : (steps : List String) → Except LookupError FileEntry
  | [] => .ok .directory
  | step :: steps => if step = Path.parent then outside steps else .error (unknownName step)

/-- What is found by steps from a place in the tree. Every step is taken from a directory. -/
def walk (t : FileTree) (place : List String) :
    (steps : List String) → Except LookupError FileEntry
  | [] =>
    match t.at? place with
    | some entry => .ok entry
    | none => .error .missing
  | step :: steps =>
    match t.at? place with
    | some .directory =>
      if step = Path.parent then
        if place = [] then outside steps else t.walk place.dropLast steps
      else if Path.maxName < step.utf8ByteSize then .error .tooLong
      else t.walk (place ++ [step]) steps
    | _ => .error .missing

/-- What a path names that starts at the top of the tree. No name has a null character in it. -/
def find (t : FileTree) (p : Path) : Except LookupError FileEntry :=
  if p.text.toList.contains '\x00' then .error .missing
  else if Path.maxText < p.text.utf8ByteSize then .error .tooLong
  else if p.root = "" then t.walk [] p.parts
  else outside p.parts

/-- The places that steps from a place pass, from there to where they lead. -/
def passed (place : List String) : (steps : List String) → List (List String)
  | [] => [place]
  | step :: steps =>
    place :: passed (if step = Path.parent then place.dropLast else place ++ [step]) steps

/-- The entries that a path needs: directories on the way, and its own entry where it leads. -/
def entriesOn (path : Path) (entry : FileEntry) : List (List String × FileEntry) :=
  let places := passed [] path.parts
  places.dropLast.map (·, .directory) ++ places.getLast?.toList.map (·, entry)

/-- The tree with the given entries, whose places are given as paths. -/
def ofPaths (entries : List (String × FileEntry)) : FileTree :=
  ⟨entries.flatMap fun e => entriesOn (Path.ofString e.1) e.2⟩

end FileTree

end ValueTrace
