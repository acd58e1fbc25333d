/-!
# Paths

A path is kept in its shortest spelling: without repeated slashes, without `.` and without a final
slash. Steps to the parent are kept, as they may depend on what is there.
-/

namespace ValueTrace

/-- The way to a file or a directory. -/
structure Path where
  /-- The slashes in front: none, one or two. -/
  root : String
  parts : List String

namespace Path

/-- The step to the parent directory. -/
def parent : String := ".."

/-- The most bytes that a name may have. -/
def maxName : Nat := 255

/-- The most bytes that the text of a path may have. -/
def maxText : Nat := 4095

/-- Exactly two slashes in front stay two; more of them are one. -/
def rootOf (slashes : Nat) : String :=
  if slashes = 0 then "" else if slashes = 2 then "//" else "/"

/-- Reads a path. -/
def ofString (s : String) : Path where
  root := rootOf (s.toList.takeWhile (· = '/')).length
  parts := (s.splitOn "/").filter fun part => part ≠ "" && part ≠ "."

/-- The text of a path; the empty path is the directory itself. -/
def text (p : Path) : String :=
  if p.root = "" ∧ p.parts = [] then "." else p.root ++ "/".intercalate p.parts

end Path

end ValueTrace
