import ValueTrace.File.Path
import ValueTrace.Text.Digit

/-!
# Options

What the arguments of the program ask for: one path and, maybe, verbose diagnostics.
-/

namespace ValueTrace

/-- What the program is asked to do. -/
structure Options where
  path : Path
  verbose : Bool

/-- What one argument says. -/
inductive Word where
  | path (text : String)
  | verbose
  | invalid

/-- Without a final line feed. -/
def dropFinalBreak (cs : List Char) : List Char :=
  if cs.getLast? = some '\n' then cs.dropLast else cs

/-- Whether a text is digits, or maybe digits and a point with digits after it. -/
def isUnsignedNumber (cs : List Char) : Bool :=
  match cs.dropWhile Text.isDigit with
  | [] => !cs.isEmpty
  | '.' :: ds => !ds.isEmpty && ds.all Text.isDigit
  | _ => false

/-- Whether a text is a negative number, which may end its line. -/
def isNegativeNumber : List Char → Bool
  | '-' :: cs => isUnsignedNumber (dropFinalBreak cs)
  | _ => false

/-- An argument that is no flag is a path if it could not be meant as a flag. -/
def pathOrInvalid (arg : String) : Word :=
  if isNegativeNumber arg.toList || arg.toList.contains ' ' then .path arg else .invalid

/-- The names that flags can have. There is no help to ask for, but its name is not a path. -/
def flagNames : List String := ["verbose", "help"]

/-- Reads an argument that starts with two dashes. Flags may be cut short as long as they are not
taken for another; a flag with a value is an error. -/
def longFlag (arg : String) (cs : List Char) : Word :=
  let start := cs.takeWhile (· ≠ '=')
  match flagNames.filter fun name => start.isPrefixOf name.toList with
  | [] => pathOrInvalid arg
  | ["verbose"] => if start = cs then .verbose else .invalid
  | _ => .invalid

/-- Reads an argument that starts with one dash. Short flags may be run together, and an equals sign
may stand after the first of several. -/
def shortFlag (arg : String) : List Char → Word
  | 'v' :: '=' :: cs => if !cs.isEmpty && cs.all (· = 'v') then .verbose else .invalid
  | 'v' :: cs => if cs.all (· = 'v') then .verbose else .invalid
  | 'h' :: _ => .invalid
  | _ => pathOrInvalid arg

/-- Reads an argument in front of a separator. -/
def Word.ofString (arg : String) : Word :=
  match arg.toList with
  | ['-'] => .path arg
  | '-' :: '-' :: cs => longFlag arg cs
  | '-' :: cs => shortFlag arg cs
  | _ => .path arg

/-- The separator, after which every argument is a path. -/
def separator : String := "--"

/-- The path among the words in front of the separator and the arguments after it. There has to be
exactly one, and a separator stands directly before or after it. -/
def onlyPath? (words : List Word) (separated : Option (List String)) : Option String :=
  let paths := words.filterMap fun
    | .path text => some text
    | _ => none
  match paths, separated with
  | [p], none => some p
  | [p], some [] =>
    match words.getLast? with
    | some (.path _) => some p
    | _ => none
  | [], some [p] => some p
  | _, _ => none

/-- Reads the arguments. -/
def Options.ofArguments? (args : List String) : Option Options :=
  let words := (args.takeWhile (· ≠ separator)).map Word.ofString
  let separated := match args.dropWhile (· ≠ separator) with
    | [] => none
    | _ :: rest => some rest
  let invalid := words.any fun
    | .invalid => true
    | _ => false
  let verbose := words.any fun
    | .verbose => true
    | _ => false
  if invalid then none
  else (onlyPath? words separated).map fun p => ⟨Path.ofString p, verbose⟩

end ValueTrace
