import ValueTrace.File.Tree
import ValueTrace.Lua.Program

/-!
# Lua files

From what a path names to the statements of a Lua program. Files are UTF-8 text, in which every
usual line break counts as a line feed. The parser is left open.
-/

namespace ValueTrace

/-- Why a path gives no statements. -/
inductive SourceError where
  | missing (path : Path)
  /-- The path cannot be looked up. -/
  | tooLong
  | directory
  /-- The contents are not UTF-8. -/
  | encoding
  | lua (error : Lua.Error)

/-- The message on a file that is not there. -/
def missingMessage (path : Path) : String := "Input file not found: " ++ path.text

/-- Writes line breaks as line feeds. -/
def normalizeBreaks : List Char → List Char
  | [] => []
  | '\r' :: '\n' :: cs => '\n' :: normalizeBreaks cs
  | '\r' :: cs => '\n' :: normalizeBreaks cs
  | c :: cs => c :: normalizeBreaks cs

/-- The statements of the file that a path names, if `parse` is how Lua text is read. -/
def sourceStatements (parse : String → Except Lua.Error (List Lua.Tree)) (path : Path)
    (entry : Except LookupError FileEntry) : Except SourceError (List Node) :=
  match entry with
  | .error .missing => .error (.missing path)
  | .error .tooLong => .error .tooLong
  | .ok .directory => .error .directory
  | .ok (.file contents) =>
    match String.fromUTF8? contents with
    | none => .error .encoding
    | some text =>
      match parse (String.ofList (normalizeBreaks text.toList)) with
      | .error e => .error (.lua e)
      | .ok trees => (Lua.lowerProgram trees).mapError .lua

end ValueTrace
