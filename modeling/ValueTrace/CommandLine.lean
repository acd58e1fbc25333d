import ValueTrace.Analysis
import ValueTrace.File.Source
import ValueTrace.Options

/-!
# The command line

The program takes the path of one Lua file, prints the report on it, and prints a summary of the
diagnostics if there are warnings or if it is asked to be verbose. It runs on a platform, which
parses Lua text, has room for reports up to some depth, and words what the program does not word
itself.
-/

namespace ValueTrace

/-- What a run of the program leaves behind. -/
structure Outcome where
  exitCode : Nat
  output : String
  errors : String

/-- What keeps a run from its report, apart from a message of its own. -/
inductive RunError where
  /-- The file gives no statements. -/
  | source (error : SourceError)
  /-- Scopes or values nest too deep to write the report. -/
  | depth
  /-- The report has a part that cannot be written. -/
  | report (error : TextError)

/-- What the program runs on. -/
structure Platform where
  /-- The trees of Lua text. -/
  parse : String → Except Lua.Error (List Lua.Tree)
  /-- Whether there is room to write the report on a tree. -/
  fits : ScopeTree Value → Bool
  /-- What is printed if the arguments make no sense. -/
  usage : List String → String
  /-- What is printed of an error that comes up with what the path names. -/
  trace : Except LookupError FileEntry → RunError → String

namespace Outcome

/-- The run failed, and there are only errors. -/
def failure (errors : String) : Outcome := ⟨1, "", errors⟩

/-- The analysis is done. The summary is printed if there is something to warn of, or on demand. -/
def success (o : Options) (report : String) (d : Diagnostics) : Outcome :=
  { exitCode := 0
    output := report ++ "\n"
    errors := if d.warnings.isEmpty && !o.verbose then "" else d.summary ++ "\n" }

/-- What a run leaves behind in the end. One that breaks off has failed. -/
def ofRun (trace : RunError → String) : Except RunError Outcome → Outcome
  | .ok outcome => outcome
  | .error e => failure (trace e)

end Outcome

namespace Platform

variable (p : Platform)

/-- The report on a finished analysis. There is no room for it if the scopes do not form a tree. -/
def report (a : Analysis) : Except RunError String :=
  match a.tree? with
  | none => .error .depth
  | some tree =>
    if p.fits tree then (tree.report ScopeTree.defaultIndent).mapError .report else .error .depth

/-- Analyses the statements of a file. Without a report the run breaks off. -/
def runStatements (o : Options) (statements : List Node) : Except RunError Outcome :=
  match (Analysis.start o.verbose).run statements with
  | (_, some e) =>
    .ok (.failure ("Error analyzing " ++ o.path.text ++ ": " ++ e.message ++ "\n"))
  | (a, none) => do
    return .success o (← p.report a) a.diagnostics

/-- Runs the program on what its path names. -/
def runOptions (o : Options) (entry : Except LookupError FileEntry) : Except RunError Outcome :=
  match sourceStatements p.parse o.path entry with
  | .ok statements => p.runStatements o statements
  | .error (.missing path) => .ok (.failure ("Error: " ++ missingMessage path ++ "\n"))
  | .error .tooLong => .error (.source .tooLong)
  | .error (.lua (.syntactic message)) =>
    .ok (.failure ("Error parsing " ++ o.path.text ++ ": " ++ message ++ "\n"))
  | .error e =>
    .ok (.failure ("Error analyzing " ++ o.path.text ++ ":\n" ++ p.trace entry (.source e)))

/-- What the program leaves behind on arguments that make no sense. -/
def misuse (args : List String) : Outcome := ⟨2, "", p.usage args⟩

/-- What the program leaves behind if its path names this. -/
def outcome (o : Options) (entry : Except LookupError FileEntry) : Outcome :=
  .ofRun (p.trace entry) (p.runOptions o entry)

/-- What the program leaves behind in a file tree. -/
def run (files : FileTree) (args : List String) : Outcome :=
  match Options.ofArguments? args with
  | none => p.misuse args
  | some o => p.outcome o (files.find o.path)

end Platform

/-! ## A platform -/

def SourceError.message : SourceError → String
  | .missing path => missingMessage path
  | .tooLong => "The path is too long"
  | .directory => "The path names a directory"
  | .encoding => "The file is not UTF-8"
  | .lua (.syntactic message) => message
  | .lua .valueless => "A number or a string has no value"
  | .lua (.encoding _) => "A string is not UTF-8"

def RunError.message : RunError → String
  | .source e => e.message
  | .depth => "Scopes or values nest too deep"
  | .report (.shape _) => "A type has no descriptor"
  | .report .longInteger => "An integer has too many digits"

/-- The platform with the parser of this library. -/
def Platform.standard : Platform where
  parse := Lua.parse
  fits _ := true
  usage _ := "Expected one path and, maybe, --verbose\n"
  trace _ e := e.message ++ "\n"

end ValueTrace
