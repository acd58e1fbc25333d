/-!
# Diagnostics

What an analysis notes without failing: arguments without a value, calls whose function is not
named, and writes that were dropped. Arguments without a value are also warnings; the rest shows in
the summary only when it is verbose.
-/

namespace ValueTrace

/-- An argument of a call whose value is not determined. -/
structure UnresolvedArgument where
  function : String
  parameter : String
  line : Int

/-- Why a statement is passed over. -/
inductive SkipReason where
  /-- The function of a call has to be computed. -/
  | dynamicCall

/-- A statement that the analysis passed over. -/
structure SkippedStatement where
  kind : String
  reason : SkipReason
  line : Int

/-- A write without a content, dropped in favour of an earlier one with a content. -/
structure DiscardedWrite where
  name : String
  keptLine : Int
  discardedLine : Int

/-! ## Messages

Lines in messages are those of a source text, so they are written without the limit on digits that
the lines in a report are under. -/

def UnresolvedArgument.message (r : UnresolvedArgument) : String :=
  "No value found for parameter '" ++ r.parameter ++ "' of function '" ++ r.function ++
    "' at line " ++ toString r.line

def SkipReason.message : SkipReason → String
  | .dynamicCall => "dynamic call target"

def SkippedStatement.message (r : SkippedStatement) : String :=
  "  Skipped " ++ r.kind ++ " at line " ++ toString r.line ++ ": " ++ r.reason.message

def DiscardedWrite.message (r : DiscardedWrite) : String :=
  "  Kept '" ++ r.name ++ "' from line " ++ toString r.keptLine ++
    ", dropped unresolved write at line " ++ toString r.discardedLine

/-! ## The log -/

/-- The notes of an analysis, oldest first. -/
structure Diagnostics where
  verbose : Bool := false
  unresolved : List UnresolvedArgument := []
  skipped : List SkippedStatement := []
  discarded : List DiscardedWrite := []
  warnings : List String := []

namespace Diagnostics

/-- Notes an argument without a value and warns of it. -/
def noteUnresolved (d : Diagnostics) (r : UnresolvedArgument) : Diagnostics :=
  { d with unresolved := d.unresolved ++ [r], warnings := d.warnings ++ [r.message] }

def noteSkipped (d : Diagnostics) (r : SkippedStatement) : Diagnostics :=
  { d with skipped := d.skipped ++ [r] }

def noteDiscarded (d : Diagnostics) (r : DiscardedWrite) : Diagnostics :=
  { d with discarded := d.discarded ++ [r] }

/-- Forgets all notes and warnings. -/
def clear (d : Diagnostics) : Diagnostics := { verbose := d.verbose }

/-- How many notes of each sort there are. -/
structure Statistics where
  unresolved : Nat
  skipped : Nat
  discarded : Nat
  warnings : Nat

def statistics (d : Diagnostics) : Statistics where
  unresolved := d.unresolved.length
  skipped := d.skipped.length
  discarded := d.discarded.length
  warnings := d.warnings.length

/-- The warnings as they stand in the summary. -/
def warningLines (d : Diagnostics) : List String :=
  if d.warnings.isEmpty then []
  else
    ["\nWarnings (" ++ toString d.statistics.warnings ++ "):"] ++
      d.warnings.map (fun w => "  " ++ w) ++ [""]

/-- A heading over messages, if there are any. -/
def detailLines (heading : String) (messages : List String) : List String :=
  if messages.isEmpty then [] else heading :: messages

/-- The lines of the summary. -/
def summaryLines (d : Diagnostics) : List String :=
  let counts :=
    ["Unresolved arguments: " ++ toString d.statistics.unresolved,
     "Skipped statements: " ++ toString d.statistics.skipped,
     "Discarded writes: " ++ toString d.statistics.discarded]
  let details :=
    if d.verbose then
      detailLines "\nSkipped statements:" (d.skipped.map SkippedStatement.message) ++
        detailLines "\nDiscarded writes:" (d.discarded.map DiscardedWrite.message)
    else []
  ["=== Value Flow Diagnostics ==="] ++ d.warningLines ++ counts ++ details

/-- The summary as one text. -/
def summary (d : Diagnostics) : String := "\n".intercalate d.summaryLines

/-- The messages of all notes: arguments, then statements, then writes. -/
def messages (d : Diagnostics) : List String :=
  d.unresolved.map UnresolvedArgument.message ++ d.skipped.map SkippedStatement.message ++
    d.discarded.map DiscardedWrite.message

end Diagnostics

end ValueTrace
