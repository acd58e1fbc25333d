import ValueTrace.CommandLine

/-!
# The program

Reads the named file and prints what the run leaves behind.
-/

namespace ValueTrace

/-- What a path names on disk. -/
def entryOnDisk (path : Path) : IO (Except LookupError FileEntry) := do
  let here ← IO.currentDir
  let place := here / path.text
  if ← place.isDir then
    return .ok .directory
  else if ← place.pathExists then
    return .ok (.file (← IO.FS.readBinFile place))
  else
    return .error .missing

end ValueTrace

open ValueTrace in
def main (args : List String) : IO UInt32 := do
  let p := Platform.standard
  let outcome ← match Options.ofArguments? args with
    | none => pure (p.misuse args)
    | some o => do
      pure (p.outcome o (← entryOnDisk o.path))
  IO.print outcome.output
  IO.eprint outcome.errors
  return outcome.exitCode.toUInt32
