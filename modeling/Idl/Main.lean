import Idl.CommandLine

/-!
# The program itself

Reads the file that the command line names and does what `CommandLine.outcome` says.
-/

open Idl.CommandLine

/-- Runs the command line program. -/
def main (args : List String) : IO UInt32 := do
  let content ←
    match (invocation args).file? with
    | none => pure none
    | some path =>
      try some <$> IO.FS.readBinFile path
      catch _ => pure none
  let result := outcome (fun _ => content) args
  IO.print result.stdout
  IO.eprint result.stderr
  return result.code.toUInt32
