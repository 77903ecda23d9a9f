import Idl.CommandLine.Options
import Idl.Printer
import Idl.Schema
import Idl.Source

/-!
# The command line program

The program reads one file and prints its declarations, its tokens or its JSON form. What it does is
a function of its arguments and of the files it can read. Nothing is printed unless all of the output
is known, so a run that fails has no output.
-/

namespace Idl.CommandLine

/-- What a run leaves behind. -/
structure Outcome where
  /-- The exit code: zero if all went well, two for a command line that is refused. -/
  code : Nat
  /-- The output. -/
  stdout : String
  /-- Progress, and the first line of the report of an error. What a report has behind that line, a picture of
  the fault or advice, is left out. -/
  stderr : String
deriving DecidableEq

/-- The files that can be read, with their bytes. -/
abbrev Folder := String → Option ByteArray

/-- The help text. -/
def helpText : String :=
  "Parse an IDL file and print its declarations\n" ++
  "\n" ++
  "Usage: idl-parser [OPTIONS] <FILE>\n" ++
  "\n" ++
  "Arguments:\n" ++
  "  [FILE]...  Input file path\n" ++
  "\n" ++
  "Options:\n" ++
  "      --json         Print the program as JSON instead of canonical text\n" ++
  "      --tokens       Print the token stream and stop\n" ++
  "      --no-comments  Treat `/*` as an error instead of a comment opener\n" ++
  "  -v, --verbose      Report progress on stderr\n" ++
  "  -h, --help         Print help\n" ++
  "  -V, --version      Print version\n"

/-- The name and number of the version. -/
def versionText : String := "idl-parser 0.1.0\n"

/-- The answer to a wrong number of files. -/
def usageText : String := "Usage:\n    idl-parser <file>\n"

/-- The first line of the report of an error in a source text, and all of the report that is in `stderr`. -/
def errorLine (d : Diagnostic) : String := s!"Error: {d.code}\n"

/-- The line that lists a token. -/
def tokenLine (t : Token) : String := s!"{t.position.chars} {t.kind.name} {t.text}\n"

/-- The output for a program: its JSON form on request, otherwise each declaration's text. -/
def programOutput (flags : List Flag) (p : Program) : String :=
  if .json ∈ flags then Schema.program.pretty p ++ "\n"
  else .join (p.toList.map fun d => d.text ++ "\n")

/-- What is done with a source text. -/
def treat (flags : List Flag) (path source : String) : Outcome :=
  let progress (line : String) := if .verbose ∈ flags then line else ""
  let opening := progress s!"Parsing {path}...\n"
  match tokenize ⟨.noComments ∉ flags⟩ source with
  | .error e => ⟨1, "", opening ++ errorLine e.diagnostic⟩
  | .ok tokens =>
    if .tokens ∈ flags then ⟨0, .join (tokens.map tokenLine), opening⟩
    else
      match parse tokens with
      | .error e => ⟨1, "", opening ++ errorLine e.diagnostic⟩
      | .ok p =>
        ⟨0, programOutput flags p, opening ++ progress s!"Parsed {p.size} declarations\n"⟩

/-- What a command line does, given the files that can be read. -/
def Invocation.outcome (folder : Folder) : Invocation → Outcome
  | help => ⟨0, helpText, ""⟩
  | version => ⟨0, versionText, ""⟩
  | refused e => ⟨2, "", s!"error: {e.message}\n"⟩
  | run flags [path] =>
    match (folder path).bind String.fromUTF8? with
    | none => ⟨1, "", s!"Error:   × failed to read '{path}'\n"⟩
    | some source => treat flags path source
  | run _ _ => ⟨1, "", usageText⟩

/-- The file that a command line has to read, if any. -/
def Invocation.file? : Invocation → Option String
  | run _ [path] => some path
  | _ => none

/-- What the program does with its arguments, given the files that it can read. -/
def outcome (folder : Folder) (args : List String) : Outcome := (invocation args).outcome folder

end Idl.CommandLine
