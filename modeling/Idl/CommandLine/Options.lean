/-!
# The arguments of the command line

Arguments are read from left to right. One that begins with two dashes is a long option, one that
begins with a single dash is a cluster of short options, and any other names a file, as does a dash
by itself. After two dashes by themselves every argument names a file.

The first fault ends the reading, and so does a request for help or for the version: neither looks at
what follows. That two options exclude each other is seen only when all arguments have been read.
-/

namespace Idl.CommandLine

/-- An option that changes what is done with the file. -/
inductive Flag
  /-- Print the program as JSON. -/
  | json
  /-- Print the tokens and stop. -/
  | tokens
  /-- Read a dialect without block comments. -/
  | noComments
  /-- Report progress. -/
  | verbose
deriving DecidableEq

/-- What an option asks for. -/
inductive Switch
  | flag (f : Flag)
  | help
  | version
deriving DecidableEq

/-- The long name of a flag, with its dashes. -/
def Flag.name : Flag → String
  | json => "--json"
  | tokens => "--tokens"
  | noComments => "--no-comments"
  | verbose => "--verbose"

/-- The long name of an option, with its dashes. -/
def Switch.name : Switch → String
  | flag f => f.name
  | help => "--help"
  | version => "--version"

/-- The option of a long name, given without its dashes. -/
def Switch.ofLong? : String → Option Switch
  | "json" => some (.flag .json)
  | "tokens" => some (.flag .tokens)
  | "no-comments" => some (.flag .noComments)
  | "verbose" => some (.flag .verbose)
  | "help" => some .help
  | "version" => some .version
  | _ => none

/-- The option of a letter. -/
def Switch.ofShort? : Char → Option Switch
  | 'v' => some (.flag .verbose)
  | 'h' => some .help
  | 'V' => some .version
  | _ => none

/-- Why a command line is refused. -/
inductive OptionError
  /-- There is no such option. -/
  | unknown (argument : String)
  /-- The option takes no value but is given one. -/
  | unwantedValue (value : String) (switch : Switch)
  /-- The flag is given twice. -/
  | repeated (flag : Flag)
  /-- The flags exclude each other; the first was given first. -/
  | conflict (first second : Flag)
  /-- A file is named by a blank argument. -/
  | blankFile
deriving DecidableEq

/-- The error in words. -/
def OptionError.message : OptionError → String
  | unknown argument => s!"unexpected argument '{argument}' found"
  | unwantedValue value switch =>
    s!"unexpected value '{value}' for '{switch.name}' found; no more were expected"
  | repeated flag => s!"the argument '{flag.name}' cannot be used multiple times"
  | conflict first second =>
    s!"the argument '{first.name}' cannot be used with '{second.name}'"
  | blankFile => "a value is required for '[FILE]...' but none was supplied"

/-- What a command line asks for. -/
inductive Invocation
  /-- The help text. -/
  | help
  /-- The version. -/
  | version
  /-- Nothing that can be done. -/
  | refused (error : OptionError)
  /-- The treatment of some files, with flags in the order given. -/
  | run (flags : List Flag) (files : List String)
deriving DecidableEq

/-- The part of a command line read so far. -/
structure Arguments where
  /-- The flags in the order given. -/
  flags : List Flag := []
  /-- The files in the order given. -/
  files : List String := []

namespace Arguments

/-- Refuses a blank file name. -/
def checkFiles (line : Arguments) : Except Invocation Arguments :=
  if "" ∈ line.files then .error (.refused .blankFile) else .ok line

/-- Takes an option in; `Except.error` ends the reading. -/
def switch (line : Arguments) (s : Switch) : Except Invocation Arguments :=
  line.checkFiles.bind fun line =>
    match s with
    | .help => .error .help
    | .version => .error .version
    | .flag f =>
      if f ∈ line.flags then .error (.refused (.repeated f))
      else .ok { line with flags := line.flags ++ [f] }

/-- Takes a long option in, given without its dashes. -/
def long (line : Arguments) (cs : List Char) : Except Invocation Arguments :=
  let name := String.ofList (cs.takeWhile (· ≠ '='))
  match Switch.ofLong? name, cs.dropWhile (· ≠ '=') with
  | none, _ => .error (.refused (.unknown ("--" ++ name)))
  | some s, [] => line.switch s
  | some s, _ :: value => .error (.refused (.unwantedValue (.ofList value) s))

/-- Takes a cluster of short options in, given without its dash. -/
def short (line : Arguments) : List Char → Except Invocation Arguments
  | [] => .ok line
  | c :: cs =>
    match Switch.ofShort? c with
    | none => .error (.refused (.unknown (.ofList ['-', c])))
    | some s => (line.switch s).bind (·.short cs)

/-- Takes one argument in. -/
def argument (line : Arguments) (a : String) : Except Invocation Arguments :=
  match a.toList with
  | '-' :: '-' :: cs => line.long cs
  | '-' :: c :: cs => line.short (c :: cs)
  | _ => .ok { line with files := line.files ++ [a] }

/-- Takes arguments in, up to the end or to two dashes by themselves and all that follows. -/
def arguments (line : Arguments) : List String → Except Invocation Arguments
  | [] => .ok line
  | a :: rest =>
    if a = "--" then .ok { line with files := line.files ++ rest }
    else (line.argument a).bind (·.arguments rest)

/-- What a whole command line asks for. -/
def finish (line : Arguments) : Invocation :=
  match line.flags.filter (· ∈ [Flag.json, Flag.tokens]) with
  | first :: second :: _ => .refused (.conflict first second)
  | _ => .run line.flags line.files

end Arguments

/-- What a command line asks for. -/
def invocation (args : List String) : Invocation :=
  match (Arguments.arguments {} args).bind Arguments.checkFiles with
  | .error answer => answer
  | .ok line => line.finish

end Idl.CommandLine
