import Idl.Parser
import Idl.Token.Lexer

/-!
# Reading source texts

A source text is read in two phases: all of it into tokens, then the tokens into a program. So a
fault of the first phase anywhere in the text takes precedence over every fault of the second.
-/

namespace Idl

/-- Why a source text is no program. -/
inductive SourceError
  /-- It has no tokens. -/
  | lex (error : LexError)
  /-- Its tokens do not make a program. -/
  | parse (error : ParseError)
deriving DecidableEq

/-- The error as it is shown. -/
def SourceError.diagnostic : SourceError → Diagnostic
  | lex e => e.diagnostic
  | parse e => e.diagnostic

/-- Reads a source text as a program. -/
def parseSource (d : Dialect) (source : String) : Except SourceError Program :=
  match tokenize d source with
  | .error e => .error (.lex e)
  | .ok tokens => (parse tokens).mapError .parse

end Idl
