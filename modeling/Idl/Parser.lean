import Idl.Diagnostic
import Idl.Grammar.Place
import Idl.Program

/-!
# Reading programs

A program is read from its tokens in one pass: a place in the grammar goes from token to token until
the end of the input, or until a token that has no place there. The error then names that token and
what the place asks for; there is no recovery.

The input ends at the first token that says so, or else with the last token. In the second case an
error at the end is reported at a token made up to stand just behind the last one.

A `Parser` can be called again. It then starts a new program where it stands: at the end of the
input after a success, and at the token at fault after a failure.
-/

namespace Idl

open Grammar

/-- A token that has no place in a program where it stands. -/
structure ParseError where
  /-- The token. -/
  token : Token
  /-- What is asked for in its place. -/
  expected : Expectation
deriving DecidableEq

/-- The error as it is shown. -/
def ParseError.diagnostic (e : ParseError) : Diagnostic where
  message := s!"unexpected token {e.token.describe} at {e.token.position.chars}"
  code := "idl::parse::unexpected_token"
  help := some e.expected.message
  label := ⟨"unexpected token", e.token.span⟩

/-- The number of type expressions that may be open at once. -/
def maxTypeDepth : Nat := 256

/-- Reads declarations from a place in one of them up to the end of the input or the first token at
fault, after those already `done` (last one first), and returns the tokens that are left. The token
`stop` stands for the end of the input if no token says where it is. -/
def runProgram (limit : Option Nat) (stop : Token) (done : List Declaration) :
    Place → List Token → Except ParseError (List Declaration) × List Token
  | .keyword, [] => (.ok done.reverse, [])
  | place, [] => (.error ⟨stop, place.expected limit⟩, [])
  | place, t :: ts =>
    match place, t.kind with
    -- Only between declarations may the input end.
    | .keyword, .endOfInput => (.ok done.reverse, t :: ts)
    | place, _ =>
      match place.step? limit t with
      | none => (.error ⟨t, place.expected limit⟩, t :: ts)
      | some (.next place) => runProgram limit stop done place ts
      | some (.ended d) => runProgram limit stop (d :: done) .keyword ts

/-- Reads one declaration from a place in it, and returns the tokens that are left. -/
def runDeclaration (limit : Option Nat) (stop : Token) :
    Place → List Token → Except ParseError Declaration × List Token
  | place, [] => (.error ⟨stop, place.expected limit⟩, [])
  | place, t :: ts =>
    match place.step? limit t with
    | none => (.error ⟨t, place.expected limit⟩, t :: ts)
    | some (.next place) => runDeclaration limit stop place ts
    | some (.ended d) => (.ok d, ts)

/-- Reads one type from a place in it, and returns the tokens that are left. -/
def runType (limit : Option Nat) (stop : Token) :
    TypeStack → List Token → Except ParseError TypeExpr × List Token
  | stack, [] =>
    match stack.complete? with
    | some type => (.ok type, [])
    | none => (.error ⟨stop, stack.expected limit .type⟩, [])
  | stack, t :: ts =>
    match stack.step limit t with
    | .next stack => runType limit stop stack ts
    | .over type => (.ok type, t :: ts)
    | .stuck => (.error ⟨t, stack.expected limit .type⟩, t :: ts)

/-- A place in a sequence of tokens from which programs, declarations and types can be read. -/
structure Parser where
  /-- The tokens still ahead. -/
  rest : List Token
  /-- The token that stands for the end of the input if no token says where it is. -/
  stop : Token
  /-- The number of type expressions that are open around what is read. -/
  depth : Nat := 0
deriving DecidableEq

namespace Parser

/-- A parser at the first of the tokens. -/
def ofTokens (tokens : List Token) : Parser := ⟨tokens, .endAfter tokens, 0⟩

/-- The number of types that may be opened by what is read. -/
def room (p : Parser) : Option Nat := some (maxTypeDepth - p.depth)

/-- Reads a program up to the end of the input. -/
def program (p : Parser) : Except ParseError Program × Parser :=
  let (answer, rest) := runProgram p.room p.stop [] .keyword p.rest
  (answer.map .ofList, { p with rest })

/-- Reads one declaration. -/
def declaration (p : Parser) : Except ParseError Declaration × Parser :=
  let (answer, rest) := runDeclaration p.room p.stop .keyword p.rest
  (answer, { p with rest })

/-- Reads one type. -/
def typeExpr (p : Parser) : Except ParseError TypeExpr × Parser :=
  let (answer, rest) := runType p.room p.stop .start p.rest
  (answer, { p with rest })

end Parser

/-- Reads a whole sequence of tokens as a program in which at most `limit` types are open at once,
or any number if there is no limit. -/
def parseWithin (limit : Option Nat) (tokens : List Token) : Except ParseError Program :=
  (runProgram limit (.endAfter tokens) [] .keyword tokens).1.map .ofList

/-- Reads a whole sequence of tokens as a program. -/
def parse (tokens : List Token) : Except ParseError Program := parseWithin (some maxTypeDepth) tokens

end Idl
