import Idl.Position

/-!
# Tokens

A token is a lexeme with its kind and place. The kinds are closed: one for words, one for each
mark of the language, and one for the end of the text. Keywords have no kind of their own: they are
words, and only the grammar tells them apart.

A token's *symbol* is what the grammar can see of it: its kind, and the text of a word.
-/

namespace Idl

/-- The kinds of token. -/
inductive TokenKind
  | identifier
  | leftParen
  | rightParen
  | comma
  | colon
  | semicolon
  | leftBrace
  | rightBrace
  | arrow
  | endOfInput
deriving DecidableEq, Inhabited

namespace TokenKind

/-- The name of a kind in a listing of tokens. -/
def name : TokenKind → String
  | identifier => "Identifier"
  | leftParen => "LParen"
  | rightParen => "RParen"
  | comma => "Comma"
  | colon => "Colon"
  | semicolon => "Semicolon"
  | leftBrace => "LBrace"
  | rightBrace => "RBrace"
  | arrow => "Arrow"
  | endOfInput => "End"

/-- A kind as an error message calls it: a mark is quoted, the others are described. -/
def describe : TokenKind → String
  | identifier => "identifier"
  | leftParen => "'('"
  | rightParen => "')'"
  | comma => "','"
  | colon => "':'"
  | semicolon => "';'"
  | leftBrace => "'\x7b'"
  | rightBrace => "'\x7d'"
  | arrow => "'->'"
  | endOfInput => "end of input"

end TokenKind

/-- What the grammar sees of a token: its kind, and of a word its text. -/
structure Symbol where
  /-- The kind of the token. -/
  kind : TokenKind
  /-- The text of a word; blank for every other kind. -/
  text : String
deriving DecidableEq

namespace Symbol

/-- A word. -/
def word (text : String) : Symbol := ⟨.identifier, text⟩

/-- A mark, or any token that is no word. -/
def mark (kind : TokenKind) : Symbol := ⟨kind, ""⟩

end Symbol

/-- A lexeme with its kind and place. -/
structure Token where
  /-- The kind of the lexeme. -/
  kind : TokenKind
  /-- The lexeme itself. -/
  text : String
  /-- Where it begins. -/
  position : Position
deriving DecidableEq, Inhabited

namespace Token

/-- Whether the token is the word `text`. -/
def isWord (t : Token) (text : String) : Bool := t.kind = .identifier && t.text = text

/-- The token as an error message calls it: quoted, unless it marks the end of the text. -/
def describe (t : Token) : String :=
  match t.kind with
  | .endOfInput => "end of input"
  | _ => s!"'{t.text}'"

/-- The stretch of the source that the lexeme covers. -/
def span (t : Token) : Span := ⟨t.position.bytes, (Position.ofString t.text).bytes⟩

/-- The place just after the lexeme, wherever the token is said to stand. -/
def stop (t : Token) : Position := (t.position + .ofString t.text).wrap

/-- The token of the same lexeme in a text where `p` stands in front. -/
def shift (p : Position) (t : Token) : Token := { t with position := p + t.position }

/-- What the grammar sees of the token. -/
def symbol (t : Token) : Symbol :=
  match t.kind with
  | .identifier => .word t.text
  | kind => .mark kind

/-- The token that stands for the end of a text at `p`. -/
def endAt (p : Position) : Token := ⟨.endOfInput, "", p⟩

/-- The end of the text that `ts` was read from, when no token says where it is: just after the
last one, and at the front if there is none. -/
def endAfter (ts : List Token) : Token := endAt (ts.getLast?.elim .start stop)

end Token

end Idl
