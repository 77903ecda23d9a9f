import Idl.Json.Token

/-!
# Writing JSON

A document has two written forms. The compact one is its tokens and nothing else. The pretty one has
the same tokens, with a line for each item and field, two spaces of indentation for each level, and a
space behind each colon; an array or object without content stays on its line.

Within a string only the quote, the backslash and the characters below the space are escaped.
-/

namespace Idl.Json

/-- A character of a string as it is written between the quotes. -/
def escape (c : Char) : List Char :=
  match c with
  | '"' => ['\\', '"']
  | '\\' => ['\\', '\\']
  | '\x08' => ['\\', 'b']
  | '\x0c' => ['\\', 'f']
  | '\n' => ['\\', 'n']
  | '\r' => ['\\', 'r']
  | '\t' => ['\\', 't']
  | c =>
    if c.toNat < 0x20 then
      ['\\', 'u', '0', '0', Nat.digitChar (c.toNat / 16), Nat.digitChar (c.toNat % 16)]
    else [c]

/-- A string as it is written. -/
def quote (s : String) : String := .ofList ('"' :: (s.toList.flatMap escape ++ ['"']))

/-- A token as it is written; half a surrogate pair stands for a string without a text. -/
def Token.text : Token → String
  | openArray => "["
  | closeArray => "]"
  | openObject => "\x7b"
  | closeObject => "\x7d"
  | comma => ","
  | colon => ":"
  | null => "null"
  | bool true => "true"
  | bool false => "false"
  | number n => n.text
  | string (some s) => quote s
  | string none => "\"\\ud800\""

namespace Value

mutual

/-- The tokens of a value, in front of those that follow it. -/
def tokens : Value → List Token → List Token
  | null, after => .null :: after
  | bool b, after => .bool b :: after
  | number n, after => .number n :: after
  | string s, after => .string (some s) :: after
  | array items, after => .openArray :: listTokens items (.closeArray :: after)
  | object fields, after => .openObject :: fieldsTokens fields (.closeObject :: after)
  | unreadable, after => .string none :: after

/-- The tokens of the items of an array, in front of those that follow them. -/
def listTokens : List Value → List Token → List Token
  | [], after => after
  | [v], after => v.tokens after
  | v :: w :: vs, after => v.tokens (.comma :: listTokens (w :: vs) after)

/-- The tokens of the fields of an object, in front of those that follow them. -/
def fieldsTokens : List (String × Value) → List Token → List Token
  | [], after => after
  | [(key, v)], after => .string (some key) :: .colon :: v.tokens after
  | (key, v) :: f :: fs, after =>
    .string (some key) :: .colon :: v.tokens (.comma :: fieldsTokens (f :: fs) after)

end

/-- The compact form of a document. -/
def compact (v : Value) : String := .join ((v.tokens []).map Token.text)

end Value

/-- An element of a pretty form. -/
inductive Layout
  | token (t : Token)
  /-- A line break, and the indentation of the new line in levels. -/
  | line (level : Nat)
  | space
deriving DecidableEq

/-- An element as it is written. -/
def Layout.text : Layout → String
  | token t => t.text
  | line level => .ofList ('\n' :: List.replicate (2 * level) ' ')
  | space => " "

namespace Value

mutual

/-- The layout of a value on lines of some level, in front of what follows it. -/
def layout (level : Nat) : Value → List Layout → List Layout
  | null, after => .token .null :: after
  | bool b, after => .token (.bool b) :: after
  | number n, after => .token (.number n) :: after
  | string s, after => .token (.string (some s)) :: after
  | array [], after => .token .openArray :: .token .closeArray :: after
  | array (v :: vs), after =>
    .token .openArray :: .line (level + 1) ::
      listLayout (level + 1) (v :: vs) (.line level :: .token .closeArray :: after)
  | object [], after => .token .openObject :: .token .closeObject :: after
  | object (f :: fs), after =>
    .token .openObject :: .line (level + 1) ::
      fieldsLayout (level + 1) (f :: fs) (.line level :: .token .closeObject :: after)
  | unreadable, after => .token (.string none) :: after

/-- The layout of the items of an array, in front of what follows them. -/
def listLayout (level : Nat) : List Value → List Layout → List Layout
  | [], after => after
  | [v], after => v.layout level after
  | v :: w :: vs, after =>
    v.layout level (.token .comma :: .line level :: listLayout level (w :: vs) after)

/-- The layout of the fields of an object, in front of what follows them. -/
def fieldsLayout (level : Nat) : List (String × Value) → List Layout → List Layout
  | [], after => after
  | [(key, v)], after =>
    .token (.string (some key)) :: .token .colon :: .space :: v.layout level after
  | (key, v) :: f :: fs, after =>
    .token (.string (some key)) :: .token .colon :: .space ::
      v.layout level (.token .comma :: .line level :: fieldsLayout level (f :: fs) after)

end

/-- The pretty form of a document. -/
def pretty (v : Value) : String := .join ((v.layout 0 []).map Layout.text)

end Value

end Idl.Json
