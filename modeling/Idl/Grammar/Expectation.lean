import Idl.Token

/-!
# Expectations

At every place in a program the grammar asks for one thing, and an error names it. An `Expectation`
is such a thing together with the place that asks for it; `Expectation.message` words it.
-/

namespace Idl.Grammar

/-- What the grammar asks for, by the place that asks for it. -/
inductive Expectation
  /-- A keyword, where a declaration begins. -/
  | keyword
  /-- The name of an enumeration. -/
  | enumName
  /-- The colon behind the name of an enumeration. -/
  | enumColon
  /-- The name of the underlying type of an enumeration. -/
  | underlying
  /-- The brace behind the underlying type. -/
  | enumOpen
  /-- The name of an enumerator. -/
  | enumerator
  /-- The brace behind the enumerators. -/
  | enumClose
  /-- The name of a record. -/
  | recordName
  /-- The brace before the members of a record. -/
  | recordOpen
  /-- The name of a member. -/
  | memberName
  /-- The colon behind the name of a member. -/
  | memberColon
  /-- The semicolon behind a member. -/
  | memberEnd
  /-- A type. -/
  | type
  /-- The parenthesis behind type arguments. -/
  | argumentsClose
  /-- The parenthesis behind parameters. -/
  | paramsClose
  /-- The name of a parameter. -/
  | paramName
  /-- The colon behind the name of a parameter. -/
  | paramColon
  /-- No type at all, because as many are open as may be. -/
  | shallowerType
deriving DecidableEq, Inhabited

namespace Expectation

/-- A kind of token asked for somewhere. -/
def kindMessage (kind : TokenKind) (place : String) : String :=
  s!"expected {kind.describe} {place}"

/-- The expectation in words. -/
def message : Expectation → String
  | keyword => "expected 'enum', 'struct' or 'interface'"
  | enumName => kindMessage .identifier "after 'enum'"
  | enumColon => kindMessage .colon "after enum name"
  | underlying => kindMessage .identifier "for the underlying type"
  | enumOpen => kindMessage .leftBrace "after underlying type"
  | enumerator => kindMessage .identifier "for enumerator"
  | enumClose => kindMessage .rightBrace "after enumerators"
  | recordName => kindMessage .identifier "after declaration keyword"
  | recordOpen => kindMessage .leftBrace "before member list"
  | memberName => kindMessage .identifier "for member name"
  | memberColon => kindMessage .colon "after member name"
  | memberEnd => kindMessage .semicolon "after member"
  | type => "expected a type"
  | argumentsClose => kindMessage .rightParen "after type arguments"
  | paramsClose => kindMessage .rightParen "after parameters"
  | paramName => kindMessage .identifier "for parameter name"
  | paramColon => kindMessage .colon "after parameter name"
  | shallowerType => "type nesting too deep"

end Expectation

end Idl.Grammar
