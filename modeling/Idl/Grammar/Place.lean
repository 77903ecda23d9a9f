import Idl.Declaration
import Idl.Grammar.TypeStack

/-!
# Declarations under way

A `Place` is a place in the declaration being read, with what has been read of it. `Place.step?`
moves it over one token and `Place.expected` says what the place asks for. Both depend on the kinds
of the tokens only, but for the words that are kept and for the keywords.
-/

namespace Idl.Grammar

/-- What stands before the members of a record. -/
structure RecordHead where
  /-- Struct or interface. -/
  form : RecordForm
  /-- The name of the record. -/
  name : String
  /-- Its parent, if it has one. -/
  parent : Option TypeExpr

/-- A place in a declaration. Lists under way are kept last one first. -/
inductive Place
  /-- Before the keyword. -/
  | keyword
  /-- Behind `enum`. -/
  | enumName
  /-- Behind the name of an enumeration. -/
  | enumColon (name : String)
  /-- Behind the colon of an enumeration. -/
  | enumUnderlying (name : String)
  /-- Behind the underlying type. -/
  | enumOpen (name underlying : String)
  /-- Behind the brace that opens an enumeration. -/
  | firstEnumerator (name underlying : String)
  /-- Behind a comma between enumerators. -/
  | nextEnumerator (name underlying : String) (before : List String)
  /-- Behind an enumerator. -/
  | afterEnumerator (name underlying : String) (before : List String) (last : String)
  /-- Behind `struct` or `interface`. -/
  | recordName (form : RecordForm)
  /-- Behind the name of a record. -/
  | recordColon (form : RecordForm) (name : String)
  /-- In the parent of a record. -/
  | parent (form : RecordForm) (name : String) (stack : TypeStack)
  /-- Behind the brace that opens a record, or behind a member. -/
  | member (head : RecordHead) (before : List Member)
  /-- Behind the name of a member. -/
  | memberColon (head : RecordHead) (before : List Member) (name : String)
  /-- In the type of a member. -/
  | memberType (head : RecordHead) (before : List Member) (name : String) (stack : TypeStack)

/-- What a token that has its place in a declaration does there. -/
inductive Step
  /-- It leads to a further place. -/
  | next (place : Place)
  /-- It is the last one of the declaration. -/
  | ended (declaration : Declaration)

namespace Place

/-- The place that a keyword leads to. -/
def ofKeyword? (word : String) : Option Place :=
  if word = "enum" then some .enumName else (RecordForm.ofKeyword? word).map .recordName

/-- Reads the brace before the members of a record. -/
def openMembers? (head : RecordHead) (t : Token) : Option Step :=
  match t.kind with
  | .leftBrace => some (.next (.member head []))
  | _ => none

/-- Reads the semicolon behind a member. -/
def endMember? (head : RecordHead) (before : List Member) (m : Member) (t : Token) : Option Step :=
  match t.kind with
  | .semicolon => some (.next (.member head (m :: before)))
  | _ => none

/-- Reads one token of a declaration, if it has its place there. -/
def step? (limit : Option Nat) (place : Place) (t : Token) : Option Step :=
  match place, t.kind with
  | keyword, .identifier => (ofKeyword? t.text).map .next
  | enumName, .identifier => some (.next (.enumColon t.text))
  | enumColon name, .colon => some (.next (.enumUnderlying name))
  | enumUnderlying name, .identifier => some (.next (.enumOpen name t.text))
  | enumOpen name underlying, .leftBrace => some (.next (.firstEnumerator name underlying))
  | firstEnumerator name underlying, .rightBrace =>
    some (.ended (.enum name (.named underlying) []))
  | firstEnumerator name underlying, .identifier =>
    some (.next (.afterEnumerator name underlying [] t.text))
  | nextEnumerator name underlying before, .identifier =>
    some (.next (.afterEnumerator name underlying before t.text))
  | afterEnumerator name underlying before last, .comma =>
    some (.next (.nextEnumerator name underlying (last :: before)))
  | afterEnumerator name underlying before last, .rightBrace =>
    some (.ended (.enum name (.named underlying) (last :: before).reverse))
  | recordName form, .identifier => some (.next (.recordColon form t.text))
  | recordColon form name, .colon => some (.next (.parent form name .start))
  | recordColon form name, _ => openMembers? ⟨form, name, none⟩ t
  | parent form name stack, _ =>
    match stack.step limit t with
    | .next stack => some (.next (.parent form name stack))
    | .over type => openMembers? ⟨form, name, some type⟩ t
    | .stuck => none
  | member head before, .rightBrace =>
    some (.ended (.record head.form head.name head.parent before.reverse))
  | member head before, .identifier => some (.next (.memberColon head before t.text))
  | memberColon head before name, .colon => some (.next (.memberType head before name .start))
  | memberType head before name stack, _ =>
    match stack.step limit t with
    | .next stack => some (.next (.memberType head before name stack))
    | .over type => endMember? head before ⟨name, type⟩ t
    | .stuck => none
  | _, _ => none

/-- What a place asks for when a token has no place there. -/
def expected (limit : Option Nat) : Place → Expectation
  | keyword => .keyword
  | enumName => .enumName
  | enumColon _ => .enumColon
  | enumUnderlying _ => .underlying
  | enumOpen _ _ => .enumOpen
  | firstEnumerator _ _ => .enumerator
  | nextEnumerator _ _ _ => .enumerator
  | afterEnumerator _ _ _ _ => .enumClose
  | recordName _ => .recordName
  | recordColon _ _ => .recordOpen
  | parent _ _ stack => stack.expected limit .recordOpen
  | member _ _ => .memberName
  | memberColon _ _ _ => .memberColon
  | memberType _ _ _ stack => stack.expected limit .memberEnd

end Place

end Idl.Grammar
