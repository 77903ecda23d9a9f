import Idl.TypeExpr

/-!
# Declarations

An enumeration lists names over an underlying type. A struct and an interface are records: they
differ in their keyword only, and list members, perhaps on top of a parent type. Lists keep their
order, and nothing asks that their names differ.
-/

namespace Idl

/-- A member of a struct or an interface. -/
abbrev Member := Binding TypeExpr

/-- The two forms that a record is declared in. -/
inductive RecordForm
  | struct
  | interface
deriving DecidableEq, Inhabited

/-- The keyword that opens a record of the form. -/
def RecordForm.keyword : RecordForm → String
  | struct => "struct"
  | interface => "interface"

/-- The form of record that a word opens. -/
def RecordForm.ofKeyword? : String → Option RecordForm
  | "struct" => some .struct
  | "interface" => some .interface
  | _ => none

/-- A declaration at the top level of a program. -/
inductive Declaration
  /-- An enumeration. -/
  | enum (name : String) (underlying : TypeExpr) (enumerators : List String)
  /-- A struct or an interface. -/
  | record (form : RecordForm) (name : String) (parent : Option TypeExpr) (members : List Member)
deriving DecidableEq

namespace Declaration

/-- The name declared. -/
def name : Declaration → String
  | enum n _ _ => n
  | record _ n _ _ => n

/-- The keyword that opens the declaration. -/
def keyword : Declaration → String
  | enum _ _ _ => "enum"
  | record form _ _ _ => form.keyword

/-- The symbols that spell a list of enumerators, with commas between them. -/
def enumeratorSymbols : List String → List Symbol
  | [] => []
  | [n] => [.word n]
  | n :: m :: ns => .word n :: .mark .comma :: enumeratorSymbols (m :: ns)

/-- The symbols that spell a member. -/
def memberSymbols (m : Member) : List Symbol :=
  .word m.name :: .mark .colon :: (m.type.symbols ++ [.mark .semicolon])

/-- The symbols that spell a parent clause. -/
def parentSymbols : Option TypeExpr → List Symbol
  | none => []
  | some p => .mark .colon :: p.symbols

/-- The symbols that spell a declaration. -/
def symbols : Declaration → List Symbol
  | enum n u ns =>
    .word "enum" :: .word n :: .mark .colon :: (u.symbols ++
      .mark .leftBrace :: (enumeratorSymbols ns ++ [.mark .rightBrace]))
  | record form n parent members =>
    .word form.keyword :: .word n :: (parentSymbols parent ++
      .mark .leftBrace :: (members.flatMap memberSymbols ++ [.mark .rightBrace]))

end Declaration

end Idl
