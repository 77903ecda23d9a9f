import Idl.Json.Reader
import Idl.Json.Writer
import Idl.Schema.Decode

/-!
# Schemas

A `Schema` ties a kind of value to its JSON form: how it is written, how it is read, and which part
of a document the reading depends on. There is one for programs and one for each of the parts that
a program is made of.

A document is read only if it is admissible, which all of it has to be, unused fields included. The
fields that a parameter or a member by itself does not know are the exception: they are passed over
unread.
-/

namespace Idl

open Json (Value)

/-- How the values of a type stand in JSON. -/
structure Schema (α : Type) where
  /-- Writes a value. -/
  encode : α → Value
  /-- Reads a value. -/
  decode? : Value → Option α
  /-- The part of a document that is read. -/
  focus : Value → Value := id

namespace Schema

/-- The document without the fields of its outermost object that have none of the keys. -/
def knownFields (keys : List Key) : Value → Value
  | .object fields => .object (fields.filter fun f => keys.any (·.name = f.1))
  | v => v

/-- Types by themselves. -/
def type : Schema TypeExpr := { encode := encodeType, decode? := decodeType? false }

/-- Parameters by themselves. -/
def param : Schema Param :=
  { encode := encodeParam
    decode? := decodeBinding? paramKeys false
    focus := knownFields paramKeys }

/-- Members by themselves. -/
def member : Schema Member :=
  { encode := encodeMember
    decode? := decodeBinding? memberKeys false
    focus := knownFields memberKeys }

/-- Declarations by themselves. -/
def declaration : Schema Declaration :=
  { encode := encodeDeclaration, decode? := decodeDeclaration? }

/-- Programs. -/
def program : Schema Program := { encode := encodeProgram, decode? := decodeProgram? }

variable {α : Type} (s : Schema α)

/-- The compact JSON text of a value. -/
def compact (a : α) : String := (s.encode a).compact

/-- The pretty JSON text of a value. -/
def pretty (a : α) : String := (s.encode a).pretty

/-- Reads the value that a document stands for. -/
def ofValue? (v : Value) : Option α :=
  if (s.focus v).admissible then s.decode? (s.focus v) else none

/-- Reads the value that a JSON text stands for. -/
def read? (text : String) : Option α := (Json.parse? text).bind s.ofValue?

end Schema

end Idl
