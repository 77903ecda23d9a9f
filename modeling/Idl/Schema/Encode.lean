import Idl.Program
import Idl.Schema.Record

/-!
# Programs as JSON

Types and declarations are tagged records, parameters and members are plain ones. A parent or result
that is absent is null, and a program is the array of its declarations.
-/

namespace Idl.Schema

open Json (Value)

/-- The tags of the three types. -/
def typeTags : List String := ["named", "generic", "function"]

/-- The fields of a name by itself. -/
def namedKeys : List Key := [{ name := "name" }]

/-- The fields of a generic type. -/
def genericKeys : List Key := [{ name := "name" }, { name := "arguments" }]

/-- The fields of a function type. -/
def functionKeys : List Key :=
  [{ name := "params" }, { name := "return_type", optional := true }]

/-- The fields of a parameter. -/
def paramKeys : List Key := [{ name := "name" }, { name := "param_type" }]

/-- The fields of a member. -/
def memberKeys : List Key := [{ name := "name" }, { name := "member_type" }]

/-- The tags of the three declarations. -/
def declarationTags : List String := ["enum", "struct", "interface"]

/-- The fields of an enumeration. -/
def enumKeys : List Key := [{ name := "name" }, { name := "underlying" }, { name := "enumerators" }]

/-- The fields of a struct or an interface. -/
def recordKeys : List Key :=
  [{ name := "name" }, { name := "parent", optional := true }, { name := "members" }]

mutual

/-- A type as JSON. -/
def encodeType : TypeExpr → Value
  | .named n => taggedRecord "named" namedKeys [.string n]
  | .generic n as => taggedRecord "generic" genericKeys [.string n, .array (encodeTypes as)]
  | .function ps none =>
    taggedRecord "function" functionKeys [.array (encodeParams ps), .null]
  | .function ps (some r) =>
    taggedRecord "function" functionKeys [.array (encodeParams ps), encodeType r]

/-- A list of types as JSON values. -/
def encodeTypes : List TypeExpr → List Value
  | [] => []
  | a :: as => encodeType a :: encodeTypes as

/-- A list of parameters as JSON values. -/
def encodeParams : List Param → List Value
  | [] => []
  | ⟨n, a⟩ :: ps => record paramKeys [.string n, encodeType a] :: encodeParams ps

end

/-- A type as JSON, or null in its absence. -/
def encodeOptional : Option TypeExpr → Value
  | none => .null
  | some a => encodeType a

/-- A parameter as JSON. -/
def encodeParam (p : Param) : Value := record paramKeys [.string p.name, encodeType p.type]

/-- A member as JSON. -/
def encodeMember (m : Member) : Value := record memberKeys [.string m.name, encodeType m.type]

/-- A declaration as JSON. -/
def encodeDeclaration : Declaration → Value
  | .enum n u ns =>
    taggedRecord "enum" enumKeys [.string n, encodeType u, .array (ns.map .string)]
  | .record form n parent members =>
    taggedRecord form.keyword recordKeys
      [.string n, encodeOptional parent, .array (members.map encodeMember)]

/-- A program as JSON. -/
def encodeProgram (p : Program) : Value := .array (p.toList.map encodeDeclaration)

end Idl.Schema
