import Idl.Json.Token

/-!
# Reading JSON

Documents are read by a pushdown automaton over their tokens: a `Frame` for each array and object
that is open, and a `Place` in the innermost one. Nesting is not limited here, and a string without
a text is read as the value `unreadable`; what such a document is worth is left to its reader.
-/

namespace Idl.Json

/-- An array or an object that waits for a value, with what it holds so far (last one first). -/
inductive Frame
  | array (before : List Value)
  /-- An object waits for the value of a key. -/
  | object (before : List (Option String × Value)) (key : Option String)

/-- A place in a document. -/
inductive Place
  /-- Before a value. -/
  | value
  /-- Behind the bracket that opens an array. -/
  | firstItem
  /-- Behind the brace that opens an object. -/
  | firstKey
  /-- Behind a comma between fields. -/
  | nextKey (before : List (Option String × Value))
  /-- Behind a key. -/
  | colon (before : List (Option String × Value)) (key : Option String)
  /-- Behind a value. -/
  | ended (v : Value)

/-- A document under way. -/
structure Stack where
  /-- The arrays and objects around the place, from the inside out. -/
  frames : List Frame
  /-- The place reached. -/
  place : Place

/-- The object of some fields, which is readable only if all its keys are texts. -/
def objectOf (fields : List (Option String × Value)) : Value :=
  match fields.mapM fun (key, v) => key.map (·, v) with
  | some fields => .object fields
  | none => .unreadable

namespace Stack

/-- Before a document. -/
def start : Stack := ⟨[], .value⟩

/-- Reads the first token of a value inside the given frames. -/
def enter? (frames : List Frame) : Token → Option Stack
  | .openArray => some ⟨frames, .firstItem⟩
  | .openObject => some ⟨frames, .firstKey⟩
  | .null => some ⟨frames, .ended .null⟩
  | .bool b => some ⟨frames, .ended (.bool b)⟩
  | .number n => some ⟨frames, .ended (.number n)⟩
  | .string (some s) => some ⟨frames, .ended (.string s)⟩
  | .string none => some ⟨frames, .ended .unreadable⟩
  | _ => none

/-- Reads the token behind a value inside the given frames. -/
def leave? (v : Value) : List Frame → Token → Option Stack
  | .array before :: frames, .comma => some ⟨.array (v :: before) :: frames, .value⟩
  | .array before :: frames, .closeArray => some ⟨frames, .ended (.array (v :: before).reverse)⟩
  | .object before key :: frames, .comma => some ⟨frames, .nextKey ((key, v) :: before)⟩
  | .object before key :: frames, .closeObject =>
    some ⟨frames, .ended (objectOf ((key, v) :: before).reverse)⟩
  | _, _ => none

/-- Reads one token of a document. -/
def step? (s : Stack) (t : Token) : Option Stack :=
  match s.place, t with
  | .value, _ => enter? s.frames t
  | .firstItem, .closeArray => some ⟨s.frames, .ended (.array [])⟩
  | .firstItem, _ => enter? (.array [] :: s.frames) t
  | .firstKey, .closeObject => some ⟨s.frames, .ended (.object [])⟩
  | .firstKey, .string key => some ⟨s.frames, .colon [] key⟩
  | .nextKey before, .string key => some ⟨s.frames, .colon before key⟩
  | .colon before key, .colon => some ⟨.object before key :: s.frames, .value⟩
  | .ended v, _ => leave? v s.frames t
  | _, _ => none

/-- The document, if the place is behind it. -/
def complete? : Stack → Option Value
  | ⟨[], .ended v⟩ => some v
  | _ => none

end Stack

/-- The document that a sequence of tokens writes. -/
def ofTokens? (tokens : List Token) : Option Value :=
  (tokens.foldlM Stack.step? .start).bind Stack.complete?

/-- The document that a text writes. -/
def parse? (text : String) : Option Value := (tokens? [] text.toList).bind ofTokens?

end Idl.Json
