import Idl.Json.Number

/-!
# JSON documents

A document is a tree of values as they are written: an object keeps its fields in order, repeated
keys included, and a number keeps its decimal form.

Not every document that is well formed can be read: a number may be out of range, and a string may
hold one half of a surrogate pair, which is no character. `Value.readable` excludes both;
`Value.depth` counts how deep the arrays and objects of a document nest.
-/

namespace Idl.Json

/-- A JSON value. -/
inductive Value
  | null
  | bool (b : Bool)
  | number (n : Number)
  | string (s : String)
  | array (items : List Value)
  | object (fields : List (String × Value))
  /-- A string that is no text, or an object with such a key. -/
  | unreadable
deriving Inhabited

namespace Value

/-- What holds of a value whenever it holds of its parts holds of every value. -/
@[elab_as_elim, induction_eliminator]
theorem induction {motive : Value → Prop} (null : motive null) (bool : ∀ b, motive (bool b))
    (number : ∀ n, motive (number n)) (string : ∀ s, motive (string s))
    (array : ∀ items, (∀ v ∈ items, motive v) → motive (array items))
    (object : ∀ fields, (∀ f ∈ fields, motive f.2) → motive (object fields))
    (unreadable : motive unreadable) (v : Value) : motive v := by
  apply @Value.rec motive (fun items => ∀ v ∈ items, motive v) (fun fields => ∀ f ∈ fields, motive f.2)
    (fun f => motive f.2)
  case array => exact array
  case object => exact object
  all_goals simp_all

mutual

/-- How deep arrays and objects nest; one without content is a level too. -/
def depth : Value → Nat
  | array items => listDepth items + 1
  | object fields => fieldsDepth fields + 1
  | _ => 0

/-- The depth of the deepest of a list of values. -/
def listDepth : List Value → Nat
  | [] => 0
  | v :: vs => max v.depth (listDepth vs)

/-- The depth of the deepest value of a list of fields. -/
def fieldsDepth : List (String × Value) → Nat
  | [] => 0
  | (_, v) :: fs => max v.depth (fieldsDepth fs)

end

mutual

/-- Whether every string is a text and every number is in range. -/
def readable : Value → Bool
  | number n => n.inRange
  | array items => listReadable items
  | object fields => fieldsReadable fields
  | unreadable => false
  | _ => true

/-- Whether every value of a list is readable. -/
def listReadable : List Value → Bool
  | [] => true
  | v :: vs => v.readable && listReadable vs

/-- Whether every value of a list of fields is readable. -/
def fieldsReadable : List (String × Value) → Bool
  | [] => true
  | (_, v) :: fs => v.readable && fieldsReadable fs

end

/-- The depth of a list of values is bounded by a bound on each. -/
theorem listDepth_le_iff {vs : List Value} {n : Nat} :
    listDepth vs ≤ n ↔ ∀ v ∈ vs, v.depth ≤ n := by
  induction vs with
  | nil => simp [listDepth]
  | cons v vs ih => rw [listDepth, Nat.max_le, ih, List.forall_mem_cons]

/-- A list of values is as deep as each of them. -/
theorem depth_le_listDepth {vs : List Value} {v : Value} (h : v ∈ vs) : v.depth ≤ listDepth vs :=
  listDepth_le_iff.mp (Nat.le_refl _) v h

/-- The depth of a list of fields is bounded by a bound on the value of each. -/
theorem fieldsDepth_le_iff {fs : List (String × Value)} {n : Nat} :
    fieldsDepth fs ≤ n ↔ ∀ f ∈ fs, f.2.depth ≤ n := by
  induction fs with
  | nil => simp [fieldsDepth]
  | cons f fs ih => rw [fieldsDepth, Nat.max_le, ih, List.forall_mem_cons]

/-- A list of fields is as deep as the value of each. -/
theorem depth_le_fieldsDepth {fs : List (String × Value)} {f : String × Value} (h : f ∈ fs) :
    f.2.depth ≤ fieldsDepth fs :=
  fieldsDepth_le_iff.mp (Nat.le_refl _) f h

/-- A list of values is readable if each of them is. -/
theorem listReadable_iff {vs : List Value} :
    listReadable vs = true ↔ ∀ v ∈ vs, v.readable = true := by
  induction vs with
  | nil => simp [listReadable]
  | cons v vs ih => rw [listReadable, Bool.and_eq_true, ih, List.forall_mem_cons]

/-- A list of fields is readable if the value of each of them is. -/
theorem fieldsReadable_iff {fs : List (String × Value)} :
    fieldsReadable fs = true ↔ ∀ f ∈ fs, f.2.readable = true := by
  induction fs with
  | nil => simp [fieldsReadable]
  | cons f fs ih => rw [fieldsReadable, Bool.and_eq_true, ih, List.forall_mem_cons]

/-- The deepest nesting of arrays and objects that is read. -/
def maxDepth : Nat := 127

/-- Whether a document is read at all: it is readable and does not nest too deep. -/
def admissible (v : Value) : Bool := v.readable && v.depth ≤ maxDepth

end Value

end Idl.Json
