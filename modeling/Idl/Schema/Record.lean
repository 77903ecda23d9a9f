import Idl.Json.Value

/-!
# Records in JSON

A record is a fixed list of named fields. It is written as an object with its keys in order, and may
be read from any object that has each key once, whatever other fields it has, or from an array that
holds just the fields in order. A field marked optional may be missing from an object, which is the
same as null. `arrange?` undoes all this freedom: it returns the fields in order.

Where several records are possible, the field `kind` holds the tag of the one that is meant, in front
of the others. `splitTag?` takes it off. Inside another tagged value the place of the tag among all
tags, counted from zero, is as good as the tag itself (`tagIndex?`).
-/

namespace Idl.Schema

open Json (Value)

/-- The key of a field, and whether the field may be missing. -/
structure Key where
  /-- The key. -/
  name : String
  /-- Whether a missing field counts as null. -/
  optional : Bool := false
deriving DecidableEq

/-- The object with the given fields. -/
def record (keys : List Key) (values : List Value) : Value :=
  .object ((keys.map Key.name).zip values)

/-- The key of a tag. -/
def tagKey : String := "kind"

/-- The object with a tag and the given fields. -/
def taggedRecord (tag : String) (keys : List Key) (values : List Value) : Value :=
  .object ((tagKey, .string tag) :: (keys.map Key.name).zip values)

/-- The value of a key in an object, unless the key is there more than once. -/
def field? (fields : List (String × Value)) (key : Key) : Option Value :=
  match fields.filter (·.1 = key.name) with
  | [] => if key.optional then some .null else none
  | [(_, v)] => some v
  | _ => none

/-- The fields of a record in order, from either of its written forms. -/
def arrange? (keys : List Key) : Value → Option (List Value)
  | .array items => if items.length = keys.length then some items else none
  | .object fields => keys.mapM (field? fields)
  | _ => none

/-- The tag of a tagged record, and the record without it. -/
def splitTag? : Value → Option (Value × Value)
  | .array (tag :: items) => some (tag, .array items)
  | .object fields =>
    match fields.filter (·.1 = tagKey) with
    | [(_, tag)] => some (tag, .object (fields.filter (·.1 ≠ tagKey)))
    | _ => none
  | _ => none

/-- The place of a tag among the tags that are possible. Only `inside` another tagged value may it be
given as a number. -/
def tagIndex? (inside : Bool) (tags : List String) : Value → Option Nat
  | .string tag => tags.findIdx? (· = tag)
  | .number n => if inside then (List.range tags.length).find? (n.isNat ·) else none
  | _ => none

/-! ## Sizes -/

/-- A field is smaller than the object it is in. -/
theorem field?_size {fields : List (String × Value)} {key : Key} {v : Value}
    (h : field? fields key = some v) : sizeOf v < sizeOf (Value.object fields) := by
  unfold field? at h
  split at h
  · split at h
    · simp only [Option.some.injEq] at h
      subst h
      have : 0 < sizeOf fields := by
        cases fields <;> simp only [List.nil.sizeOf_spec, List.cons.sizeOf_spec] <;> omega
      simp only [Value.null.sizeOf_spec, Value.object.sizeOf_spec]
      omega
    · simp at h
  · rename_i k w heq
    simp only [Option.some.injEq] at h
    subst h
    have hmem : (k, w) ∈ fields := (List.mem_filter.mp (heq ▸ List.mem_singleton_self _)).1
    have := List.sizeOf_lt_of_mem hmem
    simp only [Prod.mk.sizeOf_spec] at this
    simp only [Value.object.sizeOf_spec]
    omega
  · simp at h

/-- The fields of a record are smaller than the record. -/
theorem arrange?_size {keys : List Key} {v w : Value} {values : List Value}
    (h : arrange? keys v = some values) (hw : w ∈ values) : sizeOf w < sizeOf v := by
  unfold arrange? at h
  split at h
  · split at h
    · simp only [Option.some.injEq] at h
      subst h
      have := List.sizeOf_lt_of_mem hw
      simp only [Value.array.sizeOf_spec]
      omega
    · simp at h
  · rename_i fields
    induction keys generalizing values with
    | nil => simp at h; subst h; simp at hw
    | cons key keys ih =>
      simp only [List.mapM_cons] at h
      obtain ⟨u, hu, h⟩ := Option.bind_eq_some_iff.mp h
      obtain ⟨us, hus, h⟩ := Option.bind_eq_some_iff.mp h
      simp only [pure, Option.some.injEq] at h
      subst h
      rcases List.mem_cons.mp hw with rfl | hw
      · exact field?_size hu
      · exact ih hw hus
  · simp at h

/-- Dropping fields makes a list of them no larger. -/
theorem sizeOf_filter_le (p : String × Value → Bool) (fields : List (String × Value)) :
    sizeOf (fields.filter p) ≤ sizeOf fields := by
  induction fields with
  | nil => simp
  | cons f fs ih =>
    rw [List.filter_cons]
    split <;> simp only [List.cons.sizeOf_spec] <;> omega

/-- Taking its tag off makes a record no larger. -/
theorem splitTag?_size {v tag body : Value} (h : splitTag? v = some (tag, body)) :
    sizeOf body ≤ sizeOf v := by
  unfold splitTag? at h
  split at h
  · simp only [Option.some.injEq, Prod.mk.injEq] at h
    simp only [← h.2, Value.array.sizeOf_spec, List.cons.sizeOf_spec]
    omega
  · rename_i fields
    split at h
    · simp only [Option.some.injEq, Prod.mk.injEq] at h
      have := sizeOf_filter_le (·.1 ≠ tagKey) fields
      simp only [← h.2, Value.object.sizeOf_spec]
      omega
    · simp at h
  · simp at h

end Idl.Schema
