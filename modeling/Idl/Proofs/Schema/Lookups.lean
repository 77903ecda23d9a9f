import Mathlib.Data.List.Forall2
import Idl.Schema.Record

/-!
# What a record says

A record is asked for the values of its keys. What it answers depends neither on the order of its fields
(`field?_perm`) nor on fields with other keys (`field?_cons_of_ne`). The tag of a record is asked for in the
same way (`tag?_object`), so a tagged record is one whose first key is that of the tag
(`arrange?_of_splitTag?`).
-/

namespace Idl.Schema

open Json (Value)

/-! ## Fields -/

/-- The value of a key whose fields are given. -/
def Key.only? (key : Key) : List (String × Value) → Option Value
  | [] => if key.optional then some .null else none
  | [(_, v)] => some v
  | _ => none

/-- What an object says about a key depends on the fields of the key. -/
theorem field?_eq (fields : List (String × Value)) (key : Key) :
    field? fields key = key.only? (fields.filter (·.1 = key.name)) := rfl

/-- What an object says about a key does not depend on the order of its fields. -/
theorem field?_perm {fields fields' : List (String × Value)} (h : fields.Perm fields') (key : Key) :
    field? fields key = field? fields' key := by
  have hperm := h.filter (·.1 = key.name)
  rw [field?_eq, field?_eq]
  revert hperm
  generalize fields.filter (·.1 = key.name) = fs
  generalize fields'.filter (·.1 = key.name) = fs'
  intro hperm
  match fs, fs', hperm with
  | [], _, hperm => rw [hperm.nil_eq]
  | [_], _, hperm => rw [List.singleton_perm.mp hperm]
  | _ :: _ :: _, _ :: _ :: _, _ => rfl
  | _ :: _ :: _, [], hperm | _ :: _ :: _, [_], hperm => exact absurd hperm.length_eq (by simp)

/-- A field says nothing about other keys. -/
theorem field?_cons_of_ne {key : Key} {name : String} (h : name ≠ key.name) (v : Value)
    (fields : List (String × Value)) : field? ((name, v) :: fields) key = field? fields key := by
  rw [field?_eq, field?_eq, List.filter_cons_of_neg (by simpa using h)]

/-- Dropping fields with other keys changes nothing. -/
theorem field?_filter {key : Key} {p : String × Value → Bool} (h : ∀ v, p (key.name, v) = true)
    (fields : List (String × Value)) : field? (fields.filter p) key = field? fields key := by
  rw [field?_eq, field?_eq, List.filter_filter]
  congr 1
  apply List.filter_congr
  rintro ⟨name, v⟩ -
  by_cases hname : name = key.name
  · simp [hname, h]
  · simp [hname]

/-- A key has no fields if it is missing. -/
theorem filter_eq_nil_of_missing {name : String} {fields : List (String × Value)}
    (h : name ∉ fields.map Prod.fst) : fields.filter (·.1 = name) = [] := by
  rw [List.filter_eq_nil_iff]
  intro f hf hname
  exact h (List.mem_map.mpr ⟨f, hf, of_decide_eq_true hname⟩)

/-- Functions that yield the same on the members of two lists yield the same on the lists. -/
theorem mapM_eq_of_forall₂ {α β γ : Type} {f : α → Option γ} {g : β → Option γ} {xs : List α}
    {ys : List β} (h : List.Forall₂ (fun x y => f x = g y) xs ys) : xs.mapM f = ys.mapM g := by
  induction h with
  | nil => rfl
  | cons hxy _ ih => rw [List.mapM_cons, List.mapM_cons, hxy, ih]

/-- A record is taken apart without the fields that it does not know. -/
theorem arrange?_filter {keys : List Key} {p : String × Value → Bool}
    (h : ∀ key ∈ keys, ∀ v, p (key.name, v) = true) (fields : List (String × Value)) :
    arrange? keys (.object (fields.filter p)) = arrange? keys (.object fields) :=
  mapM_eq_of_forall₂ (List.forall₂_same.mpr fun key hkey => field?_filter (h key hkey) fields)

/-! ## Tags -/

/-- The key of a tag. -/
def tagField : Key := { name := tagKey }

/-- The tag of a value. -/
def tag? (v : Value) : Option Value := (splitTag? v).map Prod.fst

/-- A tag is looked up like a field, and taken off with all that has its key. -/
theorem splitTag?_object (fields : List (String × Value)) :
    splitTag? (.object fields) =
      (field? fields tagField).map (·, .object (fields.filter (·.1 ≠ tagKey))) := by
  rw [splitTag?, field?_eq]
  have hname : tagField.name = tagKey := rfl
  rw [hname]
  generalize fields.filter (·.1 = tagKey) = tags
  match tags with
  | [] | [_] | _ :: _ :: _ => rfl

/-- The tag of an object is looked up like its fields. -/
theorem tag?_object (fields : List (String × Value)) : tag? (.object fields) = field? fields tagField := by
  rw [tag?, splitTag?_object, Option.map_map]
  exact Option.map_id'

/-- The tag of an array is its first item. -/
theorem tag?_array (items : List Value) : tag? (.array items) = items.head? := by
  cases items <;> rfl

/-- The tag of a record is the first of its parts. -/
theorem tag?_of_arrange? {keys : List Key} {v : Value} {parts : List Value}
    (h : arrange? (tagField :: keys) v = some parts) : tag? v = parts.head? := by
  unfold arrange? at h
  split at h
  · rw [Option.ite_none_right_eq_some] at h
    obtain ⟨-, heq⟩ := h
    cases heq
    exact tag?_array _
  · rw [List.mapM_cons] at h
    obtain ⟨tag, htag, h⟩ := Option.bind_eq_some_iff.mp h
    obtain ⟨rest, -, heq⟩ := Option.bind_eq_some_iff.mp h
    cases heq
    rw [tag?_object, htag]
    rfl
  · contradiction

/-- A record is taken apart with its tag as one of its parts, or without. -/
theorem arrange?_of_splitTag? {keys : List Key} (htag : tagKey ∉ keys.map Key.name) {v tag body : Value}
    (h : splitTag? v = some (tag, body)) :
    arrange? (tagField :: keys) v = (arrange? keys body).map (tag :: ·) := by
  cases v with
  | array items =>
    cases items with
    | nil => contradiction
    | cons tag items =>
      cases h
      simp only [arrange?, List.length_cons, Nat.add_right_cancel_iff]
      split <;> rfl
  | object fields =>
    -- The other keys are not that of the tag, so what is taken off with the tag is not missed.
    have hbody : arrange? keys (.object (fields.filter (·.1 ≠ tagKey))) =
        arrange? keys (.object fields) := by
      refine arrange?_filter (fun key hkey v => ?_) fields
      have hne : key.name ≠ tagKey := fun heq => htag (List.mem_map.mpr ⟨key, hkey, heq⟩)
      exact decide_eq_true hne
    rw [splitTag?_object] at h
    obtain ⟨tag, hfirst, heq⟩ := Option.map_eq_some_iff.mp h
    cases heq
    rw [hbody, arrange?, arrange?, List.mapM_cons, hfirst]
    cases keys.mapM (field? fields) <;> rfl
  | _ => contradiction

end Idl.Schema
