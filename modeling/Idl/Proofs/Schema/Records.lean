import Idl.Proofs.Json.Documents
import Idl.Schema.Record

/-!
# Records written and read

A record that was written is taken apart into what it was written from (`arrange?_record`,
`splitTag?_taggedRecord`). And whatever is read as a record, in either form and with any other fields,
nests deeper than its parts, which is what the written record of these parts does at most
(`arrange?_depth`, `depth_record_le`).
-/

namespace Idl.Schema

open Json (Value mapM_eq_some_iff exists_of_mem_mapM)
open Json.Value (listDepth fieldsDepth listDepth_le_iff fieldsDepth_le_iff depth_le_listDepth
  depth_le_fieldsDepth)

/-! ## Taking apart what was written -/

/-- A field of an object without repeated keys is found. -/
theorem field?_of_mem {fields : List (String × Value)} (hkeys : (fields.map Prod.fst).Nodup)
    {key : Key} {v : Value} (h : (key.name, v) ∈ fields) : field? fields key = some v := by
  have hfilter : fields.filter (·.1 = key.name) = [(key.name, v)] := by
    induction fields with
    | nil => contradiction
    | cons f fs ih =>
      rw [List.map_cons, List.nodup_cons] at hkeys
      obtain heq | hmem := List.mem_cons.mp h
      · -- No field behind the one that is looked for has its key.
        have hrest : fs.filter (·.1 = key.name) = [] := by
          rw [List.filter_eq_nil_iff]
          intro g hg
          have hne : g.1 ≠ key.name := fun hname =>
            hkeys.1 (List.mem_map.mpr ⟨g, hg, hname.trans (congrArg Prod.fst heq)⟩)
          simpa using hne
        rw [← heq, List.filter_cons_of_pos (by simp), hrest]
      · have hne : f.1 ≠ key.name := fun hname =>
          hkeys.1 (List.mem_map.mpr ⟨_, hmem, hname.symm⟩)
        rw [List.filter_cons_of_neg (by simpa using hne)]
        exact ih hkeys.2 hmem
  rw [field?, hfilter]

section Written

variable {keys : List Key} {values : List Value}

/-- The keys of a record are those that it was written with. -/
theorem keys_record (hlength : values.length = keys.length) :
    ((keys.map Key.name).zip values).map Prod.fst = keys.map Key.name :=
  List.map_fst_zip (by simp [hlength])

/-- The fields of a record are found in order. -/
theorem arrange?_record (hlength : values.length = keys.length)
    (hkeys : (keys.map Key.name).Nodup) : arrange? keys (record keys values) = some values := by
  rw [record, arrange?, mapM_eq_some_iff]
  -- The value found for a key is the one at the place of the key.
  apply List.ext_getElem (by simp [hlength])
  intro i hi hi'
  rw [List.length_map] at hi hi'
  rw [List.getElem_map, List.getElem_map]
  apply field?_of_mem (by rwa [keys_record hlength])
  have hzip : i < ((keys.map Key.name).zip values).length := by simp [hlength, hi]
  have hget := List.getElem_mem hzip
  rwa [List.getElem_zip, List.getElem_map] at hget

/-- The tag of a record is found, and the record without it. -/
theorem splitTag?_taggedRecord (tag : String) (htag : tagKey ∉ keys.map Key.name) :
    splitTag? (taggedRecord tag keys values) = some (.string tag, record keys values) := by
  have hne : ∀ f ∈ (keys.map Key.name).zip values, f.1 ≠ tagKey := by
    rintro ⟨k, v⟩ hf rfl
    exact htag (List.of_mem_zip hf).1
  have htags : ((keys.map Key.name).zip values).filter (·.1 = tagKey) = [] := by
    rw [List.filter_eq_nil_iff]
    simpa using hne
  have hfields : ((keys.map Key.name).zip values).filter (·.1 ≠ tagKey) =
      (keys.map Key.name).zip values := by
    rw [List.filter_eq_self]
    simpa using hne
  rw [taggedRecord, splitTag?, List.filter_cons_of_pos (by simp), htags,
    List.filter_cons_of_neg (by simp), hfields]
  rfl

/-- A record of exact values is exact. -/
theorem exact_record (h : ∀ v ∈ values, v.Exact) : (record keys values).Exact :=
  .object fun f hf => h f.2 (List.of_mem_zip hf).2

/-- A tagged record of exact values is exact. -/
theorem exact_taggedRecord (tag : String) (h : ∀ v ∈ values, v.Exact) :
    (taggedRecord tag keys values).Exact :=
  .object (List.forall_mem_cons.mpr ⟨.string tag, fun f hf => h f.2 (List.of_mem_zip hf).2⟩)

end Written

/-! ## Depth -/

/-- A record nests one level deeper than its parts. -/
theorem depth_record_le (keys : List Key) (values : List Value) :
    (record keys values).depth ≤ listDepth values + 1 := by
  apply Nat.succ_le_succ
  rw [fieldsDepth_le_iff]
  exact fun f hf => depth_le_listDepth (List.of_mem_zip hf).2

/-- A tag does not nest. -/
theorem depth_taggedRecord (tag : String) (keys : List Key) (values : List Value) :
    (taggedRecord tag keys values).depth = (record keys values).depth := by
  simp [taggedRecord, record, Value.depth, fieldsDepth]

/-- A field nests no deeper than the fields of the object. -/
theorem field?_depth {fields : List (String × Value)} {key : Key} {v : Value}
    (h : field? fields key = some v) : v.depth ≤ fieldsDepth fields := by
  unfold field? at h
  split at h
  · -- A missing field is null.
    split at h
    · cases h
      exact Nat.zero_le _
    · contradiction
  · rename_i k w hfilter
    cases h
    have hmem : (k, v) ∈ fields := (List.mem_filter.mp (hfilter ▸ List.mem_singleton_self _)).1
    exact depth_le_fieldsDepth hmem
  · contradiction

/-- What is read as a record nests deeper than its parts. -/
theorem arrange?_depth {keys : List Key} {v : Value} {values : List Value}
    (h : arrange? keys v = some values) : listDepth values < v.depth := by
  unfold arrange? at h
  split at h
  · split at h
    · cases h
      exact Nat.lt_succ_self _
    · contradiction
  · apply Nat.lt_succ_of_le
    rw [listDepth_le_iff]
    intro w hw
    -- Whatever other fields there are, each part is the value of a field or stands for a missing one.
    obtain ⟨key, -, hkey⟩ := exists_of_mem_mapM h hw
    exact field?_depth hkey
  · contradiction

/-- What is read as a tagged record nests at least as deep as the record without the tag. -/
theorem splitTag?_depth {v tag body : Value} (h : splitTag? v = some (tag, body)) :
    body.depth ≤ v.depth := by
  unfold splitTag? at h
  split at h
  · cases h
    exact Nat.succ_le_succ (Nat.le_max_right _ _)
  · rename_i fields
    split at h
    · cases h
      apply Nat.succ_le_succ
      rw [fieldsDepth_le_iff]
      exact fun f hf => depth_le_fieldsDepth (List.mem_filter.mp hf).1
    · contradiction
  · contradiction

section Reread

variable {keys : List Key} {v tag body : Value} {values values' : List Value}

/-- A record whose parts nest no deeper than those that were read nests no deeper than what they were
read from. -/
theorem depth_record_le_of_arrange? (h : arrange? keys v = some values)
    (hle : listDepth values' ≤ listDepth values) : (record keys values').depth ≤ v.depth :=
  calc (record keys values').depth
    _ ≤ listDepth values' + 1 := depth_record_le keys values'
    _ ≤ listDepth values + 1 := Nat.succ_le_succ hle
    _ ≤ v.depth := arrange?_depth h

/-- A tagged record whose parts nest no deeper than those that were read nests no deeper than what
they were read from. -/
theorem depth_taggedRecord_le_of_arrange? (hsplit : splitTag? v = some (tag, body))
    (h : arrange? keys body = some values) (hle : listDepth values' ≤ listDepth values)
    (tag' : String) : (taggedRecord tag' keys values').depth ≤ v.depth :=
  calc (taggedRecord tag' keys values').depth
    _ = (record keys values').depth := depth_taggedRecord tag' keys values'
    _ ≤ body.depth := depth_record_le_of_arrange? h hle
    _ ≤ v.depth := splitTag?_depth hsplit

end Reread

end Idl.Schema
