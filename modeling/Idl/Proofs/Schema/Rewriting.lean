import Mathlib.Data.List.Nodup
import Idl.Proofs.Schema.Lookups
import Idl.Proofs.Schema.Readers

/-!
# Other ways to write a document

The same program can be written in JSON in many ways. What may be changed in a document depends on what
its parts stand for, their `Role`. A role that is written as a record has a `Shape`: the keys of the record
and the roles of its parts. Where there are several shapes, the tag of a value says which one it has
(`Role.shape?`). `Rewrites` is one change somewhere in a document.

Readers look up the keys of a shape in an object, or take the items of an array in their order. Whichever it
is, they find the same after a change of the record as before, and after a change in a part of it they find
a part with the same reading in its place (`Role.Alike`).
-/

namespace Idl.Schema

open Json (Value)

/-! ## Roles -/

/-- What a value in a document stands for. -/
inductive Role
  /-- A tag, a name or a list of names, which are written in one way only. -/
  | plain
  /-- A type, inside another tagged value or by itself. -/
  | type (inside : Bool)
  /-- A parameter, likewise. -/
  | param (inside : Bool)
  /-- A member, likewise. -/
  | member (inside : Bool)
  /-- A declaration. -/
  | declaration
  /-- A list of values of one role. -/
  | list (item : Role)
deriving DecidableEq

/-- The keys of a record in order, each with the role of its value. -/
abbrev Shape := List (Key × Role)

/-- The keys of a shape. -/
def Shape.keys (shape : Shape) : List Key := shape.map Prod.fst

/-- The names of the keys of a shape. -/
def Shape.names (shape : Shape) : List String := shape.keys.map Key.name

/-- The shapes of the three types. -/
def typeShapes : List Shape :=
  [(tagField :: namedKeys).zip [.plain, .plain],
    (tagField :: genericKeys).zip [.plain, .plain, .list (.type true)],
    (tagField :: functionKeys).zip [.plain, .list (.param true), .type true]]

/-- The shapes of the three declarations. -/
def declarationShapes : List Shape :=
  let record : Shape := (tagField :: recordKeys).zip [.plain, .plain, .type true, .list (.member true)]
  [(tagField :: enumKeys).zip [.plain, .plain, .type true, .plain], record, record]

/-- The shape of the record that a value of some role is. -/
def Role.shape? : Role → Value → Option Shape
  | type inside, v => (tag? v).bind fun tag => (tagIndex? inside typeTags tag).bind (typeShapes[·]?)
  | declaration, v =>
    (tag? v).bind fun tag => (tagIndex? false declarationTags tag).bind (declarationShapes[·]?)
  | param inside, _ => some (paramKeys.zip [.plain, .type inside])
  | member inside, _ => some (memberKeys.zip [.plain, .type inside])
  | plain, _ | list _, _ => none

/-! ## Changes -/

/-- A change that may be made to a document of some role, at the top or further down. -/
inductive Rewrites : Role → Value → Value → Prop
  /-- The fields of an object are put in another order. -/
  | reorder {role : Role} {shape : Shape} {fields fields' : List (String × Value)}
    (hshape : role.shape? (.object fields) = some shape) (h : fields.Perm fields') :
    Rewrites role (.object fields) (.object fields')
  /-- A field is added whose key is none of the record's. -/
  | unknown {role : Role} {shape : Shape} {fields : List (String × Value)} {key : String} {v : Value}
    (hshape : role.shape? (.object fields) = some shape) (hkey : key ∉ shape.names) (hv : v.Exact) :
    Rewrites role (.object fields) (.object ((key, v) :: fields))
  /-- A field that is missing, as it may be, is added as null. -/
  | null {role : Role} {shape : Shape} {fields : List (String × Value)} {key : Key}
    (hshape : role.shape? (.object fields) = some shape) (hkey : key ∈ shape.keys)
    (hoptional : key.optional = true) (hmissing : key.name ∉ fields.map Prod.fst) :
    Rewrites role (.object fields) (.object ((key.name, .null) :: fields))
  /-- An object that has the fields of its record and no others is written as an array. -/
  | array {role : Role} {shape : Shape} {values : List Value}
    (hshape : role.shape? (record shape.keys values) = some shape)
    (hlength : values.length = shape.length) :
    Rewrites role (record shape.keys values) (.array values)
  /-- A change is made in a field that the record knows. -/
  | field {role part : Role} {shape : Shape} {fields : List (String × Value)} {key : Key} {v w : Value}
    (hshape : role.shape? (.object ((key.name, v) :: fields)) = some shape) (hkey : (key, part) ∈ shape)
    (h : Rewrites part v w) :
    Rewrites role (.object ((key.name, v) :: fields)) (.object ((key.name, w) :: fields))
  /-- A change is made in a field of a record that is written as an array. -/
  | position {role part : Role} {shape : Shape} {values : List Value} {key : Key} {i : Nat} {v w : Value}
    (hshape : role.shape? (.array values) = some shape) (hkey : shape[i]? = some (key, part))
    (hv : values[i]? = some v) (h : Rewrites part v w) :
    Rewrites role (.array values) (.array (values.set i w))
  /-- A change is made in an item of a list. -/
  | item {part : Role} {items : List Value} {i : Nat} {v w : Value} (hv : items[i]? = some v)
    (h : Rewrites part v w) : Rewrites (.list part) (.array items) (.array (items.set i w))

/-! ## Parts that are read alike -/

/-- Whether two values of a role have the same reading. -/
def Role.Same : Role → Value → Value → Prop
  | plain, v, w => v = w
  | type inside, v, w => decodeType? inside v = decodeType? inside w ∧ (v = .null ↔ w = .null)
  | param inside, v, w => decodeBinding? paramKeys inside v = decodeBinding? paramKeys inside w
  | member inside, v, w => decodeBinding? memberKeys inside v = decodeBinding? memberKeys inside w
  | declaration, v, w => decodeDeclaration? v = decodeDeclaration? w
  | list item, v, w => v = w ∨ ∃ vs ws, v = .array vs ∧ w = .array ws ∧ List.Forall₂ item.Same vs ws

/-- A value has the same reading as itself. -/
theorem Role.Same.refl (role : Role) (v : Value) : role.Same v v := by
  cases role with
  | plain | param | member | declaration => rfl
  | type => exact ⟨rfl, .rfl⟩
  | list => exact .inl rfl

/-- Whether the parts of two records of one shape have the same readings. -/
inductive SameParts : Shape → List Value → List Value → Prop
  /-- There are no parts. -/
  | nil : SameParts [] [] []
  /-- The first parts have the same reading, and so have the others. -/
  | cons {key : Key} {part : Role} {shape : Shape} {v w : Value} {vs ws : List Value}
    (h : part.Same v w) (hs : SameParts shape vs ws) : SameParts ((key, part) :: shape) (v :: vs) (w :: ws)

/-- Whether two values are records of the same shape whose parts have the same readings, or are both none. -/
def Role.Alike (role : Role) (v w : Value) : Prop :=
  ∃ shape, role.shape? v = some shape ∧ (tagField ∈ shape.keys → tag? v = tag? w) ∧
    Option.Rel (SameParts shape) (arrange? shape.keys v) (arrange? shape.keys w)

/-! ## Shapes -/

/-- The shapes of the roles that are written as records. -/
def shapes : List Shape :=
  typeShapes ++ declarationShapes ++
    [false, true].flatMap fun inside =>
      [paramKeys.zip [.plain, .type inside], memberKeys.zip [.plain, .type inside]]

/-- The shape of a value is one of the shapes. -/
theorem shape?_mem_shapes {role : Role} {v : Value} {shape : Shape} (h : role.shape? v = some shape) :
    shape ∈ shapes := by
  cases role with
  | plain | list => contradiction
  | type inside =>
    obtain ⟨tag, -, h⟩ := Option.bind_eq_some_iff.mp h
    obtain ⟨i, -, h⟩ := Option.bind_eq_some_iff.mp h
    exact List.mem_append_left _ (List.mem_append_left _ (List.mem_of_getElem? h))
  | declaration =>
    obtain ⟨tag, -, h⟩ := Option.bind_eq_some_iff.mp h
    obtain ⟨i, -, h⟩ := Option.bind_eq_some_iff.mp h
    exact List.mem_append_left _ (List.mem_append_right _ (List.mem_of_getElem? h))
  | param inside | member inside =>
    cases h
    cases inside <;> simp [shapes]

/-- Types and declarations have tags. -/
theorem tagField_mem_keys {shape : Shape} (h : shape ∈ typeShapes ++ declarationShapes) :
    tagField ∈ shape.keys := by
  revert shape
  decide

section Shapes

variable {shape : Shape} (hshape : shape ∈ shapes)

include hshape

/-- The keys of a shape are different from each other. -/
theorem names_nodup : shape.names.Nodup := by
  revert shape
  decide

/-- A tag comes first, and there is no other way to write it. -/
theorem head?_of_tagField_mem (h : tagField ∈ shape.keys) :
    shape.head? = some (tagField, .plain) := by
  revert shape
  decide

/-- The name of a key says which key it is, and what its value stands for. -/
theorem eq_of_name_eq {p q : Key × Role} (hp : p ∈ shape) (hq : q ∈ shape)
    (hname : p.1.name = q.1.name) : p = q := by
  have hnodup := names_nodup hshape
  rw [Shape.names, Shape.keys, List.map_map] at hnodup
  exact List.inj_on_of_nodup_map hnodup hp hq hname

end Shapes

/-! ## Changes in records -/

/-- Changes are made in records and lists. -/
theorem Rewrites.ne_plain {role : Role} {v w : Value} (h : Rewrites role v w) : role ≠ .plain := by
  rintro rfl
  cases h <;> contradiction

/-- Parts are taken from objects in which the keys of the shape have values with the same readings. -/
theorem sameParts_of_fields {fields fields' : List (String × Value)} (shape : Shape)
    (h : ∀ p ∈ shape, Option.Rel p.2.Same (field? fields p.1) (field? fields' p.1)) :
    Option.Rel (SameParts shape) (arrange? shape.keys (.object fields))
      (arrange? shape.keys (.object fields')) := by
  induction shape with
  | nil => exact .some .nil
  | cons p shape ih =>
    have hrest := ih fun q hq => h q (List.mem_cons_of_mem p hq)
    have hfirst := h p List.mem_cons_self
    simp only [arrange?, Shape.keys, List.map_cons, List.mapM_cons] at hrest ⊢
    revert hfirst hrest
    generalize field? fields p.1 = v?, field? fields' p.1 = w?
    generalize (shape.map Prod.fst).mapM (field? fields) = vs?
    generalize (shape.map Prod.fst).mapM (field? fields') = ws?
    rintro (hrest | _) (hvw | _)
    · exact .some (.cons hvw hrest)
    all_goals exact .none

/-- Parts have the same readings as themselves. -/
theorem SameParts.refl {shape : Shape} {vs : List Value} (h : vs.length = shape.length) :
    SameParts shape vs vs := by
  induction shape generalizing vs with
  | nil => rw [List.length_eq_zero_iff.mp h]; exact .nil
  | cons p shape ih =>
    cases vs with
    | nil => contradiction
    | cons v vs => exact .cons (.refl p.2 v) (ih (Nat.succ.inj h))

/-- One of the parts is replaced by one with the same reading. -/
theorem SameParts.set {shape : Shape} {vs : List Value} (h : vs.length = shape.length) {i : Nat}
    {key : Key} {part : Role} (hshape : shape[i]? = some (key, part)) {v w : Value} (hv : vs[i]? = some v)
    (hvw : part.Same v w) : SameParts shape vs (vs.set i w) := by
  induction shape generalizing vs i with
  | nil => contradiction
  | cons p shape ih =>
    cases vs with
    | nil => contradiction
    | cons u vs =>
      cases i with
      | zero =>
        cases hshape
        cases hv
        exact .cons hvw (.refl (Nat.succ.inj h))
      | succ i => exact .cons (.refl p.2 u) (ih (Nat.succ.inj h) hshape hv)

section Alike

variable {role : Role} {shape : Shape} {fields fields' : List (String × Value)}

/-- Objects are alike if the keys of the shape have values with the same readings in them. -/
theorem Role.alike_objects (hshape : role.shape? (.object fields) = some shape)
    (h : ∀ p ∈ shape, Option.Rel p.2.Same (field? fields p.1) (field? fields' p.1)) :
    role.Alike (.object fields) (.object fields') := by
  refine ⟨shape, hshape, fun htag => ?_, sameParts_of_fields shape h⟩
  have hhead := head?_of_tagField_mem (shape?_mem_shapes hshape) htag
  have hrel := h _ (List.mem_of_mem_head? hhead)
  rw [tag?_object, tag?_object]
  -- A tag has one reading only.
  generalize field? fields tagField = v?, field? fields' tagField = w? at hrel
  obtain heq | _ := hrel
  · exact congrArg some heq
  · rfl

/-- Objects are alike if the keys of the shape have the same values in them. -/
theorem Role.alike_of_fields (hshape : role.shape? (.object fields) = some shape)
    (h : ∀ p ∈ shape, field? fields p.1 = field? fields' p.1) :
    role.Alike (.object fields) (.object fields') := by
  refine alike_objects hshape fun p hp => ?_
  rw [h p hp]
  cases field? fields' p.1 with
  | none => exact .none
  | some v => exact .some (.refl p.2 v)

/-- A field that the record does not know makes no difference. -/
theorem Role.alike_unknown (hshape : role.shape? (.object fields) = some shape) {key : String}
    (hkey : key ∉ shape.names) (v : Value) : role.Alike (.object fields) (.object ((key, v) :: fields)) := by
  refine alike_of_fields hshape fun p hp => ?_
  have hne : key ≠ p.1.name := by
    rintro rfl
    exact hkey (List.mem_map_of_mem (List.mem_map_of_mem hp))
  rw [field?_cons_of_ne hne]

/-- Whether a field is missing or null makes no difference if it may be missing. -/
theorem Role.alike_null (hshape : role.shape? (.object fields) = some shape) {key : Key}
    (hkey : key ∈ shape.keys) (hoptional : key.optional = true)
    (hmissing : key.name ∉ fields.map Prod.fst) :
    role.Alike (.object fields) (.object ((key.name, .null) :: fields)) := by
  refine alike_of_fields hshape fun p hp => ?_
  by_cases hname : key.name = p.1.name
  · obtain ⟨q, hq, rfl⟩ := List.mem_map.mp hkey
    cases eq_of_name_eq (shape?_mem_shapes hshape) hq hp hname
    have hfilter := filter_eq_nil_of_missing hmissing
    rw [field?_eq, field?_eq, List.filter_cons_of_pos (by simp), hfilter, Key.only?, if_pos hoptional]
    rfl
  · rw [field?_cons_of_ne hname]

/-- A change in a field that the record knows makes no more difference than it makes to the field. -/
theorem Role.alike_field {key : Key} {part : Role} {v w : Value}
    (hshape : role.shape? (.object ((key.name, v) :: fields)) = some shape) (hkey : (key, part) ∈ shape)
    (h : part.Same v w) :
    role.Alike (.object ((key.name, v) :: fields)) (.object ((key.name, w) :: fields)) := by
  refine alike_objects hshape fun p hp => ?_
  by_cases hname : key.name = p.1.name
  · cases eq_of_name_eq (shape?_mem_shapes hshape) hkey hp hname
    rw [field?_eq, field?_eq, List.filter_cons_of_pos (by simp), List.filter_cons_of_pos (by simp)]
    generalize fields.filter _ = fs
    match fs with
    | [] => exact .some h
    | _ :: _ => exact .none
  · rw [field?_cons_of_ne hname, field?_cons_of_ne hname]
    cases field? fields p.1 with
    | none => exact .none
    | some u => exact .some (.refl p.2 u)

/-- A record may be written as an array. -/
theorem Role.alike_array {values : List Value} (hshape : role.shape? (record shape.keys values) = some shape)
    (hlength : values.length = shape.length) : role.Alike (record shape.keys values) (.array values) := by
  have hkeys : values.length = shape.keys.length := by rw [hlength, Shape.keys, List.length_map]
  have harrange : arrange? shape.keys (record shape.keys values) = some values :=
    arrange?_record hkeys (names_nodup (shape?_mem_shapes hshape))
  refine ⟨shape, hshape, fun htag => ?_, ?_⟩
  · have hhead := head?_of_tagField_mem (shape?_mem_shapes hshape) htag
    obtain ⟨rest, rfl⟩ := List.head?_eq_some_iff.mp hhead
    rw [tag?_of_arrange? harrange, tag?_array]
  · rw [harrange, arrange?, if_pos hkeys]
    exact .some (.refl hlength)

/-- The same holds for a change in a record that is written as an array. -/
theorem Role.alike_position {values : List Value} (hshape : role.shape? (.array values) = some shape)
    {key : Key} {part : Role} {i : Nat} (hkey : shape[i]? = some (key, part)) {v w : Value}
    (hv : values[i]? = some v) (hpart : part ≠ .plain) (h : part.Same v w) :
    role.Alike (.array values) (.array (values.set i w)) := by
  refine ⟨shape, hshape, fun htag => ?_, ?_⟩
  · have hhead := head?_of_tagField_mem (shape?_mem_shapes hshape) htag
    obtain ⟨rest, rfl⟩ := List.head?_eq_some_iff.mp hhead
    rw [tag?_array, tag?_array]
    cases i with
    | zero =>
      cases hkey
      contradiction
    | succ i => cases values <;> rfl
  · rw [arrange?, arrange?, List.length_set]
    split
    · rename_i hlength
      rw [Shape.keys, List.length_map] at hlength
      exact .some (.set hlength hkey hv h)
    · exact .none

end Alike

end Idl.Schema
