import Mathlib.Logic.Relation
import Idl.Proofs.Schema.Rewriting
import Idl.Proofs.Schema.RoundTrip

/-!
# Documents that are read alike

No change of a document makes a difference to its reading (`Rewrites.same`), nor to whether it is readable
(`Rewrites.readable`). So what is read from a document is read from every document that comes from it by
changes, made or undone, as long as that does not nest too deep: all five schemas read documents up to changes
(`schemas_read_alike`).
-/

namespace Idl

open Json (Value)
open Json.Value (maxDepth listReadable fieldsReadable listReadable_iff fieldsReadable_iff fieldsDepth_le_iff
  depth_le_fieldsDepth)

namespace Schema

/-! ## Readings in terms of parts -/

/-- Reads the items of an array one by one. -/
def mapItems? {α : Type} (read? : Value → Option α) : Value → Option (List α)
  | .array items => items.mapM read?
  | _ => none

/-- Reads a type of some kind from its tag and its fields. -/
def typeOfParts? : Nat → List Value → Option TypeExpr
  | 0, [_, n] => (decodeName? n).map .named
  | 1, [_, n, as] => (decodeName? n).bind fun n => (mapItems? (decodeType? true) as).map (.generic n)
  | 2, [_, ps, r] =>
    (mapItems? (decodeBinding? paramKeys true) ps).bind fun ps =>
      (decodeOptional? true r).map (.function ps)
  | _, _ => none

/-- Reads a struct or an interface from its tag and its fields. -/
def recordOfParts? (form : RecordForm) : List Value → Option Declaration
  | [_, n, parent, ms] =>
    (decodeName? n).bind fun n => (decodeOptional? true parent).bind fun parent =>
      (mapItems? (decodeBinding? memberKeys true) ms).map (.record form n parent)
  | _ => none

/-- Reads a declaration of some kind from its tag and its fields. -/
def declarationOfParts? : Nat → List Value → Option Declaration
  | 0, [_, n, u, ns] =>
    (decodeName? n).bind fun n => (decodeType? true u).bind fun u =>
      (mapItems? decodeName? ns).map (.enum n u)
  | 1, parts => recordOfParts? .struct parts
  | 2, parts => recordOfParts? .interface parts
  | _, _ => none

/-- Reads a parameter or a member from its fields. -/
def bindingOfParts? (inside : Bool) : List Value → Option (Binding TypeExpr)
  | [n, a] => (decodeName? n).bind fun n => (decodeType? inside a).map (⟨n, ·⟩)
  | _ => none

/-- The tag of a value is what is taken off. -/
theorem exists_splitTag? {v tag : Value} (h : tag? v = some tag) :
    ∃ body, splitTag? v = some (tag, body) := by
  obtain ⟨⟨tag', body⟩, hsplit, rfl⟩ := Option.map_eq_some_iff.mp h
  exact ⟨body, hsplit⟩

/-- A type is read from its parts. -/
theorem decodeType?_of_tag {inside : Bool} {v tag : Value} {i : Nat} {shape : Shape}
    (htag : tag? v = some tag) (hindex : tagIndex? inside typeTags tag = some i)
    (hshape : typeShapes[i]? = some shape) :
    decodeType? inside v = (arrange? shape.keys v).bind (typeOfParts? i) := by
  obtain ⟨body, hsplit⟩ := exists_splitTag? htag
  rw [decodeType?_eq, typeForm?, hsplit]
  simp only [hindex]
  -- In each case the fields are arranged in the same way, and then told apart by what they are.
  rcases i with _ | _ | _ | i
  · have hkeys : shape.keys = tagField :: namedKeys := by cases hshape; rfl
    rw [hkeys, arrange?_of_splitTag? (by decide) hsplit]
    rcases arrange? namedKeys body with _ | ⟨_ | ⟨n, _ | _⟩⟩ <;> try rfl
    all_goals cases n <;> rfl
  · have hkeys : shape.keys = tagField :: genericKeys := by cases hshape; rfl
    rw [hkeys, arrange?_of_splitTag? (by decide) hsplit]
    rcases arrange? genericKeys body with _ | ⟨_ | ⟨n, _ | ⟨as, _ | _⟩⟩⟩ <;> try rfl
    · cases n <;> rfl
    all_goals cases n <;> cases as <;> rfl
  · have hkeys : shape.keys = tagField :: functionKeys := by cases hshape; rfl
    rw [hkeys, arrange?_of_splitTag? (by decide) hsplit]
    rcases arrange? functionKeys body with _ | ⟨_ | ⟨ps, _ | ⟨r, _ | _⟩⟩⟩ <;> try rfl
    all_goals cases ps <;> rfl
  · cases hshape

/-- A struct or an interface is read from its parts. -/
theorem decodeRecord?_eq_parts (form : RecordForm) (tag body : Value) :
    decodeRecord? form body =
      (arrange? recordKeys body).bind fun parts => recordOfParts? form (tag :: parts) := by
  rw [decodeRecord?]
  rcases arrange? recordKeys body with _ | ⟨_ | ⟨n, _ | ⟨parent, _ | ⟨ms, _ | _⟩⟩⟩⟩ <;> try rfl
  all_goals cases n <;> try rfl
  -- What is not an array is refused before the parent is read, or behind it.
  all_goals
    cases ms <;> cases h : decodeOptional? true parent <;>
      simp [recordOfParts?, decodeName?, mapItems?, h]

/-- A declaration is read from its parts. -/
theorem decodeDeclaration?_of_tag {v tag : Value} {i : Nat} {shape : Shape} (htag : tag? v = some tag)
    (hindex : tagIndex? false declarationTags tag = some i) (hshape : declarationShapes[i]? = some shape) :
    decodeDeclaration? v = (arrange? shape.keys v).bind (declarationOfParts? i) := by
  obtain ⟨body, hsplit⟩ := exists_splitTag? htag
  rw [decodeDeclaration?, hsplit]
  simp only [hindex]
  rcases i with _ | _ | _ | i
  · have hkeys : shape.keys = tagField :: enumKeys := by cases hshape; rfl
    rw [hkeys, arrange?_of_splitTag? (by decide) hsplit, decodeEnum?]
    rcases arrange? enumKeys body with _ | ⟨_ | ⟨n, _ | ⟨u, _ | ⟨ns, _ | _⟩⟩⟩⟩ <;> try rfl
    all_goals cases n <;> try rfl
    all_goals
      cases ns <;> cases h : decodeType? true u <;>
        simp [declarationOfParts?, decodeName?, mapItems?, h]
  · have hkeys : shape.keys = tagField :: recordKeys := by cases hshape; rfl
    rw [hkeys, arrange?_of_splitTag? (by decide) hsplit,
      decodeRecord?_eq_parts .struct tag, Option.bind_map]
    rfl
  · have hkeys : shape.keys = tagField :: recordKeys := by cases hshape; rfl
    rw [hkeys, arrange?_of_splitTag? (by decide) hsplit,
      decodeRecord?_eq_parts .interface tag, Option.bind_map]
    rfl
  · cases hshape

/-- A parameter or a member is read from its parts. -/
theorem decodeBinding?_eq_parts (keys : List Key) (inside : Bool) (v : Value) :
    decodeBinding? keys inside v = (arrange? keys v).bind (bindingOfParts? inside) := by
  rw [decodeBinding?, bindingForm?]
  rcases arrange? keys v with _ | ⟨_ | ⟨n, _ | ⟨a, _ | _⟩⟩⟩ <;> try rfl
  all_goals cases n <;> rfl

/-! ## Changes and readings -/

/-- Lists whose items have the same readings are read alike, item by item. -/
theorem Role.Same.mapItems?_eq {item : Role} {v w : Value} (h : (Role.list item).Same v w) {α : Type}
    (read? : Value → Option α) (hread : ∀ v w, item.Same v w → read? v = read? w) :
    mapItems? read? v = mapItems? read? w := by
  obtain rfl | ⟨vs, ws, rfl, rfl, hitems⟩ := h
  · rfl
  · exact mapM_eq_of_forall₂ (hitems.imp hread)

/-- Types with the same reading are also read alike where they may be absent. -/
theorem Role.Same.decodeOptional?_eq {inside : Bool} {v w : Value} (h : (Role.type inside).Same v w) :
    decodeOptional? inside v = decodeOptional? inside w := by
  by_cases hv : v = .null
  · rw [hv, h.2.mp hv]
  · have hw : w ≠ .null := fun hw => hv (h.2.mpr hw)
    rw [decodeOptional?_of_ne hv, decodeOptional?_of_ne hw, h.1]

section Parts

variable {i : Nat} {shape : Shape} {vs ws : List Value}

/-- Types are read alike if their parts are. -/
theorem typeOfParts?_eq (hshape : typeShapes[i]? = some shape) (h : SameParts shape vs ws) :
    typeOfParts? i vs = typeOfParts? i ws := by
  match i, hshape with
  | 0, rfl =>
    obtain _ | ⟨-, _ | ⟨hname, _ | _⟩⟩ := h
    rw [typeOfParts?, typeOfParts?, show _ = _ from hname]
  | 1, rfl =>
    obtain _ | ⟨-, _ | ⟨hname, _ | ⟨hitems, _ | _⟩⟩⟩ := h
    rw [typeOfParts?, typeOfParts?, show _ = _ from hname,
      hitems.mapItems?_eq (decodeType? true) fun _ _ h => h.1]
  | 2, rfl =>
    obtain _ | ⟨-, _ | ⟨hitems, _ | ⟨hresult, _ | _⟩⟩⟩ := h
    rw [typeOfParts?, typeOfParts?, hresult.decodeOptional?_eq,
      hitems.mapItems?_eq (decodeBinding? paramKeys true) fun _ _ h => h]

/-- Declarations are read alike if their parts are. -/
theorem declarationOfParts?_eq (hshape : declarationShapes[i]? = some shape) (h : SameParts shape vs ws) :
    declarationOfParts? i vs = declarationOfParts? i ws := by
  match i, hshape with
  | 0, rfl =>
    obtain _ | ⟨-, _ | ⟨hname, _ | ⟨hunderlying, _ | ⟨hnames, _ | _⟩⟩⟩⟩ := h
    rw [declarationOfParts?, declarationOfParts?, show _ = _ from hname, hunderlying.1,
      show _ = _ from hnames]
  | 1, rfl | 2, rfl =>
    obtain _ | ⟨-, _ | ⟨hname, _ | ⟨hparent, _ | ⟨hitems, _ | _⟩⟩⟩⟩ := h
    rw [declarationOfParts?, declarationOfParts?, recordOfParts?, recordOfParts?, show _ = _ from hname,
      hparent.decodeOptional?_eq, hitems.mapItems?_eq (decodeBinding? memberKeys true) fun _ _ h => h]

/-- Parameters and members are read alike if their parts are. -/
theorem bindingOfParts?_eq {nameKey typeKey : Key} {inside : Bool}
    (h : SameParts [(nameKey, .plain), (typeKey, .type inside)] vs ws) :
    bindingOfParts? inside vs = bindingOfParts? inside ws := by
  obtain _ | ⟨hname, _ | ⟨htype, _ | _⟩⟩ := h
  rw [bindingOfParts?, bindingOfParts?, show _ = _ from hname, htype.1]

end Parts

/-- What is read from parts with the same readings is the same. -/
theorem bind_eq_of_rel {α β : Type} {r : α → α → Prop} {f : α → Option β} {a? b? : Option α}
    (h : Option.Rel r a? b?) (hf : ∀ a b, r a b → f a = f b) : a?.bind f = b?.bind f := by
  cases h with
  | some h => exact hf _ _ h
  | none => rfl

/-- Records that are alike have the same reading. -/
theorem Role.Alike.same {role : Role} {v w : Value} (h : role.Alike v w) (hv : v ≠ .null) (hw : w ≠ .null) :
    role.Same v w := by
  obtain ⟨shape, hshape, htags, hparts⟩ := h
  cases role with
  | plain | list => contradiction
  | type inside =>
    refine ⟨?_, iff_of_false hv hw⟩
    obtain ⟨tag, htag, hindex⟩ := Option.bind_eq_some_iff.mp hshape
    obtain ⟨i, hindex, hshape⟩ := Option.bind_eq_some_iff.mp hindex
    have hkey := tagField_mem_keys (List.mem_append_left _ (List.mem_of_getElem? hshape))
    have htag' : tag? w = some tag := by rw [← htags hkey, htag]
    rw [decodeType?_of_tag htag hindex hshape, decodeType?_of_tag htag' hindex hshape]
    exact bind_eq_of_rel hparts fun _ _ => typeOfParts?_eq hshape
  | declaration =>
    obtain ⟨tag, htag, hindex⟩ := Option.bind_eq_some_iff.mp hshape
    obtain ⟨i, hindex, hshape⟩ := Option.bind_eq_some_iff.mp hindex
    have hkey := tagField_mem_keys (List.mem_append_right _ (List.mem_of_getElem? hshape))
    have htag' : tag? w = some tag := by rw [← htags hkey, htag]
    have hv := decodeDeclaration?_of_tag htag hindex hshape
    have hw := decodeDeclaration?_of_tag htag' hindex hshape
    exact hv.trans ((bind_eq_of_rel hparts fun _ _ => declarationOfParts?_eq hshape).trans hw.symm)
  | param inside | member inside =>
    cases hshape
    refine (decodeBinding?_eq_parts _ inside v).trans (Eq.trans ?_ (decodeBinding?_eq_parts _ inside w).symm)
    exact bind_eq_of_rel hparts fun _ _ => bindingOfParts?_eq

/-- A list is read alike after a change in one of its items. -/
theorem Role.same_list {item : Role} {items : List Value} {i : Nat} {v w : Value} (hv : items[i]? = some v)
    (h : item.Same v w) : (Role.list item).Same (.array items) (.array (items.set i w)) := by
  refine .inr ⟨items, _, rfl, rfl, ?_⟩
  induction items generalizing i with
  | nil => contradiction
  | cons u items ih =>
    have hrefl : List.Forall₂ item.Same items items := List.forall₂_same.mpr fun v _ => .refl item v
    cases i with
    | zero => cases hv; exact .cons h hrefl
    | succ i => exact .cons (.refl item u) (ih hv)

/-- No change makes a difference to what a document is read as. -/
theorem Rewrites.same {role : Role} {v w : Value} (h : Rewrites role v w) : role.Same v w := by
  induction h with
  | reorder hshape hperm =>
    exact (Role.alike_of_fields hshape fun p _ => field?_perm hperm p.1).same nofun nofun
  | unknown hshape hkey => exact (Role.alike_unknown hshape hkey _).same nofun nofun
  | null hshape hkey hoptional hmissing =>
    exact (Role.alike_null hshape hkey hoptional hmissing).same nofun nofun
  | array hshape hlength => exact (Role.alike_array hshape hlength).same nofun nofun
  | field hshape hkey _ ih => exact (Role.alike_field hshape hkey ih).same nofun nofun
  | position hshape hkey hv h ih => exact (Role.alike_position hshape hkey hv h.ne_plain ih).same nofun nofun
  | item hv _ ih => exact Role.same_list hv ih

/-! ## Changes and admissibility -/

/-- A list of values is as readable as it is with one of them replaced by one that is as readable. -/
theorem listReadable_set {items : List Value} {i : Nat} {v w : Value} (hv : items[i]? = some v)
    (h : v.readable = w.readable) : listReadable items = listReadable (items.set i w) := by
  induction items generalizing i with
  | nil => contradiction
  | cons u items ih =>
    cases i with
    | zero => cases hv; rw [List.set_cons_zero, listReadable, listReadable, h]
    | succ i => rw [List.set_cons_succ, listReadable, listReadable, ih hv]

/-- Fields are as readable in another order. -/
theorem fieldsReadable_perm {fields fields' : List (String × Value)} (h : fields.Perm fields') :
    fieldsReadable fields = fieldsReadable fields' := by
  rw [Bool.eq_iff_iff, fieldsReadable_iff, fieldsReadable_iff]
  exact ⟨fun hall f hf => hall f (h.mem_iff.mpr hf), fun hall f hf => hall f (h.mem_iff.mp hf)⟩

/-- A record is as readable as its parts. -/
theorem readable_record {keys : List Key} {values : List Value} (hlength : values.length = keys.length) :
    (record keys values).readable = listReadable values := by
  have hvalues : ((keys.map Key.name).zip values).map Prod.snd = values :=
    List.map_snd_zip (by simp [hlength])
  rw [Bool.eq_iff_iff, record, Value.readable, fieldsReadable_iff, listReadable_iff]
  nth_rewrite 2 [← hvalues]
  rw [List.forall_mem_map]

/-- No change makes a difference to whether a document is readable. -/
theorem Rewrites.readable {role : Role} {v w : Value} (h : Rewrites role v w) : v.readable = w.readable := by
  induction h with
  | reorder _ hperm => exact fieldsReadable_perm hperm
  | unknown _ _ hv => rw [Value.readable, Value.readable, fieldsReadable, hv.readable, Bool.true_and]
  | null => rfl
  | array _ hlength =>
    rw [Shape.keys, readable_record (by rw [List.length_map, hlength])]
    rfl
  | field _ _ _ ih => rw [Value.readable, Value.readable, fieldsReadable, fieldsReadable, ih]
  | position _ _ hv _ ih => exact listReadable_set hv ih
  | item hv _ ih => exact listReadable_set hv ih

section Known

variable {shape : Shape}

/-- Nor does it if there are fields that are passed over. -/
theorem Rewrites.readable_knownFields {role : Role} {v w : Value} (h : Rewrites role v w)
    (hrole : ∀ u, role.shape? u = some shape) :
    (knownFields shape.keys v).readable = (knownFields shape.keys w).readable := by
  cases h with
  | reorder _ hperm => exact fieldsReadable_perm (hperm.filter _)
  | @unknown _ _ _ key _ hshape hkey _ =>
    cases (hrole _).symm.trans hshape
    have hdropped : ¬ shape.keys.any (·.name = key) = true := by
      intro hany
      obtain ⟨k, hk, hname⟩ := List.any_eq_true.mp hany
      exact hkey (List.mem_map.mpr ⟨k, hk, of_decide_eq_true hname⟩)
    rw [knownFields, knownFields, List.filter_cons, if_neg hdropped]
  | null hshape hkey _ _ =>
    rw [knownFields, knownFields, List.filter_cons]
    split <;> rfl
  | array hshape hlength =>
    cases (hrole _).symm.trans hshape
    rw [knownFields_record]
    exact (Rewrites.array hshape hlength).readable
  | field _ _ h =>
    rw [knownFields, knownFields, List.filter_cons, List.filter_cons]
    split
    · rw [Value.readable, Value.readable, fieldsReadable, fieldsReadable, h.readable]
    · rfl
  | position _ _ hv h => exact listReadable_set hv h.readable
  | item => cases hrole .null

/-- What is passed over does not make a document less deep. -/
theorem depth_knownFields_le (keys : List Key) (v : Value) : (knownFields keys v).depth ≤ v.depth := by
  cases v with
  | object fields =>
    apply Nat.succ_le_succ
    rw [fieldsDepth_le_iff]
    exact fun f hf => depth_le_fieldsDepth (List.mem_filter.mp hf).1
  | _ => exact Nat.le_refl _

/-- What is passed over makes no difference to what a parameter or a member is read as. -/
theorem decodeBinding?_knownFields (keys : List Key) (inside : Bool) (v : Value) :
    decodeBinding? keys inside (knownFields keys v) = decodeBinding? keys inside v := by
  rw [decodeBinding?_eq_parts, decodeBinding?_eq_parts]
  cases v with
  | object fields =>
    rw [knownFields, arrange?_filter]
    exact fun key hkey v => List.any_eq_true.mpr ⟨key, hkey, decide_eq_true rfl⟩
  | _ => rfl

end Known

end Schema

/-! ## Schemas -/

/-- What it takes for a schema to read the documents of a role up to changes: whatever is read from a document
is read from every document that comes from it by changes, made or undone, if that does not nest too deep. -/
structure Schema.ReadsAlike {α : Type} (s : Schema α) (role : Schema.Role) : Prop where
  /-- What is read from a document is read from the other document. -/
  ofValue? : ∀ v w a, Relation.EqvGen (Schema.Rewrites role) v w → w.depth ≤ maxDepth →
    s.ofValue? v = some a → s.ofValue? w = some a
  /-- What is read from a text of a document is read from every text of the other document. -/
  read? : ∀ text text' v w a, Json.parse? text = some v → Json.parse? text' = some w →
    Relation.EqvGen (Schema.Rewrites role) v w → w.depth ≤ maxDepth →
    s.read? text = some a → s.read? text' = some a

namespace Schema

/-- A schema reads documents up to changes if no single change makes a difference to what it reads, nor to
whether that is readable. -/
theorem readsAlike_of_steps {α : Type} {s : Schema α} {role : Role}
    (hdecode : ∀ v w, Rewrites role v w → s.decode? (s.focus v) = s.decode? (s.focus w))
    (hreadable : ∀ v w, Rewrites role v w → (s.focus v).readable = (s.focus w).readable)
    (hdepth : ∀ v, (s.focus v).depth ≤ v.depth) : s.ReadsAlike role := by
  have hall : ∀ v w, Relation.EqvGen (Rewrites role) v w →
      s.decode? (s.focus v) = s.decode? (s.focus w) ∧ (s.focus v).readable = (s.focus w).readable := by
    intro v w h
    induction h with
    | rel v w h => exact ⟨hdecode v w h, hreadable v w h⟩
    | refl v => exact ⟨rfl, rfl⟩
    | symm v w _ ih => exact ⟨ih.1.symm, ih.2.symm⟩
    | trans u v w _ _ ih ih' => exact ⟨ih.1.trans ih'.1, ih.2.trans ih'.2⟩
  have hvalue : ∀ v w a, Relation.EqvGen (Rewrites role) v w → w.depth ≤ maxDepth →
      s.ofValue? v = some a → s.ofValue? w = some a := by
    intro v w a h hw hread
    obtain ⟨hsame, hreadable⟩ := hall v w h
    rw [Schema.ofValue?, Option.ite_none_right_eq_some] at hread
    obtain ⟨hadmissible, hread⟩ := hread
    have hv : (s.focus v).readable = true := (Bool.and_eq_true_iff.mp hadmissible).1
    have hle : (s.focus w).depth ≤ maxDepth := Nat.le_trans (hdepth w) hw
    have hw : (s.focus w).admissible = true := by
      rw [Value.admissible, ← hreadable, hv, decide_eq_true hle]
      rfl
    rw [Schema.ofValue?, if_pos hw, ← hsame, hread]
  refine ⟨hvalue, fun text text' v w a hv hw h hle hread => ?_⟩
  rw [Schema.read?, hv] at hread
  rw [Schema.read?, hw]
  exact hvalue v w a h hle hread

/-- Parameters and members are read up to changes, although fields are passed over. -/
theorem readsAlike_binding {encode : Binding TypeExpr → Value} {keys : List Key} {role : Role}
    (hrole : ∃ shape : Shape, shape.keys = keys ∧ ∀ v, role.shape? v = some shape)
    (hsame : ∀ v w, role.Same v w → decodeBinding? keys false v = decodeBinding? keys false w) :
    ReadsAlike { encode, decode? := decodeBinding? keys false, focus := knownFields keys } role := by
  obtain ⟨shape, rfl, hrole⟩ := hrole
  refine readsAlike_of_steps (fun v w h => ?_) (fun _ _ h => h.readable_knownFields hrole)
    (depth_knownFields_le shape.keys)
  have hv := decodeBinding?_knownFields shape.keys false v
  have hw := decodeBinding?_knownFields shape.keys false w
  exact hv.trans ((hsame v w h.same).trans hw.symm)

/-- Types, parameters, members, declarations and programs are read from documents whatever the order of their
fields, the fields they do not know, the absent fields they write as null, and the records they write as
arrays. -/
theorem schemas_read_alike :
    type.ReadsAlike (.type false) ∧ param.ReadsAlike (.param false) ∧ member.ReadsAlike (.member false) ∧
      declaration.ReadsAlike .declaration ∧ program.ReadsAlike (.list .declaration) := by
  refine ⟨?_, ?_, ?_, ?_, ?_⟩
  · exact readsAlike_of_steps (fun _ _ h => h.same.1) (fun _ _ h => h.readable) fun _ => Nat.le_refl _
  · exact readsAlike_binding ⟨_, rfl, fun _ => rfl⟩ fun _ _ h => h
  · exact readsAlike_binding ⟨_, rfl, fun _ => rfl⟩ fun _ _ h => h
  · exact readsAlike_of_steps (fun _ _ h => h.same) (fun _ _ h => h.readable) fun _ => Nat.le_refl _
  · refine readsAlike_of_steps (fun v w h => ?_) (fun _ _ h => h.readable) fun _ => Nat.le_refl _
    have hprogram : ∀ v, decodeProgram? v = (mapItems? decodeDeclaration? v).map .ofList := by
      intro v
      cases v <;> rfl
    have hitems := h.same.mapItems?_eq decodeDeclaration? fun _ _ h => h
    exact (hprogram v).trans ((congrArg (Option.map Program.ofList) hitems).trans (hprogram w).symm)

/-- A struct is read alike if it and its member are written as arrays, with null for the parent that it does
not have, and if the type of the member, a function, has a field that is not known, and null for the type that
it does not return. -/
theorem schemas_read_alike_struct :
    let d := Declaration.record .struct "A" none [⟨"x", .function [] none⟩]
    let a : Value := .object [("kind", .string "function"), ("params", .array [])]
    let b : Value := .object [("note", .object [("kind", .null)]), ("return_type", .null),
      ("kind", .string "function"), ("params", .array [])]
    let v : Value := .object [("kind", .string "struct"), ("name", .string "A"),
      ("members", .array [.object [("name", .string "x"), ("member_type", a)]])]
    let w : Value := .array [.string "struct", .string "A", .null, .array [.array [.string "x", b]]]
    Relation.EqvGen (Rewrites .declaration) v w ∧
      declaration.ofValue? v = some d ∧ declaration.ofValue? w = some d := by
  intro d a b v w
  let member : Value := .object [("name", .string "x"), ("member_type", a)]
  -- The parent has to be in its place before the struct can be written as an array.
  let absent : Value := .object [("parent", .null), ("kind", .string "struct"), ("name", .string "A"),
    ("members", .array [member])]
  let ordered : Value := .object [("kind", .string "struct"), ("name", .string "A"), ("parent", .null),
    ("members", .array [member])]
  let struct (member : Value) : Value := .array [.string "struct", .string "A", .null, .array [member]]
  let returning : Value := .object [("return_type", .null), ("kind", .string "function"),
    ("params", .array [])]
  have habsent : Rewrites .declaration v absent :=
    @Rewrites.null _ _ _ ⟨"parent", true⟩ rfl (by decide) rfl (by decide)
  have hordered : Rewrites .declaration absent ordered :=
    .reorder rfl ((List.Perm.swap _ _ _).trans (.cons _ (.swap _ _ _)))
  have hstruct : Rewrites .declaration ordered (struct member) :=
    @Rewrites.array _ declarationShapes[1] [.string "struct", .string "A", .null, .array [member]] rfl rfl
  have hinside {u u' : Value} (h : Rewrites (.member true) u u') :
      Rewrites .declaration (struct u) (struct u') :=
    @Rewrites.position _ _ _ _ _ 3 _ _ rfl rfl rfl (@Rewrites.item _ _ 0 _ _ rfl h)
  have hmember : Rewrites (.member true) member (.array [.string "x", a]) :=
    @Rewrites.array _ (memberKeys.zip [.plain, .type true]) [.string "x", a] rfl rfl
  have htype {u u' : Value} (h : Rewrites (.type true) u u') :
      Rewrites (.member true) (.array [.string "x", u]) (.array [.string "x", u']) :=
    @Rewrites.position _ _ _ _ _ 1 _ _ rfl rfl rfl h
  have hreturning : Rewrites (.type true) a returning :=
    @Rewrites.null _ _ _ ⟨"return_type", true⟩ rfl (by decide) rfl (by decide)
  have hnote : Rewrites (.type true) returning b :=
    .unknown rfl (by decide) (.object (List.forall_mem_singleton.mpr .null))
  have h : Relation.EqvGen (Rewrites .declaration) v w :=
    .trans _ _ _ (.rel _ _ habsent) <| .trans _ _ _ (.rel _ _ hordered) <|
      .trans _ _ _ (.rel _ _ hstruct) <| .trans _ _ _ (.rel _ _ (hinside hmember)) <|
      .trans _ _ _ (.rel _ _ (hinside (htype hreturning))) (.rel _ _ (hinside (htype hnote)))
  obtain ⟨-, -, -, hdeclaration, -⟩ := schemas_read_alike
  have hv : declaration.ofValue? v = some d := by decide +kernel
  exact ⟨h, hv, hdeclaration.ofValue? v w d h (by decide +kernel) hv⟩

end Schema

end Idl
