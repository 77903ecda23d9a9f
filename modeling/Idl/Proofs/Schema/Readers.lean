import Idl.Proofs.Schema.Records
import Idl.Schema.Decode

/-!
# Readers, one level at a time

The readers and writers of types and declarations in terms of the records of one level, with the parts
still in JSON.

A type is written as the tagged record of a form (`encodeType_eq`), and it is read by taking such a
record apart (`typeForm?_toValue`) and reading the parts (`decodeType?_eq`). A form nests less than the
record that it is read from, in whichever way that is written (`typeForm?_depth`). Declarations have
few parts, so their readers are inverted directly (`decodeEnum?_eq_some`, `decodeRecord?_eq_some`).
-/

namespace Idl.Schema

open Json (Value)
open Json.Value (listDepth)

/-! ## Forms of types -/

/-- The fields of a type that is taken apart. -/
def TypeForm.fields : TypeForm → List Value
  | named n => [.string n]
  | generic n as => [.string n, .array as]
  | function ps r => [.array ps, r]

/-- The tagged record of a form. -/
def TypeForm.toValue : TypeForm → Value
  | named n => taggedRecord "named" namedKeys (named n).fields
  | generic n as => taggedRecord "generic" genericKeys (generic n as).fields
  | function ps r => taggedRecord "function" functionKeys (function ps r).fields

/-- The tagged record of a form is taken apart into the form. -/
theorem typeForm?_toValue (inside : Bool) (form : TypeForm) :
    typeForm? inside form.toValue = some form := by
  cases form with
  | named n =>
    have hindex : tagIndex? inside typeTags (.string "named") = some 0 := rfl
    have harrange : arrange? namedKeys (record namedKeys [.string n]) = some [.string n] :=
      arrange?_record rfl (by decide)
    rw [typeForm?, TypeForm.toValue, splitTag?_taggedRecord _ (by decide)]
    simp only [TypeForm.fields, hindex, harrange]
  | generic n as =>
    have hindex : tagIndex? inside typeTags (.string "generic") = some 1 := rfl
    have harrange : arrange? genericKeys (record genericKeys [.string n, .array as]) =
        some [.string n, .array as] := arrange?_record rfl (by decide)
    rw [typeForm?, TypeForm.toValue, splitTag?_taggedRecord _ (by decide)]
    simp only [TypeForm.fields, hindex, harrange]
  | function ps r =>
    have hindex : tagIndex? inside typeTags (.string "function") = some 2 := rfl
    have harrange : arrange? functionKeys (record functionKeys [.array ps, r]) =
        some [.array ps, r] := arrange?_record rfl (by decide)
    rw [typeForm?, TypeForm.toValue, splitTag?_taggedRecord _ (by decide)]
    simp only [TypeForm.fields, hindex, harrange]

/-- The tagged record of a form is exact if its fields are. -/
theorem exact_toValue {form : TypeForm} (h : ∀ v ∈ form.fields, v.Exact) : form.toValue.Exact := by
  cases form <;> exact exact_taggedRecord _ h

/-- The tagged record of a form nests one level deeper than its fields. -/
theorem depth_toValue_le (form : TypeForm) : form.toValue.depth ≤ listDepth form.fields + 1 := by
  cases form <;> exact Nat.le_trans (Nat.le_of_eq (depth_taggedRecord _ _ _)) (depth_record_le _ _)

/-- What is taken apart into a form nests deeper than the fields. -/
theorem typeForm?_depth {inside : Bool} {v : Value} {form : TypeForm}
    (h : typeForm? inside v = some form) : listDepth form.fields < v.depth := by
  unfold typeForm? at h
  split at h
  · contradiction
  · rename_i hsplit
    apply Nat.lt_of_lt_of_le _ (splitTag?_depth hsplit)
    -- What is left are the three forms, each with the fields that were arranged for it.
    split at h <;> (try split at h) <;> (try contradiction)
    all_goals
      rename_i harrange
      cases h
      exact arrange?_depth harrange

/-! ## Reading types, parameters and members -/

/-- What is there, is read. -/
theorem decodeOptional?_of_ne {inside : Bool} {v : Value} (h : v ≠ .null) :
    decodeOptional? inside v = (decodeType? inside v).map some := by
  cases v with
  | null => contradiction
  | _ => rfl

/-- A list of types is read one by one. -/
theorem decodeTypes?_eq (vs : List Value) : decodeTypes? vs = vs.mapM (decodeType? true) := by
  induction vs with
  | nil => rw [decodeTypes?]; rfl
  | cons v vs ih =>
    rw [decodeTypes?, ih, List.mapM_cons]
    cases decodeType? true v <;> cases vs.mapM (decodeType? true) <;> rfl

/-- The type of a parameter or a member is read, and the name is put in front. -/
theorem decodeBinding?_of_form {keys : List Key} {inside : Bool} {v a : Value} {n : String}
    (h : bindingForm? keys v = some (n, a)) :
    decodeBinding? keys inside v = (decodeType? inside a).map (⟨n, ·⟩) := by
  rw [decodeBinding?, h]
  rfl

/-- A list of parameters is read one by one. -/
theorem decodeParams?_eq (vs : List Value) :
    decodeParams? vs = vs.mapM (decodeBinding? paramKeys true) := by
  induction vs with
  | nil => rw [decodeParams?]; rfl
  | cons v vs ih =>
    rw [decodeParams?, ih, List.mapM_cons]
    split
    case h_1 hform => rw [decodeBinding?, hform]; rfl
    case h_2 n a hform =>
      rw [decodeBinding?_of_form hform]
      cases decodeType? true a <;> cases vs.mapM (decodeBinding? paramKeys true) <;> rfl

/-- Reads the parts of a type. -/
def TypeForm.decode? : TypeForm → Option TypeExpr
  | named n => some (.named n)
  | generic n as => (as.mapM (decodeType? true)).map (.generic n)
  | function ps r =>
    (ps.mapM (decodeBinding? paramKeys true)).bind fun ps =>
      (decodeOptional? true r).map (.function ps)

/-- A generic type is read from the form of one. -/
theorem TypeForm.decode?_eq_generic {form : TypeForm} {n : String} {as : List TypeExpr}
    (h : form.decode? = some (.generic n as)) :
    ∃ vs, form = .generic n vs ∧ vs.mapM (decodeType? true) = some as := by
  cases form with
  | named => cases h
  | generic n' vs =>
    obtain ⟨as', hread, heq⟩ := Option.map_eq_some_iff.mp h
    cases heq
    exact ⟨vs, rfl, hread⟩
  | function vs w =>
    obtain ⟨ps, -, h⟩ := Option.bind_eq_some_iff.mp h
    obtain ⟨r, -, heq⟩ := Option.map_eq_some_iff.mp h
    cases heq

/-- A function type is read from the form of one. -/
theorem TypeForm.decode?_eq_function {form : TypeForm} {ps : List Param} {r : Option TypeExpr}
    (h : form.decode? = some (.function ps r)) :
    ∃ vs w, form = .function vs w ∧ vs.mapM (decodeBinding? paramKeys true) = some ps ∧
      decodeOptional? true w = some r := by
  cases form with
  | named => cases h
  | generic n vs =>
    obtain ⟨as, -, heq⟩ := Option.map_eq_some_iff.mp h
    cases heq
  | function vs w =>
    obtain ⟨ps', hparams, h⟩ := Option.bind_eq_some_iff.mp h
    obtain ⟨r', hresult, heq⟩ := Option.map_eq_some_iff.mp h
    cases heq
    exact ⟨vs, w, rfl, hparams, hresult⟩

/-- A type is taken apart, then its parts are read. -/
theorem decodeType?_eq (inside : Bool) (v : Value) :
    decodeType? inside v = (typeForm? inside v).bind TypeForm.decode? := by
  rw [decodeType?]
  split
  case h_1 hform => rw [hform]; rfl
  case h_2 n hform => rw [hform]; rfl
  case h_3 n as hform => rw [hform, decodeTypes?_eq]; rfl
  case h_4 ps hform =>
    rw [hform, decodeParams?_eq, Option.bind_some, TypeForm.decode?]
    cases ps.mapM (decodeBinding? paramKeys true) <;> rfl
  case h_5 ps r hne hform =>
    rw [hform, decodeParams?_eq, Option.bind_some, TypeForm.decode?, decodeOptional?_of_ne hne]
    simp only [Option.map_map, Function.comp_def]

/-- A parameter or a member is read from its name and its type. -/
theorem decodeBinding?_eq_some {keys : List Key} {inside : Bool} {v : Value}
    {b : Binding TypeExpr} (h : decodeBinding? keys inside v = some b) :
    ∃ w, arrange? keys v = some [.string b.name, w] ∧ decodeType? inside w = some b.type := by
  obtain ⟨⟨n, w⟩, hform, hread⟩ := Option.bind_eq_some_iff.mp h
  obtain ⟨a, htype, rfl⟩ := Option.map_eq_some_iff.mp hread
  unfold bindingForm? at hform
  split at hform
  · rename_i harrange
    cases hform
    exact ⟨w, harrange, htype⟩
  · contradiction

/-! ## Writing types -/

/-- The form that a type is written in. -/
def formOf : TypeExpr → TypeForm
  | .named n => .named n
  | .generic n as => .generic n (as.map encodeType)
  | .function ps r => .function (ps.map encodeParam) (encodeOptional r)

/-- A list of types is written one by one. -/
theorem encodeTypes_eq (as : List TypeExpr) : encodeTypes as = as.map encodeType := by
  induction as with
  | nil => rfl
  | cons a as ih => rw [encodeTypes, ih, List.map_cons]

/-- A list of parameters is written one by one. -/
theorem encodeParams_eq (ps : List Param) : encodeParams ps = ps.map encodeParam := by
  induction ps with
  | nil => rfl
  | cons p ps ih => rw [encodeParams, ih, List.map_cons]; rfl

/-- A type is written as the tagged record of its form. -/
theorem encodeType_eq (a : TypeExpr) : encodeType a = (formOf a).toValue := by
  match a with
  | .named n => rfl
  | .generic n as => rw [encodeType, encodeTypes_eq]; rfl
  | .function ps none => rw [encodeType, encodeParams_eq]; rfl
  | .function ps (some r) => rw [encodeType, encodeParams_eq]; rfl

/-- A type is not written as null, which stands for its absence. -/
theorem encodeType_ne_null (a : TypeExpr) : encodeType a ≠ .null := by
  rw [encodeType_eq]
  cases formOf a <;> nofun

/-! ## Reading declarations -/

/-- An enumeration is read from its tagged record. -/
theorem decodeDeclaration?_enum (values : List Value) :
    decodeDeclaration? (taggedRecord "enum" enumKeys values) =
      decodeEnum? (record enumKeys values) := by
  have hindex : tagIndex? false declarationTags (.string "enum") = some 0 := rfl
  rw [decodeDeclaration?, splitTag?_taggedRecord _ (by decide)]
  simp only [hindex]

/-- A struct or an interface is read from its tagged record. -/
theorem decodeDeclaration?_record (form : RecordForm) (values : List Value) :
    decodeDeclaration? (taggedRecord form.keyword recordKeys values) =
      decodeRecord? form (record recordKeys values) := by
  rw [decodeDeclaration?, splitTag?_taggedRecord _ (by decide)]
  cases form with
  | struct =>
    have hindex : tagIndex? false declarationTags (.string RecordForm.struct.keyword) = some 1 := rfl
    simp only [hindex]
  | interface =>
    have hindex : tagIndex? false declarationTags (.string RecordForm.interface.keyword) = some 2 := rfl
    simp only [hindex]

/-- Every declaration is read from what is left of it without a tag. -/
theorem decodeDeclaration?_eq_some {v : Value} {d : Declaration}
    (h : decodeDeclaration? v = some d) :
    ∃ tag body, splitTag? v = some (tag, body) ∧
      (decodeEnum? body = some d ∨ ∃ form, decodeRecord? form body = some d) := by
  unfold decodeDeclaration? at h
  split at h
  · contradiction
  · rename_i tag body hsplit
    refine ⟨tag, body, hsplit, ?_⟩
    split at h
    · exact .inl h
    · exact .inr ⟨_, h⟩
    · exact .inr ⟨_, h⟩
    · contradiction

/-- An enumeration is read from its three parts. -/
theorem decodeEnum?_eq_some {body : Value} {d : Declaration} (h : decodeEnum? body = some d) :
    ∃ n u ns w ws, d = .enum n u ns ∧ arrange? enumKeys body = some [.string n, w, .array ws] ∧
      decodeType? true w = some u ∧ ws.mapM decodeName? = some ns := by
  unfold decodeEnum? at h
  split at h
  · rename_i n w ws harrange
    obtain ⟨u, hu, h⟩ := Option.bind_eq_some_iff.mp h
    obtain ⟨ns, hns, rfl⟩ := Option.map_eq_some_iff.mp h
    exact ⟨n, u, ns, w, ws, rfl, harrange, hu, hns⟩
  · contradiction

/-- A struct or an interface is read from its three parts. -/
theorem decodeRecord?_eq_some {form : RecordForm} {body : Value} {d : Declaration}
    (h : decodeRecord? form body = some d) :
    ∃ n parent members w ws, d = .record form n parent members ∧
      arrange? recordKeys body = some [.string n, w, .array ws] ∧
      decodeOptional? true w = some parent ∧
      ws.mapM (decodeBinding? memberKeys true) = some members := by
  unfold decodeRecord? at h
  split at h
  · rename_i n w ws harrange
    obtain ⟨parent, hparent, h⟩ := Option.bind_eq_some_iff.mp h
    obtain ⟨members, hmembers, rfl⟩ := Option.map_eq_some_iff.mp h
    exact ⟨n, parent, members, w, ws, rfl, harrange, hparent, hmembers⟩
  · contradiction

end Idl.Schema
