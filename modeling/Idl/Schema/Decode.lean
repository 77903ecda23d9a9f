import Idl.Schema.Encode

/-!
# Programs from JSON

Each reader takes a record apart into its fields in order and reads those. A `TypeForm` is a type
taken apart in this way, its parts not read yet; the parts are smaller than the record, which is what
makes the reading end.
-/

namespace Idl.Schema

open Json (Value)

/-- The text that a value is. -/
def decodeName? : Value → Option String
  | .string s => some s
  | _ => none

/-- A type with its parts still in JSON. -/
inductive TypeForm
  | named (name : String)
  | generic (name : String) (arguments : List Value)
  | function (params : List Value) (result : Value)

/-- Takes a type apart. -/
def typeForm? (inside : Bool) (v : Value) : Option TypeForm :=
  match splitTag? v with
  | none => none
  | some (tag, body) =>
    match tagIndex? inside typeTags tag with
    | some 0 =>
      match arrange? namedKeys body with
      | some [.string n] => some (.named n)
      | _ => none
    | some 1 =>
      match arrange? genericKeys body with
      | some [.string n, .array as] => some (.generic n as)
      | _ => none
    | some 2 =>
      match arrange? functionKeys body with
      | some [.array ps, r] => some (.function ps r)
      | _ => none
    | _ => none

/-- Takes a parameter or a member apart into its name and its type. -/
def bindingForm? (keys : List Key) (v : Value) : Option (String × Value) :=
  match arrange? keys v with
  | some [.string n, a] => some (n, a)
  | _ => none

/-- The arguments of a generic type are smaller than the type. -/
theorem typeForm?_generic_size {inside : Bool} {v : Value} {n : String} {as : List Value}
    (h : typeForm? inside v = some (.generic n as)) : sizeOf as < sizeOf v := by
  unfold typeForm? at h
  split at h
  · simp at h
  · rename_i hsplit
    have := splitTag?_size hsplit
    split at h <;> (try split at h) <;> simp at h
    rename_i harr
    have := arrange?_size harr (w := .array as) (by simp [h.2])
    simp only [Value.array.sizeOf_spec] at this
    omega

/-- The parts of a function type are smaller than the type. -/
theorem typeForm?_function_size {inside : Bool} {v : Value} {ps : List Value} {r : Value}
    (h : typeForm? inside v = some (.function ps r)) :
    sizeOf ps < sizeOf v ∧ sizeOf r < sizeOf v := by
  unfold typeForm? at h
  split at h
  · simp at h
  · rename_i hsplit
    have := splitTag?_size hsplit
    split at h <;> (try split at h) <;> simp at h
    rename_i harr
    have hps := arrange?_size harr (w := .array ps) (by simp [h.1])
    have hr := arrange?_size harr (w := r) (by simp [h.2])
    simp only [Value.array.sizeOf_spec] at hps
    omega

/-- The type of a parameter or a member is smaller than the whole. -/
theorem bindingForm?_size {keys : List Key} {v a : Value} {n : String}
    (h : bindingForm? keys v = some (n, a)) : sizeOf a < sizeOf v := by
  unfold bindingForm? at h
  split at h <;> simp at h
  rename_i harr
  exact arrange?_size harr (by simp [h.2])

mutual

/-- Reads a type, which stands `inside` another tagged value or by itself. -/
def decodeType? (inside : Bool) (v : Value) : Option TypeExpr :=
  match _h : typeForm? inside v with
  | none => none
  | some (.named n) => some (.named n)
  | some (.generic n as) => (decodeTypes? as).map (.generic n ·)
  | some (.function ps .null) => (decodeParams? ps).map (.function · none)
  | some (.function ps r) =>
    (decodeParams? ps).bind fun ps => (decodeType? true r).map fun r => .function ps (some r)
termination_by sizeOf v
decreasing_by
  · exact typeForm?_generic_size _h
  · exact (typeForm?_function_size _h).1
  · exact (typeForm?_function_size _h).1
  · exact (typeForm?_function_size _h).2

/-- Reads a list of types inside another. -/
def decodeTypes? : List Value → Option (List TypeExpr)
  | [] => some []
  | v :: vs => (decodeType? true v).bind fun a => (decodeTypes? vs).map (a :: ·)
termination_by vs => sizeOf vs

/-- Reads a list of parameters. -/
def decodeParams? : List Value → Option (List Param)
  | [] => some []
  | v :: vs =>
    match _h : bindingForm? paramKeys v with
    | none => none
    | some (n, a) =>
      (decodeType? true a).bind fun a => (decodeParams? vs).map (⟨n, a⟩ :: ·)
termination_by vs => sizeOf vs
decreasing_by
  · have := bindingForm?_size _h
    simp only [List.cons.sizeOf_spec]
    omega
  · simp only [List.cons.sizeOf_spec]
    omega

end

/-- Reads a type or its absence, which is null. -/
def decodeOptional? (inside : Bool) : Value → Option (Option TypeExpr)
  | .null => some none
  | v => (decodeType? inside v).map some

/-- Reads a parameter or a member with the given keys. -/
def decodeBinding? (keys : List Key) (inside : Bool) (v : Value) : Option (Binding TypeExpr) :=
  (bindingForm? keys v).bind fun (n, a) => (decodeType? inside a).map (⟨n, ·⟩)

/-- Reads an enumeration without its tag. -/
def decodeEnum? (body : Value) : Option Declaration :=
  match arrange? enumKeys body with
  | some [.string n, u, .array ns] =>
    (decodeType? true u).bind fun u => (ns.mapM decodeName?).map fun ns => .enum n u ns
  | _ => none

/-- Reads a struct or an interface without its tag. -/
def decodeRecord? (form : RecordForm) (body : Value) : Option Declaration :=
  match arrange? recordKeys body with
  | some [.string n, parent, .array members] =>
    (decodeOptional? true parent).bind fun parent =>
      (members.mapM (decodeBinding? memberKeys true)).map fun members =>
        .record form n parent members
  | _ => none

/-- Reads a declaration. -/
def decodeDeclaration? (v : Value) : Option Declaration :=
  match splitTag? v with
  | none => none
  | some (tag, body) =>
    match tagIndex? false declarationTags tag with
    | some 0 => decodeEnum? body
    | some 1 => decodeRecord? .struct body
    | some 2 => decodeRecord? .interface body
    | _ => none

/-- Reads a program. -/
def decodeProgram? : Value → Option Program
  | .array items => (items.mapM decodeDeclaration?).map .ofList
  | _ => none

end Idl.Schema
