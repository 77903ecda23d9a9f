import Idl.Proofs.Schema.Readers
import Idl.Schema

/-!
# Values written and read

The JSON form of a value is read as the value as long as it does not nest too deep, from the compact
text and from the pretty one, and from neither otherwise. Since no text that is read nests less than
what is written for its value, a value that was read can be written and read again. That is `Faithful`,
and all five schemas are (`schemas_faithful`).

What one value contributes is `Kept`, which goes up from the parts of a value to the value.
-/

namespace Idl

open Json (Value mapM_eq_some_iff exists_of_mem_mapM)
open Json.Value (maxDepth listDepth listDepth_le_iff depth_le_listDepth)

namespace Schema

/-- What it takes for a value to survive its JSON form. -/
structure Kept {α : Type} (encode : α → Value) (decode? : Value → Option α) (a : α) : Prop where
  /-- The form is a document that is read from its texts. -/
  exact : (encode a).Exact
  /-- The form is read as the value. -/
  decode_encode : decode? (encode a) = some a
  /-- Nothing that is read as the value nests less than the form. -/
  depth_le : ∀ v, decode? v = some a → (encode a).depth ≤ v.depth

/-! ## Lists -/

section Lists

variable {α : Type} {encode : α → Value} {decode? : Value → Option α} {as : List α}

/-- A list is read from the forms of its members. -/
theorem mapM_decode_encode (h : ∀ a ∈ as, Kept encode decode? a) :
    (as.map encode).mapM decode? = some as := by
  rw [mapM_eq_some_iff, List.map_map]
  exact List.map_congr_left fun a ha => (h a ha).decode_encode

/-- Nothing that is read as a list nests less than the forms of its members. -/
theorem listDepth_map_le (h : ∀ a ∈ as, Kept encode decode? a) {vs : List Value}
    (hread : vs.mapM decode? = some as) : listDepth (as.map encode) ≤ listDepth vs := by
  rw [listDepth_le_iff]
  intro w hw
  obtain ⟨a, ha, rfl⟩ := List.mem_map.mp hw
  obtain ⟨v, hv, hdecode⟩ := exists_of_mem_mapM hread ha
  exact Nat.le_trans ((h a ha).depth_le v hdecode) (depth_le_listDepth hv)

/-- The forms of the members of a list are an exact array. -/
theorem exact_array (h : ∀ a ∈ as, Kept encode decode? a) : (Value.array (as.map encode)).Exact := by
  refine .array fun v hv => ?_
  obtain ⟨a, ha, rfl⟩ := List.mem_map.mp hv
  exact (h a ha).exact

end Lists

/-! ## Parts of declarations -/

/-- Names are kept. -/
theorem kept_name (n : String) : Kept .string decodeName? n where
  exact := .string n
  decode_encode := rfl
  depth_le := fun _ _ => Nat.zero_le _

/-- A type that may be absent is kept if it is when it is there. -/
theorem kept_optional {r : Option TypeExpr}
    (h : ∀ a ∈ r, Kept encodeType (decodeType? true) a) :
    Kept encodeOptional (decodeOptional? true) r := by
  cases r with
  | none => exact ⟨.null, rfl, fun _ _ => Nat.zero_le _⟩
  | some a =>
    have ha := h a rfl
    refine ⟨ha.exact, ?_, fun v hread => ?_⟩
    · rw [encodeOptional, decodeOptional?_of_ne (encodeType_ne_null a), ha.decode_encode]
      rfl
    · -- Null is read as the absence of a type, so something else was read.
      have hne : v ≠ .null := by
        rintro rfl
        cases hread
      rw [decodeOptional?_of_ne hne, Option.map_eq_some_iff] at hread
      obtain ⟨a', hread, heq⟩ := hread
      cases heq
      exact ha.depth_le v hread

/-- A parameter or a member is kept if its type is. -/
theorem kept_binding {keys : List Key} (hlength : keys.length = 2)
    (hkeys : (keys.map Key.name).Nodup) {inside : Bool} {b : Binding TypeExpr}
    (h : Kept encodeType (decodeType? inside) b.type) :
    Kept (fun b => record keys [.string b.name, encodeType b.type]) (decodeBinding? keys inside) b := by
  refine ⟨?_, ?_, fun v hread => ?_⟩
  · exact exact_record (List.forall_mem_cons.mpr
      ⟨.string b.name, List.forall_mem_singleton.mpr h.exact⟩)
  · have harrange : arrange? keys (record keys [.string b.name, encodeType b.type]) =
        some [.string b.name, encodeType b.type] := arrange?_record hlength.symm hkeys
    have hform : bindingForm? keys (record keys [.string b.name, encodeType b.type]) =
        some (b.name, encodeType b.type) := by
      rw [bindingForm?, harrange]
    rw [decodeBinding?_of_form hform, h.decode_encode]
    rfl
  · obtain ⟨w, harrange, hread⟩ := decodeBinding?_eq_some hread
    have htype : (encodeType b.type).depth ≤ w.depth := h.depth_le w hread
    apply depth_record_le_of_arrange? harrange
    simp only [listDepth]
    omega

/-! ## Types -/

/-- A type is kept if its form is, at the level of the form. -/
theorem kept_of_form {a : TypeExpr} (hexact : ∀ v ∈ (formOf a).fields, v.Exact)
    (hdecode : (formOf a).decode? = some a)
    (hdepth : ∀ form : TypeForm, form.decode? = some a →
      listDepth (formOf a).fields ≤ listDepth form.fields)
    (inside : Bool) : Kept encodeType (decodeType? inside) a where
  exact := by
    rw [encodeType_eq]
    exact exact_toValue hexact
  decode_encode := by rw [encodeType_eq, decodeType?_eq, typeForm?_toValue, Option.bind_some, hdecode]
  depth_le v hread := by
    rw [decodeType?_eq] at hread
    obtain ⟨form, hform, hread⟩ := Option.bind_eq_some_iff.mp hread
    rw [encodeType_eq]
    calc (formOf a).toValue.depth
      _ ≤ listDepth (formOf a).fields + 1 := depth_toValue_le _
      _ ≤ listDepth form.fields + 1 := Nat.succ_le_succ (hdepth form hread)
      _ ≤ v.depth := typeForm?_depth hform

/-- Every type is kept, inside another value and by itself. -/
theorem kept_type (a : TypeExpr) (inside : Bool) : Kept encodeType (decodeType? inside) a := by
  -- The parts of a type always stand inside it, wherever it stands itself.
  induction a generalizing inside with
  | named n =>
    refine kept_of_form ?_ rfl (fun _ _ => Nat.zero_le _) inside
    exact List.forall_mem_singleton.mpr (.string n)
  | generic n as ih =>
    have has : ∀ a ∈ as, Kept encodeType (decodeType? true) a := fun a ha => ih a ha true
    refine kept_of_form ?_ ?_ (fun form hread => ?_) inside
    · exact List.forall_mem_cons.mpr
        ⟨.string n, List.forall_mem_singleton.mpr (exact_array has)⟩
    · rw [formOf, TypeForm.decode?, mapM_decode_encode has]
      rfl
    · obtain ⟨vs, rfl, hlist⟩ := TypeForm.decode?_eq_generic hread
      have harguments := listDepth_map_le has hlist
      simp only [formOf, TypeForm.fields, listDepth, Value.depth]
      omega
  | function ps r ihps ihr =>
    have hps : ∀ p ∈ ps, Kept encodeParam (decodeBinding? paramKeys true) p :=
      fun p hp => kept_binding rfl (by decide) (ihps p hp true)
    have hr : Kept encodeOptional (decodeOptional? true) r := kept_optional fun a ha => ihr a ha true
    refine kept_of_form ?_ ?_ (fun form hread => ?_) inside
    · exact List.forall_mem_cons.mpr
        ⟨exact_array hps, List.forall_mem_singleton.mpr hr.exact⟩
    · rw [formOf, TypeForm.decode?, mapM_decode_encode hps, Option.bind_some, hr.decode_encode]
      rfl
    · obtain ⟨vs, w, rfl, hlist, hresult⟩ := TypeForm.decode?_eq_function hread
      have hparams := listDepth_map_le hps hlist
      have hresult := hr.depth_le w hresult
      simp only [formOf, TypeForm.fields, listDepth, Value.depth]
      omega

/-! ## Declarations and programs -/

/-- Members are kept. -/
theorem kept_member (m : Member) : Kept encodeMember (decodeBinding? memberKeys true) m :=
  kept_binding rfl (by decide) (kept_type m.type true)

/-- A parent type, or its absence, is kept. -/
theorem kept_parent (parent : Option TypeExpr) :
    Kept encodeOptional (decodeOptional? true) parent :=
  kept_optional fun a _ => kept_type a true

/-- Nothing that is read as a declaration nests less than the form of the declaration. -/
theorem depth_encodeDeclaration_le {v : Value} {d : Declaration}
    (h : decodeDeclaration? v = some d) : (encodeDeclaration d).depth ≤ v.depth := by
  -- The cases are those of the reader, which knows what the parts of `d` were read from.
  obtain ⟨tag, body, hsplit, henum | ⟨form, hrecord⟩⟩ := decodeDeclaration?_eq_some h
  · obtain ⟨n, u, ns, w, ws, rfl, harrange, hu, hns⟩ := decodeEnum?_eq_some henum
    have hle := (kept_type u true).depth_le w hu
    have hlist := listDepth_map_le (fun n _ => kept_name n) hns
    apply depth_taggedRecord_le_of_arrange? hsplit harrange
    simp only [listDepth, Value.depth]
    omega
  · obtain ⟨n, parent, members, w, ws, rfl, harrange, hparent, hmembers⟩ :=
      decodeRecord?_eq_some hrecord
    have hle := (kept_parent parent).depth_le w hparent
    have hlist := listDepth_map_le (fun m _ => kept_member m) hmembers
    apply depth_taggedRecord_le_of_arrange? hsplit harrange
    simp only [listDepth, Value.depth]
    omega

/-- Every declaration is kept. -/
theorem kept_declaration (d : Declaration) : Kept encodeDeclaration decodeDeclaration? d := by
  cases d with
  | enum n u ns =>
    have hu := kept_type u true
    have hns : ∀ n ∈ ns, Kept .string decodeName? n := fun n _ => kept_name n
    refine ⟨?_, ?_, fun v => depth_encodeDeclaration_le⟩
    · exact exact_taggedRecord _ (List.forall_mem_cons.mpr ⟨.string n, List.forall_mem_cons.mpr
        ⟨hu.exact, List.forall_mem_singleton.mpr (exact_array hns)⟩⟩)
    · have harrange : arrange? enumKeys (record enumKeys
          [.string n, encodeType u, .array (ns.map .string)]) =
            some [.string n, encodeType u, .array (ns.map .string)] := arrange?_record rfl (by decide)
      rw [encodeDeclaration, decodeDeclaration?_enum, decodeEnum?, harrange]
      simp only [hu.decode_encode, mapM_decode_encode hns, Option.bind_some, Option.map_some]
  | record form n parent members =>
    have hparent := kept_parent parent
    have hmembers : ∀ m ∈ members, Kept encodeMember (decodeBinding? memberKeys true) m :=
      fun m _ => kept_member m
    refine ⟨?_, ?_, fun v => depth_encodeDeclaration_le⟩
    · exact exact_taggedRecord _ (List.forall_mem_cons.mpr ⟨.string n, List.forall_mem_cons.mpr
        ⟨hparent.exact, List.forall_mem_singleton.mpr (exact_array hmembers)⟩⟩)
    · have harrange : arrange? recordKeys (record recordKeys
          [.string n, encodeOptional parent, .array (members.map encodeMember)]) =
            some [.string n, encodeOptional parent, .array (members.map encodeMember)] :=
        arrange?_record rfl (by decide)
      rw [encodeDeclaration, decodeDeclaration?_record, decodeRecord?, harrange]
      simp only [hparent.decode_encode, mapM_decode_encode hmembers, Option.bind_some,
        Option.map_some]

/-- Every program is kept. -/
theorem kept_program (p : Program) : Kept encodeProgram decodeProgram? p := by
  have hp : ∀ d ∈ p.toList, Kept encodeDeclaration decodeDeclaration? d := fun d _ => kept_declaration d
  refine ⟨exact_array hp, ?_, fun v hread => ?_⟩
  · rw [encodeProgram, decodeProgram?, mapM_decode_encode hp, Option.map_some, Program.ofList_toList]
  · cases v with
    | array items =>
      obtain ⟨ds, hlist, rfl⟩ := Option.map_eq_some_iff.mp hread
      rw [Program.toList_ofList] at hp
      rw [encodeProgram, Program.toList_ofList]
      exact Nat.succ_le_succ (listDepth_map_le hp hlist)
    | _ => cases hread

end Schema

/-! ## Schemas -/

/-- What the texts of a schema promise. A value is read from both its texts if its form nests no deeper
than is read at all, and from neither otherwise; and what is read from any text is of the first kind,
so it can be written and read again. -/
structure Schema.Faithful {α : Type} (s : Schema α) : Prop where
  /-- A value whose form does not nest too deep is read from both its texts. -/
  reads_back : ∀ a, (s.encode a).depth ≤ maxDepth →
    s.read? (s.compact a) = some a ∧ s.read? (s.pretty a) = some a
  /-- A value whose form nests too deep is read from neither of its texts. -/
  refuses : ∀ a, maxDepth < (s.encode a).depth →
    s.read? (s.compact a) = none ∧ s.read? (s.pretty a) = none
  /-- The form of a value that is read from some text does not nest too deep. -/
  shallow : ∀ text a, s.read? text = some a → (s.encode a).depth ≤ maxDepth
  /-- A value that is read from some text is read again from both its own. -/
  reads_again : ∀ text a, s.read? text = some a →
    s.read? (s.compact a) = some a ∧ s.read? (s.pretty a) = some a

namespace Schema

section

variable {α : Type} {s : Schema α} {a : α}

/-- A value that is kept is read from each text of its form, unless that nests too deep. -/
theorem read?_of_parse? {text : String} (hparse : Json.parse? text = some (s.encode a))
    (hfocus : s.focus (s.encode a) = s.encode a) (ha : Kept s.encode s.decode? a) :
    s.read? text = if (s.encode a).depth ≤ maxDepth then some a else none := by
  have hadmissible : (s.encode a).admissible = decide ((s.encode a).depth ≤ maxDepth) := by
    rw [Value.admissible, ha.exact.readable, Bool.true_and]
  rw [read?, hparse, Option.bind_some, ofValue?, hfocus, hadmissible, ha.decode_encode]
  simp only [decide_eq_true_eq]

/-- No value that is kept is read from a document unless its form does not nest too deep. -/
theorem depth_le_of_read? {text : String} (ha : Kept s.encode s.decode? a)
    (hread : s.read? text = some a) : (s.encode a).depth ≤ maxDepth := by
  obtain ⟨v, -, hread⟩ := Option.bind_eq_some_iff.mp hread
  unfold ofValue? at hread
  split at hread
  · -- What a schema does not look at may nest deeper, but nothing is read from there.
    rename_i hadmissible
    have hdepth : (s.focus v).depth ≤ maxDepth :=
      of_decide_eq_true (Bool.and_eq_true_iff.mp hadmissible).2
    exact Nat.le_trans (ha.depth_le _ hread) hdepth
  · contradiction

/-- A schema keeps its promises if every value is kept, and what is written is read in full. -/
theorem faithful_of_kept (hfocus : ∀ a, s.focus (s.encode a) = s.encode a)
    (h : ∀ a, Kept s.encode s.decode? a) : s.Faithful := by
  have hcompact (a : α) := read?_of_parse? (h a).exact.parse?_compact (hfocus a) (h a)
  have hpretty (a : α) := read?_of_parse? (h a).exact.parse?_pretty (hfocus a) (h a)
  have hback : ∀ a, (s.encode a).depth ≤ maxDepth →
      s.read? (s.compact a) = some a ∧ s.read? (s.pretty a) = some a := fun a ha =>
    ⟨(hcompact a).trans (if_pos ha), (hpretty a).trans (if_pos ha)⟩
  exact {
    reads_back := hback
    refuses := fun a ha =>
      ⟨(hcompact a).trans (if_neg (Nat.not_le_of_lt ha)),
        (hpretty a).trans (if_neg (Nat.not_le_of_lt ha))⟩
    shallow := fun _ a hread => depth_le_of_read? (h a) hread
    reads_again := fun _ a hread => hback a (depth_le_of_read? (h a) hread) }

end

/-- A record has no fields that are passed over. -/
theorem knownFields_record (keys : List Key) (values : List Value) :
    knownFields keys (record keys values) = record keys values := by
  have hkeep : ((keys.map Key.name).zip values).filter (fun f => keys.any (·.name = f.1)) =
      (keys.map Key.name).zip values := by
    rw [List.filter_eq_self]
    intro f hf
    obtain ⟨key, hkey, hname⟩ := List.mem_map.mp (List.of_mem_zip hf).1
    exact List.any_eq_true.mpr ⟨key, hkey, by simpa using hname⟩
  rw [record, knownFields, hkeep]

/-- Types, parameters, members, declarations and programs make the round trip through JSON: from their
texts if their forms nest no deeper than is read, and never otherwise. -/
theorem schemas_faithful :
    type.Faithful ∧ param.Faithful ∧ member.Faithful ∧ declaration.Faithful ∧ program.Faithful := by
  refine ⟨?_, ?_, ?_, ?_, ?_⟩
  · exact faithful_of_kept (fun _ => rfl) fun a => kept_type a false
  · exact faithful_of_kept (fun _ => knownFields_record _ _)
      fun p => kept_binding rfl (by decide) (kept_type p.type false)
  · exact faithful_of_kept (fun _ => knownFields_record _ _)
      fun m => kept_binding rfl (by decide) (kept_type m.type false)
  · exact faithful_of_kept (fun _ => rfl) kept_declaration
  · exact faithful_of_kept (fun _ => rfl) kept_program

/-- A type inside 63 lists is read from its texts. The type of a function that returns it nests a level more, and
is read from neither of its own. What is absent is written out. -/
theorem schemas_faithful_at_limit :
    let a := Nat.repeat (fun a => TypeExpr.generic "List" [a]) 63 (.named "int")
    let b := TypeExpr.function [] (some a)
    let d := Declaration.record .struct "A" none [⟨"x", .function [] none⟩]
    ((type.encode a).depth = 127 ∧
      type.read? (type.compact a) = some a ∧ type.read? (type.pretty a) = some a) ∧
    ((type.encode b).depth = 128 ∧
      type.read? (type.compact b) = none ∧ type.read? (type.pretty b) = none) ∧
    declaration.compact d =
      "\x7b\"kind\":\"struct\",\"name\":\"A\",\"parent\":null,\"members\":[\x7b\"name\":\"x\"," ++
        "\"member_type\":\x7b\"kind\":\"function\",\"params\":[],\"return_type\":null\x7d\x7d]\x7d" ∧
    declaration.read? (declaration.compact d) = some d := by
  intro a b d
  obtain ⟨htype, -, -, hdeclaration, -⟩ := schemas_faithful
  have ha : (type.encode a).depth = 127 := by decide +kernel
  have hb : (type.encode b).depth = 128 := by decide +kernel
  have hd : (declaration.encode d).depth ≤ maxDepth := by decide +kernel
  exact ⟨⟨ha, htype.reads_back a (Nat.le_of_eq ha)⟩, ⟨hb, htype.refuses b (Nat.le_of_eq hb.symm)⟩, by decide +kernel,
    (hdeclaration.reads_back d hd).1⟩

end Schema

end Idl
