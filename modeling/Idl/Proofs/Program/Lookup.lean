import Idl.Proofs.Grammar.Declarations
import Idl.Proofs.Json.Documents
import Idl.Schema

/-!
# Looking names up

A program keeps its declarations and an index side by side, and each declaration pushed goes into both.
The index of a program without declarations is empty, and a push enters no name but a new one
(`Program.place?_push`). So the index has the first place of each name (`Program.place?_eq_findIdx?`), and
looking a name up searches the declarations from the front (`Program.get?_eq_find?`).

Programs come from pushes, from lists, from JSON texts and from tokens, and from other programs.
`Program.MadeOf` says which declarations went into a program that was made in any of these ways, and
`program_refines_list` that it answers as the list of them does.
-/

namespace Idl

open Grammar
open Json (Value mapM_eq_some_iff)

namespace Program

/-! ## Pushes -/

/-- Making a program of a list pushes its declarations one after the other. -/
theorem ofList_eq_foldl (ds : List Declaration) : ofList ds = ds.foldl push empty := by
  suffices h : ∀ p : Program, (ds.foldl push p).toList = p.toList ++ ds from ext (h empty).symm
  induction ds with
  | nil => simp
  | cons d ds ih =>
    intro p
    rw [List.foldl_cons, ih, toList_push, List.append_assoc, List.singleton_append]

/-- What holds of the program without declarations and is kept by pushes holds of every program. -/
theorem push_induction {motive : Program → Prop} (empty : motive empty)
    (push : ∀ p d, motive p → motive (p.push d)) (p : Program) : motive p := by
  rw [← ofList_toList p, ofList_eq_foldl]
  exact List.foldlRecOn p.toList Program.push empty fun p hp d _ => push p d hp

/-! ## Places -/

/-- The program without declarations has no places. -/
theorem place?_empty (name : String) : empty.place? name = none :=
  Std.HashMap.getElem?_empty

/-- A declaration pushed has the first place of its name unless there is one already. -/
theorem place?_push (p : Program) (d : Declaration) (name : String) :
    (p.push d).place? name = (p.place? name).or (if d.name = name then some p.size else none) := by
  rw [place?, push, Std.HashMap.getElem?_insertIfNew, place?]
  by_cases hname : d.name = name
  · subst hname
    by_cases hmem : d.name ∈ p.index
    · simp [hmem]
    · simp [hmem, size]
  · simp [hname]

/-- The index has the place of the first declaration of each name. -/
theorem place?_eq_findIdx? (p : Program) (name : String) :
    p.place? name = p.toList.findIdx? (·.name = name) := by
  induction p using push_induction with
  | empty => exact place?_empty name
  | push p d ih =>
    rw [place?_push, ih, toList_push, List.findIdx?_append, List.findIdx?_singleton]
    have hsize : p.size = p.toList.length := Array.length_toList.symm
    by_cases hname : d.name = name <;> simp [hname, hsize]

/-- Looking a name up finds the first declaration that bears it. -/
theorem get?_eq_find? (p : Program) (name : String) :
    p.get? name = p.toList.find? (·.name = name) := by
  have hdeclarations (i : Nat) : p.declarations[i]? = p.toList[i]? := Array.getElem?_toList.symm
  rw [get?, place?_eq_findIdx?, List.find?_eq_bind_findIdx?_getElem?]
  simp only [hdeclarations]

end Program

/-! ## Programs in JSON -/

namespace Schema

/-- In an array that is admissible, each item is. -/
theorem admissible_of_mem {items : List Value} (h : (Value.array items).admissible = true) {v : Value}
    (hv : v ∈ items) : v.admissible = true := by
  rw [Value.admissible, Bool.and_eq_true, decide_eq_true_eq] at h ⊢
  obtain ⟨hreadable, hdepth⟩ := h
  exact ⟨Value.listReadable_iff.mp hreadable v hv,
    Nat.le_trans (Value.depth_le_listDepth hv) (Nat.le_trans (Nat.le_succ _) hdepth)⟩

/-- A program is read from an array by reading each item by itself as a declaration. -/
theorem program_ofValue?_array {items : List Value} (h : (Value.array items).admissible = true) :
    program.ofValue? (.array items) = (items.mapM declaration.ofValue?).map .ofList := by
  have hitems : items.map declaration.ofValue? = items.map decodeDeclaration? :=
    List.map_congr_left fun v hv => if_pos (admissible_of_mem h hv)
  have hmapM : items.mapM declaration.ofValue? = items.mapM decodeDeclaration? := by
    ext ds
    rw [mapM_eq_some_iff, mapM_eq_some_iff, hitems]
  rw [hmapM]
  exact if_pos h

/-- A text is a program if it is an array whose items by themselves are its declarations. -/
theorem read?_program_eq_some_iff {text : String} {p : Program} :
    program.read? text = some p ↔ ∃ items, Json.parse? text = some (.array items) ∧
      (Value.array items).admissible = true ∧ items.mapM declaration.ofValue? = some p.toList := by
  constructor
  · intro h
    obtain ⟨v, hparse, hread⟩ := Option.bind_eq_some_iff.mp h
    obtain ⟨hadmissible, hdecode⟩ : v.admissible = true ∧ decodeProgram? v = some p := by
      unfold ofValue? at hread
      split at hread
      · exact ⟨‹_›, hread⟩
      · contradiction
    cases v with
    | array items =>
      rw [program_ofValue?_array hadmissible] at hread
      obtain ⟨ds, hds, rfl⟩ := Option.map_eq_some_iff.mp hread
      exact ⟨items, hparse, hadmissible, hds⟩
    | _ => contradiction
  · rintro ⟨items, hparse, hadmissible, hitems⟩
    rw [read?, hparse, Option.bind_some, program_ofValue?_array hadmissible, hitems, Option.map_some,
      Program.ofList_toList]

end Schema

namespace Program

/-! ## Where programs come from -/

/-- The declarations that a program is made of, in order, however it was made. A copy of a program is the
program itself. -/
inductive MadeOf : Program → List Declaration → Prop
  /-- Nothing has been put into a new program. -/
  | empty : MadeOf .empty []
  /-- A declaration is put behind the others. -/
  | push {p : Program} {ds : List Declaration} (h : MadeOf p ds) (d : Declaration) :
    MadeOf (p.push d) (ds ++ [d])
  /-- A list is made a program at once. -/
  | ofList (ds : List Declaration) : MadeOf (.ofList ds) ds
  /-- Declarations are put into a new program as they come. -/
  | collected (ds : List Declaration) : MadeOf (ds.foldl Program.push .empty) ds
  /-- The declarations of a program are taken out, put in another order, some of them left out or others
  added, and made a program again. -/
  | rebuilt {p : Program} {ds : List Declaration} (h : MadeOf p ds)
      (change : List Declaration → List Declaration) : MadeOf (.ofList (change p.toList)) (change ds)
  /-- A program is read from a JSON array, each of whose items by itself is read as a declaration. -/
  | read {text : String} {items : List Value} {p : Program} {ds : List Declaration}
      (hparse : Json.parse? text = some (.array items))
      (hitems : items.mapM Schema.declaration.ofValue? = some ds)
      (hread : Schema.program.read? text = some p) : MadeOf p ds
  /-- A program is read from tokens that are read as one declaration after the other up to the end of the
  input. -/
  | parsed {a b c : Parser} {p : Program} {ds : List Declaration} (hreads : a.Reads ds b)
      (hend : AtEnd b.rest) (hprogram : a.program = (.ok p, c)) : MadeOf p ds

/-- The declarations that went into a program are its declarations. -/
theorem MadeOf.toList_eq {p : Program} {ds : List Declaration} (h : p.MadeOf ds) : p.toList = ds := by
  induction h with
  | empty => rfl
  | push _ d ih => rw [toList_push, ih]
  | ofList ds => rfl
  | collected ds => rw [← ofList_eq_foldl, toList_ofList]
  | rebuilt _ change ih => rw [toList_ofList, ih]
  | read hparse hitems hread =>
    obtain ⟨items', hparse', -, hitems'⟩ := Schema.read?_program_eq_some_iff.mp hread
    cases hparse.symm.trans hparse'
    exact Option.some.inj (hitems'.symm.trans hitems)
  | parsed hreads hend hprogram =>
    cases hprogram.symm.trans (hreads.program_of_end hend)
    rfl

/-- What is read from a JSON text is made of the declarations that its items are read as. -/
theorem exists_madeOf_of_read? {text : String} {p : Program}
    (h : Schema.program.read? text = some p) :
    ∃ items ds, Json.parse? text = some (.array items) ∧
      items.mapM Schema.declaration.ofValue? = some ds ∧ p.MadeOf ds := by
  obtain ⟨items, hparse, -, hitems⟩ := Schema.read?_program_eq_some_iff.mp h
  exact ⟨items, p.toList, hparse, hitems, .read hparse hitems h⟩

/-- What is read from tokens is made of the declarations that are read from them one by one. -/
theorem exists_madeOf_of_program {a b : Parser} {p : Program} (h : a.program = (.ok p, b)) :
    ∃ ds, a.Reads ds b ∧ AtEnd b.rest ∧ p.MadeOf ds := by
  obtain ⟨hreads, hend⟩ := Parser.program_eq_ok_iff.mp h
  exact ⟨p.toList, hreads, hend, .parsed hreads hend h⟩

/-! ## Programs as lists -/

/-- Whether a program has the declarations of a list, and looking a name up in it is a search of the
list. -/
structure Refines (p : Program) (ds : List Declaration) : Prop where
  /-- The declarations are those of the list, in order and with duplicates. -/
  declarations : p.toList = ds
  /-- The index has the names that are declared. -/
  entry : ∀ name, name ∈ p.index ↔ ∃ d ∈ ds, d.name = name
  /-- Under a name it has the first place where that is declared. -/
  place : ∀ (name : String) i, p.index[name]? = some i ↔
    ∃ h : i < ds.length, ds[i].name = name ∧ ∀ j (hj : j < i), ds[j].name ≠ name
  /-- Every place in the index is that of a declaration. -/
  in_range : ∀ (name : String) i, p.index[name]? = some i → i < p.declarations.size
  /-- Looking a name up finds the first declaration that bears it. -/
  get : ∀ name, p.get? name = ds.find? (·.name = name)

/-- Looking a name up in a program is a search of its declarations. -/
theorem refines_toList (p : Program) : p.Refines p.toList where
  declarations := rfl
  entry name := by
    rw [Std.HashMap.mem_iff_isSome_getElem?, ← place?, place?_eq_findIdx?, List.findIdx?_isSome]
    simp
  place name i := by
    rw [← place?, place?_eq_findIdx?, List.findIdx?_eq_some_iff_getElem]
    simp
  in_range name i h := by
    rw [← place?, place?_eq_findIdx?, List.findIdx?_eq_some_iff_getElem] at h
    obtain ⟨hi, -⟩ := h
    exact hi
  get := p.get?_eq_find?

end Program

/-- A program that was made in any way has the declarations that went into it and is looked up in as
their list is searched, and whatever is read from JSON or from tokens was made of the declarations there.
Programs are compared by their declarations alone, which is enough for equal answers. -/
theorem program_refines_list :
    (∀ p ds, Program.MadeOf p ds → p.Refines ds) ∧
    (∀ text p, Schema.program.read? text = some p →
      ∃ items ds, Json.parse? text = some (.array items) ∧
        items.mapM Schema.declaration.ofValue? = some ds ∧ p.MadeOf ds) ∧
    (∀ (a b : Parser) p, a.program = (.ok p, b) →
      ∃ ds, a.Reads ds b ∧ AtEnd b.rest ∧ p.MadeOf ds) ∧
    ∀ p q : Program, ((p == q) = true ↔ p.toList = q.toList) ∧
      (p.toList = q.toList → ∀ name, p.get? name = q.get? name) := by
  refine ⟨?_, ?_, ?_, ?_⟩
  · intro p ds h
    rw [← h.toList_eq]
    exact p.refines_toList
  · intro text p h
    exact Program.exists_madeOf_of_read? h
  · intro a b p h
    exact Program.exists_madeOf_of_program h
  · intro p q
    constructor
    · rw [beq_iff_eq]
      exact ⟨fun h => h ▸ rfl, Program.ext⟩
    · intro h name
      rw [p.get?_eq_find?, q.get?_eq_find?, h]

/-- Of two declarations of one name the first is found, whether they are put into a program one by one, are
read from its JSON text or are read from tokens. -/
theorem program_refines_list_duplicate :
    let first := Declaration.record .struct "A" none []
    let second := Declaration.record .interface "A" none []
    let p := (Program.empty.push first).push second
    let text := Schema.program.compact p
    let a := Parser.ofTokens ((first.symbols ++ second.symbols).map tokenOf)
    p.MadeOf [first, second] ∧ p.Refines [first, second] ∧ p.get? "A" = some first ∧
      (Schema.program.read? text = some p ∧ ∃ items ds, Json.parse? text = some (.array items) ∧
        items.mapM Schema.declaration.ofValue? = some ds ∧ p.MadeOf ds) ∧
      (a.program = (.ok p, ⟨[], a.stop, 0⟩) ∧ ∃ ds, a.Reads ds ⟨[], a.stop, 0⟩ ∧
        AtEnd (Parser.mk [] a.stop 0).rest ∧ p.MadeOf ds) ∧
      (p.toList = (Program.ofList [first, second]).toList ∧
        ∀ name, p.get? name = (Program.ofList [first, second]).get? name) := by
  intro first second p text a
  obtain ⟨hrefines, hread, hparsed, hequal⟩ := program_refines_list
  have hmade : p.MadeOf [first, second] := .push (.push .empty first) second
  have htext : Schema.program.read? text = some p := by decide +kernel
  have hsame : p.toList = (Program.ofList [first, second]).toList := rfl
  have hprogram : a.program = (.ok p, ⟨[], a.stop, 0⟩) := by
    rw [Program.ext hsame]
    rfl
  refine ⟨hmade, hrefines p _ hmade, ?_, ⟨htext, hread text p htext⟩,
    ⟨hprogram, hparsed a _ p hprogram⟩, hsame, (hequal p _).2 hsame⟩
  exact (hrefines p _ hmade).get "A"

end Idl
