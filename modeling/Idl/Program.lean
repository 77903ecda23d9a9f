import Std.Data.HashMap
import Idl.Declaration

/-!
# Programs

A program is its declarations in order, duplicates included, with an index of the first declaration
of each name. The index is a function of the declarations (`Program.index_eq`), so two programs with
the same declarations are the same program, and looking a name up is a search for the first
declaration that bears it.
-/

namespace Idl

/-- The index of a list of declarations: under each name the place of the first that bears it. -/
def firstPlaces (declarations : Array Declaration) : Std.HashMap String Nat :=
  (declarations.foldl
    (fun (index, place) declaration => (index.insertIfNew declaration.name place, place + 1))
    ((∅ : Std.HashMap String Nat), 0)).1

/-- A sequence of declarations that can be searched by name. -/
structure Program where
  /-- The declarations in order. -/
  declarations : Array Declaration
  /-- Under each name declared, the place of its first declaration. -/
  index : Std.HashMap String Nat
  /-- The index is that of the declarations. -/
  index_eq : index = firstPlaces declarations

namespace Program

/-- The program of the declarations in a list. -/
def ofList (declarations : List Declaration) : Program :=
  ⟨declarations.toArray, firstPlaces declarations.toArray, rfl⟩

/-- The declarations of a program as a list. -/
def toList (p : Program) : List Declaration := p.declarations.toList

/-- The program without declarations. -/
def empty : Program := ofList []

instance : Inhabited Program := ⟨empty⟩

/-- The number of declarations. -/
def size (p : Program) : Nat := p.declarations.size

/-- Whether there is no declaration. -/
def isEmpty (p : Program) : Bool := p.declarations.isEmpty

/-- The place counter of an index under construction is the number of declarations entered. -/
theorem place_foldl (declarations : Array Declaration) :
    (declarations.foldl
      (fun (index, place) declaration => (index.insertIfNew declaration.name place, place + 1))
      ((∅ : Std.HashMap String Nat), 0)).2 = declarations.size := by
  rcases declarations with ⟨ds⟩
  suffices h : ∀ (s : Std.HashMap String Nat × Nat), (ds.foldl
      (fun (index, place) declaration => (index.insertIfNew declaration.name place, place + 1))
      s).2 = s.2 + ds.length by simpa using h (∅, 0)
  induction ds with
  | nil => simp
  | cons d ds ih =>
    intro s
    simp only [List.foldl_cons, ih, List.length_cons]
    omega

/-- A declaration at the end enters the index if its name is new. -/
theorem firstPlaces_push (declarations : Array Declaration) (d : Declaration) :
    firstPlaces (declarations.push d) =
      (firstPlaces declarations).insertIfNew d.name declarations.size := by
  rw [firstPlaces, Array.foldl_push]
  simp only [place_foldl]
  rfl

/-- Appends a declaration. -/
def push (p : Program) (d : Declaration) : Program where
  declarations := p.declarations.push d
  index := p.index.insertIfNew d.name p.declarations.size
  index_eq := by rw [firstPlaces_push, p.index_eq]

/-- The place of the first declaration of a name. -/
def place? (p : Program) (name : String) : Option Nat := p.index[name]?

/-- The first declaration of a name. -/
def get? (p : Program) (name : String) : Option Declaration :=
  (p.place? name).bind (p.declarations[·]?)

/-- Programs with the same declarations are the same. -/
@[ext] theorem ext {p q : Program} (h : p.toList = q.toList) : p = q := by
  rcases p with ⟨⟨ds⟩, _, rfl⟩
  rcases q with ⟨⟨es⟩, _, rfl⟩
  cases (show ds = es from h)
  rfl

instance : DecidableEq Program := fun p q =>
  decidable_of_iff (p.toList = q.toList) ⟨ext, fun h => h ▸ rfl⟩

@[simp] theorem toList_ofList (ds : List Declaration) : (ofList ds).toList = ds := rfl

@[simp] theorem ofList_toList (p : Program) : ofList p.toList = p := ext rfl

@[simp] theorem toList_push (p : Program) (d : Declaration) :
    (p.push d).toList = p.toList ++ [d] := by
  simp [toList, push]

/-- The symbols that spell a program. -/
def symbols (p : Program) : List Symbol := p.toList.flatMap Declaration.symbols

end Program

end Idl
