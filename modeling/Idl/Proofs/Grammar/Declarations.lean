import Idl.Proofs.Grammar.Walk

/-!
# A program as a sequence of declarations

A program is read in one pass over its tokens. The pass does what reading declarations one after the
other does while the input is not over (`Parser.Reads`): it succeeds if they go up to the end of the
input (`Parser.program_eq_ok_iff`), and fails as the first of them that fails
(`Parser.program_eq_error_iff`).
-/

namespace Idl

open Grammar

/-! ## One declaration -/

/-- No token leads back in front of a declaration. -/
theorem Grammar.Place.step?_ne_keyword (limit : Option Nat) (place : Place) (t : Token) :
    place.step? limit t ≠ some (.next .keyword) := by
  intro h
  have hspells : Place.keyword.spelled = place.spelled ++ [t.symbol] := Place.step?_spells h
  simp [Place.spelled] at hspells

/-- Reading a declaration walks over the front part of the input. It succeeds with the token that ends the
declaration, and fails in front of a token without a place. Only if nothing has been read is that the place
in front of a declaration. -/
theorem runDeclaration_cut (limit : Option Nat) (stop : Token) (place : Place) (ts : List Token) :
    ∃ read rest, ts = read ++ rest ∧
      ((∃ d, runDeclaration limit stop place ts = (.ok d, rest) ∧
          ∀ done, (Progress.mk done place).walk? limit read = some ⟨d :: done, .keyword⟩) ∨
        ∃ place', runDeclaration limit stop place ts =
            (.error ⟨rest.head?.getD stop, place'.expected limit⟩, rest) ∧
          (∀ done, (Progress.mk done place).walk? limit read = some ⟨done, place'⟩) ∧
          place'.Halts limit rest ∧ (place' = .keyword → read = [])) := by
  induction ts generalizing place with
  | nil =>
    refine ⟨[], [], rfl, .inr ⟨place, rfl, fun _ => rfl, ?_, fun _ => rfl⟩⟩
    intro t ht
    contradiction
  | cons t ts ih =>
    rw [runDeclaration]
    cases hstep : place.step? limit t with
    | none =>
      refine ⟨[], t :: ts, rfl, .inr ⟨place, rfl, fun _ => rfl, ?_, fun _ => rfl⟩⟩
      intro u hu
      cases hu
      exact hstep
    | some step =>
      cases step with
      | ended d =>
        refine ⟨[t], ts, rfl, .inl ⟨d, rfl, ?_⟩⟩
        intro done
        rw [Progress.walk?_cons, Progress.step?, hstep]
        rfl
      | next place₁ =>
        have hwalk : ∀ done read, (Progress.mk done place).walk? limit (t :: read) =
            (Progress.mk done place₁).walk? limit read := by
          intro done read
          rw [Progress.walk?_cons, Progress.step?, hstep]
          rfl
        obtain ⟨read, rest, rfl, hcut⟩ := ih place₁
        refine ⟨t :: read, rest, rfl, ?_⟩
        rcases hcut with ⟨d, hrun, hread⟩ | ⟨place', hrun, hread, hhalt, hempty⟩
        · exact .inl ⟨d, hrun, fun done => (hwalk done read).trans (hread done)⟩
        · refine .inr ⟨place', hrun, fun done => (hwalk done read).trans (hread done), hhalt, ?_⟩
          -- The token just read would have led back.
          rintro rfl
          rw [hempty rfl] at hread
          cases hread []
          exact absurd hstep (Place.step?_ne_keyword limit place t)

namespace Parser

variable {p q r : Parser} {ds : List Declaration} {d : Declaration} {e : ParseError}

/-- A declaration that is read is a walk from one place between declarations to the next. -/
theorem declaration_walk (h : p.declaration = (.ok d, q)) :
    ∃ read rest, p.rest = read ++ rest ∧ q = { p with rest } ∧ read ≠ [] ∧
      ∀ done, (Progress.mk done .keyword).walk? p.room read = some ⟨d :: done, .keyword⟩ := by
  obtain ⟨read, rest, hrest, ⟨d', hrun, hwalk⟩ | ⟨place, hrun, -⟩⟩ :=
    runDeclaration_cut p.room p.stop .keyword p.rest
  · rw [declaration, hrun] at h
    cases h
    refine ⟨read, rest, hrest, rfl, ?_, hwalk⟩
    rintro rfl
    cases hwalk []
  · rw [declaration, hrun] at h
    cases h

/-- Where no declaration can be read and the input is not over, no program can be read either, and the
fault is the same. -/
theorem program_of_declaration_error (hahead : ¬ AtEnd p.rest) (h : p.declaration = (.error e, r))
    (done : List Declaration) :
    r = { p with rest := r.rest } ∧
      runProgram p.room p.stop done .keyword p.rest = (.error e, r.rest) := by
  obtain ⟨read, rest, hrest, ⟨d, hrun, -⟩ | ⟨place, hrun, hwalk, hhalt, hempty⟩⟩ :=
    runDeclaration_cut p.room p.stop .keyword p.rest
  · rw [declaration, hrun] at h
    cases h
  · rw [declaration, hrun] at h
    cases h
    refine ⟨rfl, ?_⟩
    rw [hrest]
    refine (runProgram_walk p.stop (hwalk done) rest).trans (runProgram_halt_error p.stop done hhalt ?_)
    intro hplace
    rw [hrest, hempty hplace] at hahead
    exact hahead

/-! ## One declaration after the other -/

/-- Declarations that are read one after the other, the input not over before any of them. -/
inductive Reads : Parser → List Declaration → Parser → Prop
  /-- No declaration is read. -/
  | nil (p : Parser) : Reads p [] p
  /-- A declaration is read, and then others. -/
  | cons {p q r : Parser} {d : Declaration} {ds : List Declaration} (hahead : ¬ AtEnd p.rest)
    (hread : p.declaration = (.ok d, q)) (hrest : Reads q ds r) : Reads p (d :: ds) r

/-- Declarations that are read are a walk from one place between declarations to another. -/
theorem Reads.walk (h : p.Reads ds q) :
    ∃ read rest, p.rest = read ++ rest ∧ q = { p with rest } ∧
      ∀ done, (Progress.mk done .keyword).walk? p.room read = some ⟨ds.reverse ++ done, .keyword⟩ := by
  induction h with
  | nil p => exact ⟨[], p.rest, rfl, rfl, fun _ => rfl⟩
  | @cons p q r d ds hahead hread _ ih =>
    obtain ⟨read₁, rest₁, hrest₁, rfl, -, hwalk₁⟩ := declaration_walk hread
    obtain ⟨read₂, rest₂, hrest₂, rfl, hwalk₂⟩ := ih
    refine ⟨read₁ ++ read₂, rest₂, ?_, rfl, ?_⟩
    · rw [hrest₁, List.append_assoc]
      exact congrArg (read₁ ++ ·) hrest₂
    · intro done
      rw [Progress.walk?_append, hwalk₁ done, List.reverse_cons, List.append_assoc]
      exact hwalk₂ (d :: done)

/-- Declarations can be read until the input is over or one of them fails. -/
theorem exists_reads (p : Parser) : ∃ ds q, p.Reads ds q ∧
    (AtEnd q.rest ∨ ¬ AtEnd q.rest ∧ ∃ e r, q.declaration = (.error e, r)) := by
  -- Each declaration is a token at least.
  induction hn : p.rest.length using Nat.strongRecOn generalizing p with
  | ind n ih =>
    subst hn
    by_cases hend : AtEnd p.rest
    · exact ⟨[], p, .nil p, .inl hend⟩
    · rcases hread : p.declaration with ⟨answer, q⟩
      cases answer with
      | error e => exact ⟨[], p, .nil p, .inr ⟨hend, e, q, hread⟩⟩
      | ok d =>
        obtain ⟨read, rest, hrest, hq, hne, -⟩ := declaration_walk hread
        have hshorter : q.rest.length < p.rest.length := by
          have hpos := List.length_pos_iff.mpr hne
          rw [hrest, hq, List.length_append]
          exact Nat.lt_add_of_pos_left hpos
        obtain ⟨ds, r, hreads, hstop⟩ := ih _ hshorter q rfl
        exact ⟨d :: ds, r, .cons hend hread hreads, hstop⟩

/-- Declarations that go up to the end of the input are a program. -/
theorem Reads.program_of_end (h : p.Reads ds q) (hend : AtEnd q.rest) :
    p.program = (.ok (.ofList ds), q) := by
  obtain ⟨read, rest, hrest, rfl, hwalk⟩ := h.walk
  have hrun : runProgram p.room p.stop [] .keyword p.rest = (.ok ds, rest) := by
    rw [hrest, runProgram_walk p.stop (hwalk []), runProgram_halt_ok _ _ _ hend]
    simp
  rw [program, hrun]
  rfl

/-- Declarations in front of one that fails are no program. -/
theorem Reads.program_of_error (h : p.Reads ds q) (hahead : ¬ AtEnd q.rest)
    (hfail : q.declaration = (.error e, r)) : p.program = (.error e, r) := by
  obtain ⟨read, rest, hrest, rfl, hwalk⟩ := h.walk
  obtain ⟨hr, hrun⟩ := program_of_declaration_error hahead hfail (ds.reverse ++ [])
  have hprogram : runProgram p.room p.stop [] .keyword p.rest = (.error e, r.rest) := by
    rw [hrest, runProgram_walk p.stop (hwalk [])]
    exact hrun
  rw [program, hprogram, hr]
  rfl

/-- Reading a program succeeds if its declarations can be read one after the other up to the end of the
input. -/
theorem program_eq_ok_iff {program : Program} :
    p.program = (.ok program, q) ↔ p.Reads program.toList q ∧ AtEnd q.rest := by
  constructor
  · intro h
    obtain ⟨ds, r, hreads, hend | ⟨hahead, e, r', hfail⟩⟩ := p.exists_reads
    · rw [hreads.program_of_end hend] at h
      cases h
      exact ⟨hreads, hend⟩
    · rw [hreads.program_of_error hahead hfail] at h
      cases h
  · rintro ⟨hreads, hend⟩
    rw [hreads.program_of_end hend, Program.ofList_toList]

/-- Reading a program fails if its declarations can be read one after the other up to one that fails. -/
theorem program_eq_error_iff :
    p.program = (.error e, r) ↔
      ∃ ds q, p.Reads ds q ∧ ¬ AtEnd q.rest ∧ q.declaration = (.error e, r) := by
  constructor
  · intro h
    obtain ⟨ds, q, hreads, hend | ⟨hahead, e', r', hfail⟩⟩ := p.exists_reads
    · rw [hreads.program_of_end hend] at h
      cases h
    · rw [hreads.program_of_error hahead hfail] at h
      cases h
      exact ⟨ds, q, hreads, hahead, hfail⟩
  · rintro ⟨ds, q, hreads, hahead, hfail⟩
    exact hreads.program_of_error hahead hfail

end Parser

end Idl
