import Idl.Proofs.Grammar.Nesting

/-!
# Walking over tokens

Reading a program walks over its tokens, one step for each, until the input is over or a token has no
place where it stands. `Progress` is how far it has come and `Progress.walk?` walks on. Each fact
about a walk is the fact about one of its steps, carried along: what has been read is what has been
spelled (`Progress.walk?_spelled`), it is within the limit (`Progress.walk?_fits`), no token of it
ends the input (`Progress.walk?_kind_ne_endOfInput`), and nothing but the symbols mattered
(`Progress.walk?_tokenOf`).

Every input is cut in two where its walk halts, and that decides the reading (`runProgram_cut`): it
succeeds if the input is over there and no declaration is under way, and fails otherwise.
-/

namespace Idl

namespace Grammar

/-! ## The end of the input is never read -/

namespace TypeStack

/-- No type begins with the end of the input. -/
theorem enter_endOfInput (limit : Option Nat) (frames : List Frame) {t : Token}
    (h : t.kind = .endOfInput) : enter limit frames t = .stuck := by
  unfold enter
  rw [h]
  simp

/-- The end of the input does not go on with what is around a type. -/
theorem leave_endOfInput {t : Token} (h : t.kind = .endOfInput) (frames : List Frame)
    (type : TypeExpr) (next : TypeStack) : leave frames type t ≠ .next next := by
  fun_induction leave frames type t with
  | case1 => simp
  | case8 params frames type t ih => exact ih h
  | _ => simp_all

/-- The end of the input goes on with no type. -/
theorem step_endOfInput (limit : Option Nat) (s : TypeStack) {t : Token}
    (h : t.kind = .endOfInput) (next : TypeStack) : s.step limit t ≠ .next next := by
  fun_cases step limit s t with
  | case1 => simp [enter_endOfInput limit s.frames h]
  | case5 n => simp [enter_endOfInput limit _ h]
  | case3 | case14 | case15 => exact leave_endOfInput h _ _ _
  | _ => simp_all

end TypeStack

namespace Place

/-- The end of the input has no place in a declaration. -/
theorem step?_endOfInput (limit : Option Nat) (place : Place) {t : Token}
    (h : t.kind = .endOfInput) : place.step? limit t = none := by
  fun_cases step? limit place t with
  | case13 => simp [openMembers?, h]
  | case14 form n stack next hnext => exact absurd hnext (TypeStack.step_endOfInput limit stack h next)
  | case15 => simp [openMembers?, h]
  | case20 head before n stack next hnext =>
    exact absurd hnext (TypeStack.step_endOfInput limit stack h next)
  | case21 => simp [endMember?, h]
  | _ => simp_all

end Place

/-! ## Only symbols matter -/

/-- A token with a given symbol. -/
def tokenOf (s : Symbol) : Token := ⟨s.kind, s.text, .start⟩

@[simp] theorem symbol_tokenOf_word (n : String) : (tokenOf (.word n)).symbol = .word n := rfl

@[simp] theorem symbol_tokenOf_mark (kind : TokenKind) :
    (tokenOf (.mark kind)).symbol = .mark kind := by
  cases kind <;> rfl

namespace TypeStack

/-- Beginning a type looks at the symbol of a token only. -/
theorem enter_tokenOf (limit : Option Nat) (frames : List Frame) (t : Token) :
    enter limit frames (tokenOf t.symbol) = enter limit frames t := by
  rcases t with ⟨kind, text, position⟩
  cases kind <;> rfl

/-- Ending a type looks at the symbol of a token only. -/
theorem leave_tokenOf (frames : List Frame) (type : TypeExpr) (t : Token) :
    leave frames type (tokenOf t.symbol) = leave frames type t := by
  rcases t with ⟨kind, text, position⟩
  induction frames generalizing type with
  | nil => rfl
  | cons frame frames ih =>
    cases frame with
    | argument n before => cases kind <;> rfl
    | param before n => cases kind <;> rfl
    | result params => exact ih (.function params (some type))

/-- A step of a type looks at the symbol of a token only. -/
theorem step_tokenOf (limit : Option Nat) (s : TypeStack) (t : Token) :
    s.step limit (tokenOf t.symbol) = s.step limit t := by
  have henter := fun frames => enter_tokenOf limit frames t
  have hleave := fun type => leave_tokenOf s.frames type t
  rcases t with ⟨kind, text, position⟩
  rcases s with ⟨frames, place⟩
  -- Each place compares the kind and keeps the text, or passes the token on.
  cases place <;> cases kind <;> first | rfl | exact henter _ | exact hleave _

end TypeStack

namespace Place

/-- A step of a declaration looks at the symbol of a token only. -/
theorem step?_tokenOf (limit : Option Nat) (place : Place) (t : Token) :
    place.step? limit (tokenOf t.symbol) = place.step? limit t := by
  have hstep := fun (stack : TypeStack) => stack.step_tokenOf limit t
  rcases t with ⟨kind, text, position⟩
  cases place with
  | parent form n stack =>
    rw [step?, step?, hstep]
    cases kind <;> rfl
  | memberType head before n stack =>
    rw [step?, step?, hstep]
    cases kind <;> rfl
  | _ => cases kind <;> rfl

end Place

/-! ## Walks -/

/-- How far the reading of a program has come. -/
structure Progress where
  /-- The declarations that have been read (last one first). -/
  done : List Declaration
  /-- The place in the one under way. -/
  place : Place

namespace Progress

/-- Before a program. -/
def start : Progress := ⟨[], .keyword⟩

/-- Goes on by a token, if that has its place. -/
def step? (limit : Option Nat) (s : Progress) (t : Token) : Option Progress :=
  match s.place.step? limit t with
  | none => none
  | some (.next place) => some ⟨s.done, place⟩
  | some (.ended d) => some ⟨d :: s.done, .keyword⟩

/-- Goes on by tokens, if all of them have their place. -/
def walk? (limit : Option Nat) (s : Progress) (ts : List Token) : Option Progress :=
  ts.foldlM (step? limit) s

/-- The symbols that have been read. -/
def spelled (s : Progress) : List Symbol :=
  s.done.reverse.flatMap Declaration.symbols ++ s.place.spelled

/-- Whether what has been read is within a limit, and plain. -/
def Fits (limit : Option Nat) (s : Progress) : Prop :=
  (∀ d ∈ s.done, d.isPlain ∧ d.Fits limit) ∧ s.place.Fits limit

/-- Nothing has been read before a program. -/
theorem start_spelled : start.spelled = [] := rfl

/-- What has been read before a program is within every limit. -/
theorem start_fits (limit : Option Nat) : start.Fits limit :=
  ⟨fun _ hd => by contradiction, trivial⟩

@[simp] theorem walk?_nil (limit : Option Nat) (s : Progress) : s.walk? limit [] = some s := rfl

/-- A walk begins with a step. -/
theorem walk?_cons (limit : Option Nat) (s : Progress) (t : Token) (ts : List Token) :
    s.walk? limit (t :: ts) = (s.step? limit t).bind (·.walk? limit ts) := rfl

/-- A walk over tokens laid end to end goes on where the first part of it leads. -/
theorem walk?_append (limit : Option Nat) (s : Progress) (ts us : List Token) :
    s.walk? limit (ts ++ us) = (s.walk? limit ts).bind (·.walk? limit us) :=
  List.foldlM_append

/-- A walk goes over every front part of its tokens. -/
theorem exists_walk?_take {limit : Option Nat} {s s' : Progress} {ts : List Token}
    (h : s.walk? limit ts = some s') (k : Nat) : ∃ s₁, s.walk? limit (ts.take k) = some s₁ := by
  rw [← List.take_append_drop k ts, walk?_append] at h
  obtain ⟨s₁, hwalk, -⟩ := Option.bind_eq_some_iff.mp h
  exact ⟨s₁, hwalk⟩

/-- What every step keeps is kept by a walk. -/
theorem walk?_induction {limit : Option Nat} {motive : Progress → List Token → Progress → Prop}
    (nil : ∀ s, motive s [] s)
    (cons : ∀ s t s' ts s'', s.step? limit t = some s' → motive s' ts s'' → motive s (t :: ts) s'')
    {s s' : Progress} {ts : List Token} (h : s.walk? limit ts = some s') : motive s ts s' := by
  induction ts generalizing s with
  | nil =>
    cases h
    exact nil _
  | cons t ts ih =>
    rw [walk?_cons] at h
    obtain ⟨s₁, hstep, hwalk⟩ := Option.bind_eq_some_iff.mp h
    exact cons s t s₁ ts s' hstep (ih hwalk)

/-- A token read is a symbol more. -/
theorem step?_spelled {limit : Option Nat} {s s' : Progress} {t : Token}
    (h : s.step? limit t = some s') : s'.spelled = s.spelled ++ [t.symbol] := by
  unfold step? at h
  split at h
  · contradiction
  · rename_i place hstep
    cases h
    have hspells : place.spelled = s.place.spelled ++ [t.symbol] := Place.step?_spells hstep
    rw [spelled, spelled, hspells, List.append_assoc]
  · rename_i d hstep
    cases h
    have hspells : d.symbols = s.place.spelled ++ [t.symbol] := Place.step?_spells hstep
    simp [spelled, hspells, Place.spelled]

/-- Tokens read are their symbols more. -/
theorem walk?_spelled {limit : Option Nat} {s s' : Progress} {ts : List Token}
    (h : s.walk? limit ts = some s') : s'.spelled = s.spelled ++ ts.map Token.symbol := by
  refine walk?_induction (motive := fun s ts s' => s'.spelled = s.spelled ++ ts.map Token.symbol)
    ?_ ?_ h
  · intro s
    rw [List.map_nil, List.append_nil]
  · intro s t s₁ ts s' hstep ih
    rw [ih, step?_spelled hstep, List.map_cons, List.append_assoc, List.singleton_append]

/-- A step stays within the limit. -/
theorem step?_fits {limit : Option Nat} {s s' : Progress} {t : Token} (hs : s.Fits limit)
    (h : s.step? limit t = some s') : s'.Fits limit := by
  obtain ⟨hdone, hplace⟩ := hs
  unfold step? at h
  split at h
  · contradiction
  · rename_i place hstep
    cases h
    exact ⟨hdone, Place.step?_fits hplace hstep⟩
  · rename_i d hstep
    cases h
    refine ⟨?_, trivial⟩
    intro e he
    rcases List.mem_cons.mp he with rfl | he
    · exact Place.step?_fits hplace hstep
    · exact hdone e he

/-- A walk stays within the limit. -/
theorem walk?_fits {limit : Option Nat} {s s' : Progress} {ts : List Token} (hs : s.Fits limit)
    (h : s.walk? limit ts = some s') : s'.Fits limit := by
  refine walk?_induction (motive := fun s _ s' => s.Fits limit → s'.Fits limit) ?_ ?_ h hs
  · intro s hs
    exact hs
  · intro s t s₁ ts s' hstep ih hs
    exact ih (step?_fits hs hstep)

/-- No step reads the end of the input. -/
theorem step?_endOfInput (limit : Option Nat) (s : Progress) {t : Token}
    (h : t.kind = .endOfInput) : s.step? limit t = none := by
  rw [step?, Place.step?_endOfInput limit s.place h]

/-- No walk reads the end of the input. -/
theorem walk?_kind_ne_endOfInput {limit : Option Nat} {s s' : Progress} {ts : List Token}
    (h : s.walk? limit ts = some s') : ∀ t ∈ ts, t.kind ≠ .endOfInput := by
  refine walk?_induction (motive := fun _ ts _ => ∀ t ∈ ts, t.kind ≠ .endOfInput) ?_ ?_ h
  · intro s t ht
    contradiction
  · intro s t s₁ ts s' hstep ih u hu
    rcases List.mem_cons.mp hu with rfl | hu
    · intro hkind
      rw [step?_endOfInput limit s hkind] at hstep
      contradiction
    · exact ih u hu

/-- A step looks at the symbol of a token only. -/
theorem step?_tokenOf (limit : Option Nat) (s : Progress) (t : Token) :
    s.step? limit (tokenOf t.symbol) = s.step? limit t := by
  rw [step?, step?, Place.step?_tokenOf]

/-- A walk looks at the symbols of tokens only. -/
theorem walk?_tokenOf (limit : Option Nat) (s : Progress) (ts : List Token) :
    s.walk? limit ((ts.map Token.symbol).map tokenOf) = s.walk? limit ts := by
  induction ts generalizing s with
  | nil => rfl
  | cons t ts ih =>
    rw [List.map_cons, List.map_cons, walk?_cons, walk?_cons, step?_tokenOf]
    exact Option.bind_congr fun s' _ => ih s'

/-- A walk that a limit lets through is the same under a looser one. -/
theorem walk?_looser {limit limit' : Option Nat} (hlim : Looser limit limit') {s s' : Progress}
    {ts : List Token} (h : s.walk? limit ts = some s') : s.walk? limit' ts = some s' := by
  refine walk?_induction (motive := fun s ts s' => s.walk? limit' ts = some s') ?_ ?_ h
  · intro s
    rfl
  · intro s t s₁ ts s' hstep ih
    have hsame : s.step? limit' t = some s₁ := by
      unfold step? at hstep ⊢
      split at hstep
      · contradiction
      · rename_i hplace
        rw [Place.step?_looser hlim hplace]
        exact hstep
      · rename_i hplace
        rw [Place.step?_looser hlim hplace]
        exact hstep
    rw [walk?_cons, hsame]
    exact ih

end Progress

/-! ## Where a walk halts -/

/-- Whether the input is over. -/
def AtEnd (rest : List Token) : Prop := ∀ t ∈ rest.head?, t.kind = .endOfInput

/-- Whether a walk goes no further. -/
def Place.Halts (limit : Option Nat) (place : Place) (rest : List Token) : Prop :=
  ∀ t ∈ rest.head?, place.step? limit t = none

/-- Every input is cut in two by the place where its walk halts. -/
theorem Progress.exists_halt (limit : Option Nat) (s : Progress) (ts : List Token) :
    ∃ read rest s', ts = read ++ rest ∧ s.walk? limit read = some s' ∧
      s'.place.Halts limit rest := by
  induction ts generalizing s with
  | nil => exact ⟨[], [], s, rfl, rfl, fun t ht => by contradiction⟩
  | cons t ts ih =>
    cases hstep : s.step? limit t with
    | none =>
      refine ⟨[], t :: ts, s, rfl, rfl, ?_⟩
      intro u hu
      cases hu
      unfold step? at hstep
      split at hstep
      · assumption
      · contradiction
      · contradiction
    | some s₁ =>
      obtain ⟨read, rest, s', rfl, hwalk, hhalt⟩ := ih s₁
      refine ⟨t :: read, rest, s', rfl, ?_, hhalt⟩
      rw [walk?_cons, hstep]
      exact hwalk

end Grammar

open Grammar

/-- Reading a program follows a step. -/
theorem runProgram_step {limit : Option Nat} (stop : Token) {s s' : Progress} {t : Token}
    (h : s.step? limit t = some s') (ts : List Token) :
    runProgram limit stop s.done s.place (t :: ts) = runProgram limit stop s'.done s'.place ts := by
  have hkind : t.kind ≠ .endOfInput := by
    intro hkind
    rw [Progress.step?_endOfInput limit s hkind] at h
    contradiction
  obtain ⟨done, place⟩ := s
  unfold Progress.step? at h
  rw [runProgram]
  · cases hstep : place.step? limit t with
    | none =>
      rw [hstep] at h
      contradiction
    | some step =>
      rw [hstep] at h
      cases step <;> (cases h; rfl)
  · exact fun _ => hkind

/-- Reading a program follows a walk. -/
theorem runProgram_walk {limit : Option Nat} (stop : Token) {s s' : Progress} {ts : List Token}
    (h : s.walk? limit ts = some s') (rest : List Token) :
    runProgram limit stop s.done s.place (ts ++ rest) =
      runProgram limit stop s'.done s'.place rest := by
  refine Progress.walk?_induction (motive := fun s ts s' =>
    runProgram limit stop s.done s.place (ts ++ rest) =
      runProgram limit stop s'.done s'.place rest) ?_ ?_ h
  · intro s
    rfl
  · intro s t s₁ ts s' hstep ih
    rw [List.cons_append, runProgram_step stop hstep, ih]

/-- Between two declarations the input may be over. -/
theorem runProgram_halt_ok (limit : Option Nat) (stop : Token) (done : List Declaration)
    {rest : List Token} (h : AtEnd rest) :
    runProgram limit stop done .keyword rest = (.ok done.reverse, rest) := by
  cases rest with
  | nil => rfl
  | cons t ts =>
    have hkind : t.kind = .endOfInput := h t rfl
    simp only [runProgram, hkind]

/-- Anywhere else a token without a place is at fault, or the end of the input is. -/
theorem runProgram_halt_error {limit : Option Nat} (stop : Token) (done : List Declaration)
    {place : Place} {rest : List Token} (h : place.Halts limit rest)
    (hend : place = .keyword → ¬ AtEnd rest) :
    runProgram limit stop done place rest =
      (.error ⟨rest.head?.getD stop, place.expected limit⟩, rest) := by
  cases rest with
  | nil =>
    rw [runProgram]
    · rfl
    · intro hplace
      exact hend hplace fun t ht => by contradiction
  | cons t ts =>
    rw [runProgram, h t rfl]
    · rfl
    · intro hplace hkind
      exact hend hplace fun u hu => by cases hu; exact hkind

/-- Where a walk halts, the reading of the program is decided: it succeeds if the rest is over and no
declaration is under way, and else fails at the front of the rest. -/
theorem runProgram_of_halts {limit : Option Nat} (stop : Token) {read rest : List Token} {s : Progress}
    (hwalk : Progress.start.walk? limit read = some s) (hhalt : s.place.Halts limit rest) :
    (s.place = .keyword ∧ AtEnd rest ∧
        runProgram limit stop [] .keyword (read ++ rest) = (.ok s.done.reverse, rest)) ∨
      ((s.place = .keyword → ¬ AtEnd rest) ∧
        runProgram limit stop [] .keyword (read ++ rest) =
          (.error ⟨rest.head?.getD stop, s.place.expected limit⟩, rest)) := by
  have hrun : runProgram limit stop [] .keyword (read ++ rest) =
      runProgram limit stop s.done s.place rest := runProgram_walk stop hwalk rest
  rw [hrun]
  -- Only between two declarations is it right that the input is over.
  by_cases hend : s.place = .keyword ∧ AtEnd rest
  · obtain ⟨hplace, hrest⟩ := hend
    left
    refine ⟨hplace, hrest, ?_⟩
    rw [hplace, runProgram_halt_ok limit stop s.done hrest]
  · right
    have hnot : s.place = .keyword → ¬ AtEnd rest := fun hplace hrest => hend ⟨hplace, hrest⟩
    exact ⟨hnot, runProgram_halt_error stop s.done hhalt hnot⟩

/-- Reading a program walks over the front part of the input, up to where the walk halts. -/
theorem runProgram_cut (limit : Option Nat) (stop : Token) (ts : List Token) :
    ∃ read rest s, ts = read ++ rest ∧ Progress.start.walk? limit read = some s ∧
      s.place.Halts limit rest ∧
      ((s.place = .keyword ∧ AtEnd rest ∧
          runProgram limit stop [] .keyword ts = (.ok s.done.reverse, rest)) ∨
        ((s.place = .keyword → ¬ AtEnd rest) ∧
          runProgram limit stop [] .keyword ts =
            (.error ⟨rest.head?.getD stop, s.place.expected limit⟩, rest))) := by
  obtain ⟨read, rest, s, rfl, hwalk, hhalt⟩ := Progress.start.exists_halt limit ts
  exact ⟨read, rest, s, rfl, hwalk, hhalt, runProgram_of_halts stop hwalk hhalt⟩

end Idl
