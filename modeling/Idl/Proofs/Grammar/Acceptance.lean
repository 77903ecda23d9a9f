import Idl.Proofs.Grammar.Walk

/-!
# What is accepted

A walk over the symbols of a type comes out behind that type (`TypeStack.reads?_symbols`), a walk
over those of a declaration or of several behind these (`Progress.walk?_declaration`,
`Progress.walk?_declarations`), provided they fit the limit and enumerations stand on bare names. With
what a walk is known to keep, this says which tokens make a program, and which program they make: the
one that they spell (`spelled_of_parseWithin`, `parseWithin_of_spelled`, and `parse_eq_ok_iff` for the
limit in use). No program without a bare name under each enumeration, and none that nests too deep, is
ever read; and no tokens spell two programs (`Program.symbols_injective`).
-/

namespace Idl

namespace TypeExpr

/-- A type begins with a name or an opening parenthesis. -/
theorem symbols_eq_cons (a : TypeExpr) :
    ∃ s ss, a.symbols = s :: ss ∧ s.kind ≠ .rightParen := by
  cases a with
  | named n => exact ⟨.word n, [], rfl, by simp [Symbol.word]⟩
  | generic n as => exact ⟨.word n, _, rfl, by simp [Symbol.word]⟩
  | function ps r =>
    cases r with
    | none => exact ⟨.mark .leftParen, _, rfl, by simp [Symbol.mark]⟩
    | some r => exact ⟨.mark .leftParen, _, rfl, by simp [Symbol.mark]⟩

/-- A list of types begins as its first type does. -/
theorem listSymbols_eq_cons (a : TypeExpr) (as : List TypeExpr) :
    ∃ s ss, listSymbols (a :: as) = s :: ss ∧ s.kind ≠ .rightParen := by
  obtain ⟨s, ss, ha, hs⟩ := a.symbols_eq_cons
  cases as with
  | nil => exact ⟨s, ss, ha, hs⟩
  | cons b bs => exact ⟨s, ss ++ .mark .comma :: listSymbols (b :: bs), by simp [listSymbols, ha], hs⟩

end TypeExpr

namespace Grammar

open TypeExpr Declaration

namespace TypeStack

/-! ## Types -/

/-- Goes on by a symbol, if the type does. -/
def read? (limit : Option Nat) (s : TypeStack) (symbol : Symbol) : Option TypeStack :=
  match s.step limit (tokenOf symbol) with
  | .next stack => some stack
  | _ => none

/-- Goes on by symbols, if the type does. -/
def reads? (limit : Option Nat) (s : TypeStack) (symbols : List Symbol) : Option TypeStack :=
  symbols.foldlM (read? limit) s

@[simp] theorem reads?_nil (limit : Option Nat) (s : TypeStack) : s.reads? limit [] = some s := rfl

/-- The first of some symbols is read first. -/
theorem reads?_cons (limit : Option Nat) (s : TypeStack) (symbol : Symbol) (symbols : List Symbol) :
    s.reads? limit (symbol :: symbols) = (s.read? limit symbol).bind (·.reads? limit symbols) := rfl

/-- Symbols laid end to end are read one part after the other. -/
theorem reads?_append (limit : Option Nat) (s : TypeStack) (ss ts : List Symbol) :
    s.reads? limit (ss ++ ts) = (s.reads? limit ss).bind (·.reads? limit ts) :=
  List.foldlM_append

/-- Just behind a type inside some frames. -/
def behind : TypeExpr → List Frame → TypeStack
  | named n, frames => ⟨frames, .name n⟩
  | generic n as, frames => ⟨frames, .ended (.generic n as)⟩
  | function ps none, frames => ⟨frames, .afterParams ps⟩
  | function ps (some r), frames => behind r (.result ps :: frames)

/-- Behind a type, a token that does not go on with it is left to the frames around it. -/
theorem step_behind (limit : Option Nat) (a : TypeExpr) (frames : List Frame) {t : Token}
    (hparen : t.kind ≠ .leftParen) (harrow : t.kind ≠ .arrow) :
    (behind a frames).step limit t = leave frames a t := by
  fun_induction behind a frames with
  | case1 n frames => exact step_name_leave limit frames n hparen
  | case2 n as frames => rfl
  | case3 ps frames => exact step_afterParams_leave limit frames ps harrow
  | case4 ps r frames ih =>
    rw [ih]
    rfl

/-- Where there is room, a name begins a type. -/
theorem read?_start_word {limit : Option Nat} {frames : List Frame}
    (h : Within limit (frames.length + 1)) (n : String) :
    read? limit ⟨frames, .start⟩ (.word n) = some ⟨frames, .name n⟩ := by
  have hroom := limitReached_eq_false_iff.mpr h
  simp [read?, step_start, enter, hroom, tokenOf, Symbol.word]

/-- Where there is room, a parenthesis begins a type. -/
theorem read?_start_leftParen {limit : Option Nat} {frames : List Frame}
    (h : Within limit (frames.length + 1)) :
    read? limit ⟨frames, .start⟩ (.mark .leftParen) = some ⟨frames, .firstParam⟩ := by
  have hroom := limitReached_eq_false_iff.mpr h
  simp [read?, step_start, enter, hroom, tokenOf, Symbol.mark]

/-- Behind an argument, a comma leads to the next one. -/
theorem read?_behind_argument_comma (limit : Option Nat) (a : TypeExpr) (n : String)
    (before : List TypeExpr) (frames : List Frame) :
    read? limit (behind a (.argument n before :: frames)) (.mark .comma) =
      some ⟨.argument n (a :: before) :: frames, .start⟩ := by
  rw [read?, step_behind _ _ _ (by decide) (by decide)]
  rfl

/-- Behind the last argument, a parenthesis ends the type. -/
theorem read?_behind_argument_rightParen (limit : Option Nat) (a : TypeExpr) (n : String)
    (before : List TypeExpr) (frames : List Frame) :
    read? limit (behind a (.argument n before :: frames)) (.mark .rightParen) =
      some ⟨frames, .ended (.generic n (before.reverse ++ [a]))⟩ := by
  rw [read?, step_behind _ _ _ (by decide) (by decide), ← List.reverse_cons]
  rfl

/-- Behind the type of a parameter, a comma leads to the next parameter. -/
theorem read?_behind_param_comma (limit : Option Nat) (a : TypeExpr) (n : String)
    (before : List Param) (frames : List Frame) :
    read? limit (behind a (.param before n :: frames)) (.mark .comma) =
      some ⟨frames, .nextParam (⟨n, a⟩ :: before)⟩ := by
  rw [read?, step_behind _ _ _ (by decide) (by decide)]
  rfl

/-- Behind the type of the last parameter, a parenthesis ends the parameters. -/
theorem read?_behind_param_rightParen (limit : Option Nat) (a : TypeExpr) (n : String)
    (before : List Param) (frames : List Frame) :
    read? limit (behind a (.param before n :: frames)) (.mark .rightParen) =
      some ⟨frames, .afterParams (before.reverse ++ [⟨n, a⟩])⟩ := by
  rw [read?, step_behind _ _ _ (by decide) (by decide), ← List.reverse_cons]
  rfl

/-- Whether the symbols of a type lead from before the type to behind it wherever there is room for
it. -/
def ReadsThrough (limit : Option Nat) (a : TypeExpr) : Prop :=
  ∀ frames : List Frame, Within limit (frames.length + a.depth) →
    reads? limit ⟨frames, .start⟩ a.symbols = some (behind a frames)

/-- The symbols of arguments lead through them to the end of the type. -/
theorem reads?_listSymbols {limit : Option Nat} (frames : List Frame) (n : String)
    {as : List TypeExpr} (hne : as ≠ []) (before : List TypeExpr)
    (hreads : ∀ a ∈ as, ReadsThrough limit a)
    (hroom : Within limit (frames.length + 1 + listDepth as)) :
    reads? limit ⟨.argument n before :: frames, .start⟩ (listSymbols as ++ [.mark .rightParen]) =
      some ⟨frames, .ended (.generic n (before.reverse ++ as))⟩ := by
  induction as generalizing before with
  | nil => contradiction
  | cons a as ih =>
    have ha := hreads a List.mem_cons_self (.argument n before :: frames) (hroom.mono (by
      simp only [listDepth, List.length_cons]
      omega))
    cases as with
    | nil =>
      rw [listSymbols, reads?_append, ha, Option.bind_some, reads?_cons,
        read?_behind_argument_rightParen]
      rfl
    | cons b as =>
      have hrest := ih (by simp) (a :: before) (fun c hc => hreads c (List.mem_cons_of_mem a hc))
        (hroom.mono (by
          simp only [listDepth]
          omega))
      rw [listSymbols, List.append_assoc, reads?_append, ha, Option.bind_some, List.cons_append,
        reads?_cons, read?_behind_argument_comma, Option.bind_some, hrest, List.reverse_cons,
        List.append_assoc]
      rfl

/-- The symbols of parameters lead through them to the place behind their parenthesis. -/
theorem reads?_paramsSymbols {limit : Option Nat} {frames : List Frame} {ps : List Param}
    (hne : ps ≠ []) (before : List Param) (hreads : ∀ p ∈ ps, ReadsThrough limit p.type)
    (hroom : Within limit (frames.length + 1 + paramsDepth ps)) :
    reads? limit ⟨frames, .nextParam before⟩ (paramsSymbols ps ++ [.mark .rightParen]) =
      some ⟨frames, .afterParams (before.reverse ++ ps)⟩ := by
  induction ps generalizing before with
  | nil => contradiction
  | cons p ps ih =>
    obtain ⟨n, a⟩ := p
    have ha := hreads ⟨n, a⟩ List.mem_cons_self (.param before n :: frames) (hroom.mono (by
      simp only [paramsDepth, List.length_cons]
      omega))
    have hname : ∀ ss : List Symbol,
        reads? limit ⟨frames, .nextParam before⟩ (.word n :: .mark .colon :: ss) =
          reads? limit ⟨.param before n :: frames, .start⟩ ss := fun _ => rfl
    cases ps with
    | nil =>
      rw [paramsSymbols, List.cons_append, List.cons_append, hname, reads?_append, ha,
        Option.bind_some, reads?_cons, read?_behind_param_rightParen]
      rfl
    | cons q ps =>
      have hrest := ih (by simp) (⟨n, a⟩ :: before)
        (fun q hq => hreads q (List.mem_cons_of_mem _ hq)) (hroom.mono (by
          simp only [paramsDepth]
          omega))
      rw [paramsSymbols, List.cons_append, List.cons_append, hname, List.append_assoc,
        reads?_append, ha, Option.bind_some, List.cons_append, reads?_cons,
        read?_behind_param_comma, Option.bind_some, hrest, List.reverse_cons, List.append_assoc]
      rfl

/-- The symbols of a function up to its closing parenthesis lead through its parameters. -/
theorem reads?_params {limit : Option Nat} (frames : List Frame) {ps : List Param}
    (hreads : ∀ p ∈ ps, ReadsThrough limit p.type)
    (hroom : Within limit (frames.length + 1 + paramsDepth ps)) :
    reads? limit ⟨frames, .start⟩
        (.mark .leftParen :: (paramsSymbols ps ++ [.mark .rightParen])) =
      some ⟨frames, .afterParams ps⟩ := by
  rw [reads?_cons, read?_start_leftParen (hroom.mono (Nat.le_add_right _ _)), Option.bind_some]
  cases ps with
  | nil => rfl
  | cons p ps =>
    -- Before the first parameter and behind a comma a name is read alike.
    have hfirst := reads?_paramsSymbols (by simp) [] hreads hroom
    cases ps with
    | nil => exact hfirst
    | cons q ps => exact hfirst

/-- The symbols of a type lead from before the type to behind it. -/
theorem reads?_symbols (limit : Option Nat) (a : TypeExpr) : ReadsThrough limit a := by
  induction a with
  | named n =>
    intro frames hroom
    rw [TypeExpr.symbols, reads?_cons, read?_start_word hroom]
    rfl
  | generic n as ih =>
    intro frames hroom
    have hone : Within limit (frames.length + 1) := hroom.mono (by
      simp only [depth]
      omega)
    rw [TypeExpr.symbols, reads?_cons, read?_start_word hone]
    cases as with
    | nil => rfl
    | cons a as =>
      obtain ⟨s, ss, hs, hkind⟩ := listSymbols_eq_cons a as
      have hargs := reads?_listSymbols frames n (by simp) [] ih (hroom.mono (by
        simp only [depth]
        omega))
      -- The first argument begins behind the parenthesis as the others do behind a comma.
      have hfirst : read? limit ⟨frames, .firstArgument n⟩ s =
          read? limit ⟨.argument n [] :: frames, .start⟩ s := by
        rw [read?, read?, step_firstArgument_enter limit frames n hkind, step_start]
      rw [Option.bind_some, reads?_cons]
      show reads? limit ⟨frames, .firstArgument n⟩ _ = _
      rw [hs, List.cons_append, reads?_cons, hfirst, ← reads?_cons, ← List.cons_append, ← hs, hargs]
      rfl
  | function ps r ihps ihr =>
    intro frames hroom
    cases r with
    | none =>
      have hps := reads?_params frames ihps (hroom.mono (by
        simp only [depth]
        omega))
      rw [TypeExpr.symbols, hps]
      rfl
    | some r =>
      have hps := reads?_params frames ihps (hroom.mono (by
        simp only [depth]
        omega))
      -- The result is read inside a frame of its own, a level further in.
      have hr := ihr r rfl (.result ps :: frames) (hroom.mono (by
        simp only [depth, List.length_cons]
        omega))
      have hsplit : (function ps (some r)).symbols =
          (.mark .leftParen :: (paramsSymbols ps ++ [.mark .rightParen])) ++
            .mark .arrow :: r.symbols := by
        simp [TypeExpr.symbols]
      rw [hsplit, reads?_append, hps, Option.bind_some, reads?_cons]
      exact hr

end TypeStack

/-! ## Declarations -/

namespace Progress

variable {limit : Option Nat}

/-- A step to a further place of the same declaration. -/
theorem step?_next {s : Progress} {t : Token} {place : Place}
    (h : s.place.step? limit t = some (.next place)) : s.step? limit t = some ⟨s.done, place⟩ := by
  rw [step?, h]

/-- A walk through a type is a walk through the declaration that the type is part of. -/
theorem walk?_of_reads? (around : TypeStack → Place)
    (haround : ∀ {stack t next}, stack.step limit t = .next next →
      (around stack).step? limit t = some (.next (around next)))
    (done : List Declaration) {stack stack' : TypeStack} {ss : List Symbol}
    (h : stack.reads? limit ss = some stack') :
    walk? limit ⟨done, around stack⟩ (ss.map tokenOf) = some ⟨done, around stack'⟩ := by
  induction ss generalizing stack with
  | nil =>
    cases h
    rfl
  | cons s ss ih =>
    rw [TypeStack.reads?_cons] at h
    obtain ⟨next, hread, hreads⟩ := Option.bind_eq_some_iff.mp h
    have hstep : stack.step limit (tokenOf s) = .next next := by
      unfold TypeStack.read? at hread
      split at hread
      · cases hread
        assumption
      · contradiction
    rw [List.map_cons, walk?_cons, step?_next (haround hstep)]
    exact ih hreads

/-- The symbols of a type lead through it in the declaration that it is part of. -/
theorem walk?_type (around : TypeStack → Place)
    (haround : ∀ {stack t next}, stack.step limit t = .next next →
      (around stack).step? limit t = some (.next (around next)))
    (done : List Declaration) {a : TypeExpr} (ha : Within limit a.depth) :
    walk? limit ⟨done, around .start⟩ (a.symbols.map tokenOf) =
      some ⟨done, around (TypeStack.behind a [])⟩ := by
  have hreads := TypeStack.reads?_symbols limit a [] (by simpa using ha)
  exact walk?_of_reads? around haround done hreads

/-- The symbols of a parent lead through it. -/
theorem walk?_parentType (done : List Declaration) (form : RecordForm) (n : String) {a : TypeExpr}
    (ha : Within limit a.depth) :
    walk? limit ⟨done, .parent form n .start⟩ (a.symbols.map tokenOf) =
      some ⟨done, .parent form n (TypeStack.behind a [])⟩ := by
  apply walk?_type (Place.parent form n) _ done ha
  intro stack t next hstep
  simp only [Place.step?, hstep]

/-- The symbols of a member's type lead through it. -/
theorem walk?_memberType (done : List Declaration) (head : RecordHead) (before : List Member)
    (n : String) {a : TypeExpr} (ha : Within limit a.depth) :
    walk? limit ⟨done, .memberType head before n .start⟩ (a.symbols.map tokenOf) =
      some ⟨done, .memberType head before n (TypeStack.behind a [])⟩ := by
  apply walk?_type (Place.memberType head before n) _ done ha
  intro stack t next hstep
  simp only [Place.step?, hstep]

/-- The symbols of a member lead to the place behind it. -/
theorem walk?_member (done : List Declaration) (head : RecordHead) (before : List Member)
    {m : Member} (hm : Within limit m.type.depth) :
    walk? limit ⟨done, .member head before⟩ ((memberSymbols m).map tokenOf) =
      some ⟨done, .member head (m :: before)⟩ := by
  obtain ⟨n, a⟩ := m
  have htype := walk?_memberType done head before n hm
  have hend : step? limit ⟨done, .memberType head before n (TypeStack.behind a [])⟩
      (tokenOf (.mark .semicolon)) = some ⟨done, .member head (⟨n, a⟩ :: before)⟩ := by
    apply step?_next
    simp only [Place.step?, TypeStack.step_behind limit a [] (t := tokenOf (.mark .semicolon))
      (by decide) (by decide)]
    rfl
  -- The name and the colon lead to the front of the type.
  show walk? limit ⟨done, .memberType head before n .start⟩
    ((a.symbols ++ [Symbol.mark .semicolon]).map tokenOf) = _
  rw [List.map_append, walk?_append, htype, Option.bind_some, List.map_cons, walk?_cons, hend]
  rfl

/-- The symbols of members lead to the end of the record. -/
theorem walk?_members (done : List Declaration) (head : RecordHead) (before : List Member)
    {members : List Member} (hmembers : ∀ m ∈ members, Within limit m.type.depth) :
    walk? limit ⟨done, .member head before⟩
        ((members.flatMap memberSymbols ++ [Symbol.mark .rightBrace]).map tokenOf) =
      some ⟨.record head.form head.name head.parent (before.reverse ++ members) :: done,
        .keyword⟩ := by
  induction members generalizing before with
  | nil =>
    rw [List.append_nil]
    rfl
  | cons m ms ih =>
    have hm := walk?_member done head before (hmembers m List.mem_cons_self)
    -- The member read is now the last of those before the next one.
    have hrest := ih (m :: before) fun m' hm' => hmembers m' (List.mem_cons_of_mem m hm')
    rw [List.flatMap_cons, List.append_assoc, List.map_append, walk?_append, hm, Option.bind_some,
      hrest, List.reverse_cons, List.append_assoc]
    rfl

/-- The symbols of enumerators behind a comma lead to the end of the enumeration. -/
theorem walk?_enumerators (limit : Option Nat) (done : List Declaration) (n u : String)
    (before ns : List String) (hne : ns ≠ []) :
    walk? limit ⟨done, .nextEnumerator n u before⟩
        ((enumeratorSymbols ns ++ [Symbol.mark .rightBrace]).map tokenOf) =
      some ⟨.enum n (.named u) (before.reverse ++ ns) :: done, .keyword⟩ := by
  induction ns generalizing before with
  | nil => contradiction
  | cons m ns ih =>
    cases ns with
    | nil =>
      rw [← List.reverse_cons]
      rfl
    | cons l ns =>
      have hrest := ih (m :: before) (by simp)
      rw [List.reverse_cons, List.append_assoc] at hrest
      exact hrest

/-- The symbols of an enumeration lead to its end. -/
theorem walk?_enum (limit : Option Nat) (done : List Declaration) (n u : String)
    (ns : List String) :
    walk? limit ⟨done, .keyword⟩ ((Declaration.enum n (.named u) ns).symbols.map tokenOf) =
      some ⟨.enum n (.named u) ns :: done, .keyword⟩ := by
  -- Up to the opening brace every token but the names is fixed.
  show walk? limit ⟨done, .firstEnumerator n u⟩
    ((enumeratorSymbols ns ++ [Symbol.mark .rightBrace]).map tokenOf) = _
  cases ns with
  | nil => rfl
  | cons m ns =>
    -- Behind the brace and behind a comma an enumerator is read alike.
    have hfirst := walk?_enumerators limit done n u [] (m :: ns) (by simp)
    cases ns with
    | nil => exact hfirst
    | cons l ns => exact hfirst

/-- The keyword of a record and its name lead to the place behind the name. -/
theorem walk?_recordName (limit : Option Nat) (done : List Declaration) (form : RecordForm)
    (n : String) (ss : List Symbol) :
    walk? limit ⟨done, .keyword⟩ ((.word form.keyword :: .word n :: ss).map tokenOf) =
      walk? limit ⟨done, .recordColon form n⟩ (ss.map tokenOf) := by
  cases form <;> rfl

/-- The symbols of a record up to its opening brace lead in front of its members. -/
theorem walk?_recordHead (done : List Declaration) (head : RecordHead)
    (hparent : ∀ a ∈ head.parent, Within limit a.depth) :
    walk? limit ⟨done, .keyword⟩ (head.symbols.map tokenOf) = some ⟨done, .member head []⟩ := by
  obtain ⟨form, n, parent⟩ := head
  rw [RecordHead.symbols, walk?_recordName]
  cases parent with
  | none => rfl
  | some a =>
    have ha := walk?_parentType done form n (hparent a rfl)
    have hopen : step? limit ⟨done, .parent form n (TypeStack.behind a [])⟩
        (tokenOf (.mark .leftBrace)) = some ⟨done, .member ⟨form, n, some a⟩ []⟩ := by
      apply step?_next
      simp only [Place.step?, TypeStack.step_behind limit a [] (t := tokenOf (.mark .leftBrace))
        (by decide) (by decide)]
      rfl
    rw [parentSymbols, List.cons_append, List.map_cons, walk?_cons]
    show walk? limit ⟨done, .parent form n .start⟩ _ = _
    rw [List.map_append, walk?_append, ha, Option.bind_some, List.map_singleton, walk?_cons, hopen]
    rfl

/-- The symbols of a record lead to its end. -/
theorem walk?_record (done : List Declaration) {form : RecordForm} {n : String}
    {parent : Option TypeExpr} {members : List Member}
    (hfits : (Declaration.record form n parent members).Fits limit) :
    walk? limit ⟨done, .keyword⟩ ((Declaration.record form n parent members).symbols.map tokenOf) =
      some ⟨.record form n parent members :: done, .keyword⟩ := by
  have hmembers : ∀ m ∈ members, Within limit m.type.depth := fun m hm =>
    hfits m.type (List.mem_append_right _ (List.mem_map_of_mem hm))
  have hparent : ∀ a ∈ parent, Within limit a.depth := fun a ha =>
    hfits a (List.mem_append_left _ (Option.mem_toList.mpr ha))
  have hhead := walk?_recordHead done ⟨form, n, parent⟩ hparent
  have hbody := walk?_members done ⟨form, n, parent⟩ [] hmembers
  have hsplit : (Declaration.record form n parent members).symbols =
      RecordHead.symbols ⟨form, n, parent⟩ ++ (members.flatMap memberSymbols ++ [.mark .rightBrace]) := by
    simp [Declaration.symbols, RecordHead.symbols]
  rw [hsplit, List.map_append, walk?_append, hhead, Option.bind_some]
  exact hbody

/-- The symbols of a declaration lead to its end. -/
theorem walk?_declaration (done : List Declaration) {d : Declaration} (hplain : d.isPlain)
    (hfits : d.Fits limit) :
    walk? limit ⟨done, .keyword⟩ (d.symbols.map tokenOf) = some ⟨d :: done, .keyword⟩ := by
  cases d with
  | enum n u ns =>
    cases u with
    | named u => exact walk?_enum limit done n u ns
    | generic => contradiction
    | function => contradiction
  | record form n parent members => exact walk?_record done hfits

/-- The symbols of declarations lead to the end of the last one. -/
theorem walk?_declarations (done : List Declaration) {ds : List Declaration}
    (h : ∀ d ∈ ds, d.isPlain ∧ d.Fits limit) :
    walk? limit ⟨done, .keyword⟩ ((ds.flatMap Declaration.symbols).map tokenOf) =
      some ⟨ds.reverse ++ done, .keyword⟩ := by
  induction ds generalizing done with
  | nil => rfl
  | cons d ds ih =>
    obtain ⟨hplain, hfits⟩ := h d List.mem_cons_self
    have hrest := ih (d :: done) fun e he => h e (List.mem_cons_of_mem d he)
    rw [List.flatMap_cons, List.map_append, walk?_append, walk?_declaration done hplain hfits,
      Option.bind_some, hrest, List.reverse_cons, List.append_assoc]
    rfl

end Progress

/-! ## Programs -/

/-- The tokens in front of the end of the input. -/
def beforeEnd (ts : List Token) : List Token := ts.takeWhile (·.kind ≠ .endOfInput)

/-- Where no token ends the input but the first that is left, the tokens in front of the end are
those read. -/
theorem beforeEnd_append {read rest : List Token} (hread : ∀ t ∈ read, t.kind ≠ .endOfInput)
    (hrest : AtEnd rest) : beforeEnd (read ++ rest) = read := by
  rw [beforeEnd, List.takeWhile_append_of_pos (by simpa using hread)]
  cases rest with
  | nil => simp
  | cons t ts => simp [hrest t rfl]

/-- Behind the tokens in front of the end, the input is over. -/
theorem exists_beforeEnd (ts : List Token) : ∃ rest, ts = beforeEnd ts ++ rest ∧ AtEnd rest := by
  refine ⟨ts.dropWhile (·.kind ≠ .endOfInput), List.takeWhile_append_dropWhile.symm, ?_⟩
  intro t ht
  have hstop := List.head?_dropWhile_not (fun t : Token => decide (t.kind ≠ .endOfInput)) ts
  rw [ht] at hstop
  simpa using hstop

end Grammar

open Grammar

/-- A program that is read is spelled by the tokens in front of the end of the input, and is within the
limit. -/
theorem spelled_of_parseWithin {limit : Option Nat} {ts : List Token} {p : Program}
    (h : parseWithin limit ts = .ok p) :
    (beforeEnd ts).map Token.symbol = p.symbols ∧ ∀ d ∈ p.toList, d.isPlain ∧ d.Fits limit := by
  obtain ⟨read, rest, s, rfl, hwalk, -, hcut⟩ := runProgram_cut limit (.endAfter ts) ts
  rw [parseWithin] at h
  rcases hcut with ⟨hplace, hrest, hrun⟩ | ⟨-, hrun⟩
  · rw [hrun] at h
    cases h
    have hspelled := Progress.walk?_spelled hwalk
    have hfits := Progress.walk?_fits (Progress.start_fits limit) hwalk
    rw [beforeEnd_append (Progress.walk?_kind_ne_endOfInput hwalk) hrest]
    constructor
    · rw [Progress.start_spelled, List.nil_append, Progress.spelled, hplace] at hspelled
      rw [← hspelled]
      exact List.append_nil _
    · intro d hd
      exact hfits.1 d (List.mem_reverse.mp hd)
  · rw [hrun] at h
    contradiction

/-- The symbols of a program within the limit lead to its end. -/
theorem walk?_of_symbols {limit : Option Nat} {ts : List Token} {p : Program}
    (hsymbols : ts.map Token.symbol = p.symbols) (hp : ∀ d ∈ p.toList, d.isPlain ∧ d.Fits limit) :
    Progress.start.walk? limit ts = some ⟨p.toList.reverse, .keyword⟩ := by
  have hwalk := Progress.walk?_declarations [] hp
  rw [List.append_nil] at hwalk
  rw [← Progress.walk?_tokenOf, hsymbols]
  exact hwalk

/-- A program within the limit is read from the tokens that spell it. -/
theorem parseWithin_of_spelled {limit : Option Nat} {ts : List Token} {p : Program}
    (hsymbols : (beforeEnd ts).map Token.symbol = p.symbols)
    (hp : ∀ d ∈ p.toList, d.isPlain ∧ d.Fits limit) : parseWithin limit ts = .ok p := by
  obtain ⟨rest, hts, hrest⟩ := exists_beforeEnd ts
  have hrun := runProgram_walk (.endAfter ts) (walk?_of_symbols hsymbols hp) rest
  rw [← hts, runProgram_halt_ok _ _ _ hrest, List.reverse_reverse] at hrun
  change runProgram limit (.endAfter ts) [] .keyword ts = _ at hrun
  rw [parseWithin, hrun]
  exact congrArg Except.ok p.ofList_toList

/-- Programs with enumerations over bare names are told apart by the symbols that spell them. -/
theorem Program.symbols_injective {p q : Program} (hp : ∀ d ∈ p.toList, d.isPlain)
    (hq : ∀ d ∈ q.toList, d.isPlain) (h : p.symbols = q.symbols) : p = q := by
  have hfits : ∀ d : Declaration, d.Fits none := fun d a _ => by
    intro l hl
    contradiction
  -- The same tokens lead to the ends of both programs, and a walk has only one end.
  have hwalkp := @Progress.walk?_declarations none [] _ fun d hd => ⟨hp d hd, hfits d⟩
  have hwalkq := @Progress.walk?_declarations none [] _ fun d hd => ⟨hq d hd, hfits d⟩
  change Progress.walk? none _ (p.symbols.map tokenOf) = _ at hwalkp
  change Progress.walk? none _ (q.symbols.map tokenOf) = _ at hwalkq
  rw [h, hwalkq] at hwalkp
  apply Program.ext
  simpa using hwalkp.symm

/-- Tokens are read as a program if and only if those in front of the end of the input spell it, its
enumerations stand on bare names, and its parents and the types of its members are at most 256 levels
deep. -/
theorem parse_eq_ok_iff (ts : List Token) (p : Program) :
    parse ts = .ok p ↔ (beforeEnd ts).map Token.symbol = p.symbols ∧
      (∀ d ∈ p.toList, d.isPlain) ∧ ∀ d ∈ p.toList, ∀ a ∈ d.types, a.depth ≤ 256 := by
  constructor
  · intro h
    obtain ⟨hsymbols, hp⟩ := spelled_of_parseWithin h
    exact ⟨hsymbols, fun d hd => (hp d hd).1, fun d hd a ha => (hp d hd).2 a ha 256 rfl⟩
  · rintro ⟨hsymbols, hplain, hdepth⟩
    refine parseWithin_of_spelled hsymbols fun d hd => ⟨hplain d hd, fun a ha l hl => ?_⟩
    cases hl
    exact hdepth d hd a ha

end Idl
