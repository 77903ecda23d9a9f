import Idl.Grammar.Place

/-!
# What a place has read

A place in the grammar keeps what has been read of the declaration under way, so the symbols that
led to it can be given back: `TypeStack.spelled` and `Place.spelled` do. The two step lemmas say that
a token read is a symbol more. A step to a further place appends the token's symbol to what has been
spelled (`TypeStack.step_spells`, `Place.step?_spells`), and the last token of a declaration completes
the spelling of that very declaration.
-/

namespace Idl

/-! ## Symbols -/

/-- The symbol of a token has the token's kind. -/
@[simp] theorem Token.kind_symbol (t : Token) : t.symbol.kind = t.kind := by
  unfold Token.symbol
  split
  · rename_i h
    rw [h]
    rfl
  · rfl

/-- The symbol of a word. -/
theorem Token.symbol_word {t : Token} (h : t.kind = .identifier) : t.symbol = .word t.text := by
  simp only [Token.symbol, h]

/-- The symbol of a token that is no word. -/
theorem Token.symbol_mark {t : Token} {kind : TokenKind} (h : t.kind = kind)
    (hkind : kind ≠ .identifier) : t.symbol = .mark kind := by
  subst h
  unfold Token.symbol
  split
  · contradiction
  · rfl

namespace TypeExpr

/-- The symbols of arguments with a comma behind each. -/
def argumentsRead (as : List TypeExpr) : List Symbol :=
  as.flatMap fun a => a.symbols ++ [.mark .comma]

/-- The symbols of a parameter. -/
def paramSymbols (p : Param) : List Symbol := .word p.name :: .mark .colon :: p.type.symbols

/-- The symbols of parameters with a comma behind each. -/
def paramsRead (ps : List Param) : List Symbol := ps.flatMap fun p => paramSymbols p ++ [.mark .comma]

/-- Commas between arguments are commas behind all of them but the last. -/
theorem listSymbols_concat (as : List TypeExpr) (a : TypeExpr) :
    listSymbols (as ++ [a]) = argumentsRead as ++ a.symbols := by
  induction as with
  | nil => simp [listSymbols, argumentsRead]
  | cons b as ih =>
    -- Whether a comma follows the first is seen from the second, so there has to be one.
    have hcons : ∃ c cs, as ++ [a] = c :: cs := List.exists_cons_of_ne_nil (by simp)
    obtain ⟨c, cs, hc⟩ := hcons
    rw [List.cons_append, hc, listSymbols, ← hc, ih]
    simp [argumentsRead]

/-- Commas between parameters are commas behind all of them but the last. -/
theorem paramsSymbols_concat (ps : List Param) (p : Param) :
    paramsSymbols (ps ++ [p]) = paramsRead ps ++ paramSymbols p := by
  induction ps with
  | nil => simp [paramsSymbols, paramsRead, paramSymbols]
  | cons q ps ih =>
    have hcons : ∃ r rs, ps ++ [p] = r :: rs := List.exists_cons_of_ne_nil (by simp)
    obtain ⟨r, rs, hr⟩ := hcons
    rw [List.cons_append, hr, paramsSymbols, ← hr, ih]
    simp [paramsRead, paramSymbols]

end TypeExpr

namespace Declaration

/-- The symbols of enumerators with a comma behind each. -/
def enumeratorsRead (ns : List String) : List Symbol := ns.flatMap fun n => [.word n, .mark .comma]

/-- Commas between enumerators are commas behind all of them but the last. -/
theorem enumeratorSymbols_concat (ns : List String) (n : String) :
    enumeratorSymbols (ns ++ [n]) = enumeratorsRead ns ++ [.word n] := by
  induction ns with
  | nil => simp [enumeratorSymbols, enumeratorsRead]
  | cons m ns ih =>
    have hcons : ∃ l ls, ns ++ [n] = l :: ls := List.exists_cons_of_ne_nil (by simp)
    obtain ⟨l, ls, hl⟩ := hcons
    rw [List.cons_append, hl, enumeratorSymbols, ← hl, ih]
    simp [enumeratorsRead]

end Declaration

namespace Grammar

open TypeExpr Declaration

/-! ## Types under way -/

/-- The symbols of an open type up to the part that it waits for. -/
def Frame.spelled : Frame → List Symbol
  | argument name before => .word name :: .mark .leftParen :: argumentsRead before.reverse
  | param before name =>
    .mark .leftParen :: (paramsRead before.reverse ++ [.word name, .mark .colon])
  | result params => .mark .leftParen :: (paramsSymbols params ++ [.mark .rightParen, .mark .arrow])

/-- The symbols of the types around a place, from the outermost one in. -/
def framesSpelled : List Frame → List Symbol
  | [] => []
  | frame :: frames => framesSpelled frames ++ frame.spelled

/-- The symbols of the innermost type up to a place in it. -/
def TypePlace.spelled : TypePlace → List Symbol
  | start => []
  | name n => [.word n]
  | firstArgument n => [.word n, .mark .leftParen]
  | firstParam => [.mark .leftParen]
  | nextParam before => .mark .leftParen :: paramsRead before.reverse
  | paramColon before n => .mark .leftParen :: (paramsRead before.reverse ++ [.word n])
  | afterParams params => .mark .leftParen :: (paramsSymbols params ++ [.mark .rightParen])
  | ended type => type.symbols

/-- The symbols of a type under way. -/
def TypeStack.spelled (s : TypeStack) : List Symbol := framesSpelled s.frames ++ s.place.spelled

/-- What a step makes of the symbols read before the token `t`: one more, if the token is read, and
the spelling of the whole type, if the type was over. -/
def TypeStep.Spells (read : List Symbol) (t : Token) : TypeStep → Prop
  | .next stack => stack.spelled = read ++ [t.symbol]
  | .over type => type.symbols = read
  | .stuck => True

namespace TypeStack

/-- The first token of a type spells its beginning. -/
theorem enter_spells (limit : Option Nat) (frames : List Frame) (t : Token) :
    (enter limit frames t).Spells (framesSpelled frames) t := by
  fun_cases enter limit frames t with
  | case1 => trivial
  | case2 _ hkind => simp [TypeStep.Spells, spelled, TypePlace.spelled, Token.symbol_word hkind]
  | case3 _ hkind =>
    simp [TypeStep.Spells, spelled, TypePlace.spelled, Token.symbol_mark hkind]
  | case4 => trivial

/-- The token behind a finished type spells what goes on around it. -/
theorem leave_spells (frames : List Frame) (type : TypeExpr) (t : Token) :
    (leave frames type t).Spells (framesSpelled frames ++ type.symbols) t := by
  fun_induction leave frames type t with
  | case1 => simp [TypeStep.Spells, framesSpelled]
  | case2 name before frames type t hkind =>
    simp [TypeStep.Spells, spelled, framesSpelled, Frame.spelled, TypePlace.spelled, argumentsRead,
      Token.symbol_mark hkind]
  | case3 name before frames type t hkind =>
    simp [TypeStep.Spells, spelled, framesSpelled, Frame.spelled, TypePlace.spelled,
      TypeExpr.symbols, listSymbols_concat, Token.symbol_mark hkind]
  | case4 => trivial
  | case5 before name frames type t hkind =>
    simp [TypeStep.Spells, spelled, framesSpelled, Frame.spelled, TypePlace.spelled, paramsRead,
      paramSymbols, Token.symbol_mark hkind]
  | case6 before name frames type t hkind =>
    simp [TypeStep.Spells, spelled, framesSpelled, Frame.spelled, TypePlace.spelled,
      paramsSymbols_concat, paramSymbols, Token.symbol_mark hkind]
  | case7 => trivial
  | case8 params frames type t ih =>
    -- The function is over together with its result, and the same symbols spell it.
    have hread : framesSpelled frames ++ (TypeExpr.function params (some type)).symbols =
        framesSpelled (.result params :: frames) ++ type.symbols := by
      simp [framesSpelled, Frame.spelled, TypeExpr.symbols]
    rw [hread] at ih
    exact ih

/-- One token of a type under way is one symbol more, or stands behind the whole type. -/
theorem step_spells (limit : Option Nat) (s : TypeStack) (t : Token) :
    (s.step limit t).Spells s.spelled t := by
  -- One case for each place and kind of token: the token begins a type inside the place, ends the
  -- type there, or is a mark of that type.
  fun_cases step limit s t with
  | case1 hplace =>
    have henter := enter_spells limit s.frames t
    simpa [spelled, hplace, TypePlace.spelled] using henter
  | case2 name hkind hplace =>
    simp [TypeStep.Spells, spelled, hplace, TypePlace.spelled, Token.symbol_mark hkind]
  | case3 name hplace =>
    have hleave := leave_spells s.frames (.named name) t
    simpa [spelled, hplace, TypePlace.spelled, TypeExpr.symbols] using hleave
  | case4 name hkind hplace =>
    simp [TypeStep.Spells, spelled, hplace, TypePlace.spelled, TypeExpr.symbols, listSymbols,
      Token.symbol_mark hkind]
  | case5 name hplace =>
    have henter := enter_spells limit (.argument name [] :: s.frames) t
    simpa [spelled, hplace, TypePlace.spelled, framesSpelled, Frame.spelled, argumentsRead]
      using henter
  | case6 hkind hplace =>
    simp [TypeStep.Spells, spelled, hplace, TypePlace.spelled, paramsSymbols,
      Token.symbol_mark hkind]
  | case7 hkind hplace =>
    simp [TypeStep.Spells, spelled, hplace, TypePlace.spelled, paramsRead, Token.symbol_word hkind]
  | case8 => trivial
  | case9 before hkind hplace =>
    simp [TypeStep.Spells, spelled, hplace, TypePlace.spelled, Token.symbol_word hkind]
  | case10 => trivial
  | case11 before name hkind hplace =>
    simp [TypeStep.Spells, spelled, hplace, TypePlace.spelled, framesSpelled, Frame.spelled,
      Token.symbol_mark hkind]
  | case12 => trivial
  | case13 params hkind hplace =>
    simp [TypeStep.Spells, spelled, hplace, TypePlace.spelled, framesSpelled, Frame.spelled,
      Token.symbol_mark hkind]
  | case14 params hplace =>
    have hleave := leave_spells s.frames (.function params none) t
    simpa [spelled, hplace, TypePlace.spelled, TypeExpr.symbols] using hleave
  | case15 type hplace =>
    have hleave := leave_spells s.frames type t
    simpa [spelled, hplace, TypePlace.spelled] using hleave

/-- A type that goes on by a token has read its symbol. -/
theorem next_spelled {limit : Option Nat} {s next : TypeStack} {t : Token}
    (h : s.step limit t = .next next) : next.spelled = s.spelled ++ [t.symbol] := by
  have hstep := step_spells limit s t
  rw [h] at hstep
  exact hstep

/-- A type that is over has been spelled whole. -/
theorem over_symbols {limit : Option Nat} {s : TypeStack} {t : Token} {type : TypeExpr}
    (h : s.step limit t = .over type) : type.symbols = s.spelled := by
  have hstep := step_spells limit s t
  rw [h] at hstep
  exact hstep

end TypeStack

/-! ## Declarations under way -/

/-- The symbols of an enumeration up to its opening brace. -/
def enumHeadSymbols (name underlying : String) : List Symbol :=
  [.word "enum", .word name, .mark .colon, .word underlying, .mark .leftBrace]

/-- The symbols of a record up to its opening brace. -/
def RecordHead.symbols (head : RecordHead) : List Symbol :=
  .word head.form.keyword :: .word head.name :: (parentSymbols head.parent ++ [.mark .leftBrace])

/-- The symbols of a record up to the place behind some of its members (last one first). -/
def membersRead (head : RecordHead) (before : List Member) : List Symbol :=
  head.symbols ++ before.reverse.flatMap memberSymbols

/-- The symbols of a declaration up to a place in it. -/
def Place.spelled : Place → List Symbol
  | keyword => []
  | enumName => [.word "enum"]
  | enumColon n => [.word "enum", .word n]
  | enumUnderlying n => [.word "enum", .word n, .mark .colon]
  | enumOpen n u => [.word "enum", .word n, .mark .colon, .word u]
  | firstEnumerator n u => enumHeadSymbols n u
  | nextEnumerator n u before => enumHeadSymbols n u ++ enumeratorsRead before.reverse
  | afterEnumerator n u before last =>
    enumHeadSymbols n u ++ (enumeratorsRead before.reverse ++ [.word last])
  | recordName form => [.word form.keyword]
  | recordColon form n => [.word form.keyword, .word n]
  | parent form n stack => .word form.keyword :: .word n :: .mark .colon :: stack.spelled
  | member head before => membersRead head before
  | memberColon head before n => membersRead head before ++ [.word n]
  | memberType head before n stack =>
    membersRead head before ++ .word n :: .mark .colon :: stack.spelled

/-- What a step makes of the symbols read before the token `t`: one more, which is the last one of
the declaration if that ends. -/
def Step.Spells (read : List Symbol) (t : Token) : Step → Prop
  | .next place => place.spelled = read ++ [t.symbol]
  | .ended d => d.symbols = read ++ [t.symbol]

namespace Place

/-- The word that opens a record is the keyword of its form. -/
theorem keyword_of_ofKeyword? {word : String} {form : RecordForm}
    (h : RecordForm.ofKeyword? word = some form) : form.keyword = word := by
  unfold RecordForm.ofKeyword? at h
  split at h
  · cases h; rfl
  · cases h; rfl
  · contradiction

/-- The keyword that leads to a place is all that the place has read. -/
theorem ofKeyword?_spells {word : String} {place : Place} (h : ofKeyword? word = some place) :
    place.spelled = [.word word] := by
  unfold ofKeyword? at h
  split at h
  · rename_i hword
    cases h
    rw [hword]
    rfl
  · obtain ⟨form, hform, rfl⟩ := Option.map_eq_some_iff.mp h
    rw [← keyword_of_ofKeyword? hform]
    rfl

/-- The brace before the members completes the head of a record. -/
theorem openMembers?_spells {head : RecordHead} {t : Token} {step : Step}
    (h : openMembers? head t = some step) :
    step.Spells (.word head.form.keyword :: .word head.name :: parentSymbols head.parent) t := by
  unfold openMembers? at h
  split at h
  · rename_i hkind
    cases h
    simp [Step.Spells, spelled, membersRead, RecordHead.symbols, Token.symbol_mark hkind]
  · contradiction

/-- The semicolon behind a member completes the member. -/
theorem endMember?_spells {head : RecordHead} {before : List Member} {m : Member} {t : Token}
    {step : Step} (h : endMember? head before m t = some step) :
    step.Spells (membersRead head before ++ .word m.name :: .mark .colon :: m.type.symbols) t := by
  unfold endMember? at h
  split at h
  · rename_i hkind
    cases h
    simp [Step.Spells, spelled, membersRead, memberSymbols, Token.symbol_mark hkind]
  · contradiction

/-- A token that has its place in a declaration is one symbol more. -/
theorem step?_spells {limit : Option Nat} {place : Place} {t : Token} {step : Step}
    (h : place.step? limit t = some step) : step.Spells place.spelled t := by
  revert h
  fun_cases step? limit place t with
  | case1 hkind =>
    intro h
    obtain ⟨next, hnext, rfl⟩ := Option.map_eq_some_iff.mp h
    rw [Step.Spells, ofKeyword?_spells hnext, Token.symbol_word hkind]
    rfl
  | case2 hkind =>
    rintro ⟨⟩
    simp [Step.Spells, spelled, Token.symbol_word hkind]
  | case3 n hkind =>
    rintro ⟨⟩
    simp [Step.Spells, spelled, Token.symbol_mark hkind]
  | case4 n hkind =>
    rintro ⟨⟩
    simp [Step.Spells, spelled, Token.symbol_word hkind]
  | case5 n u hkind =>
    rintro ⟨⟩
    simp [Step.Spells, spelled, enumHeadSymbols, Token.symbol_mark hkind]
  | case6 n u hkind =>
    rintro ⟨⟩
    simp [Step.Spells, spelled, enumHeadSymbols, Declaration.symbols, TypeExpr.symbols,
      enumeratorSymbols, Token.symbol_mark hkind]
  | case7 n u hkind =>
    rintro ⟨⟩
    simp [Step.Spells, spelled, enumeratorsRead, Token.symbol_word hkind]
  | case8 n u before hkind =>
    rintro ⟨⟩
    simp [Step.Spells, spelled, Token.symbol_word hkind]
  | case9 n u before last hkind =>
    rintro ⟨⟩
    simp [Step.Spells, spelled, enumeratorsRead, Token.symbol_mark hkind]
  | case10 n u before last hkind =>
    rintro ⟨⟩
    simp [Step.Spells, spelled, enumHeadSymbols, Declaration.symbols, TypeExpr.symbols,
      enumeratorSymbols_concat, Token.symbol_mark hkind]
  | case11 form hkind =>
    rintro ⟨⟩
    simp [Step.Spells, spelled, Token.symbol_word hkind]
  | case12 form n hkind =>
    rintro ⟨⟩
    simp [Step.Spells, spelled, TypeStack.spelled, TypeStack.start, framesSpelled,
      TypePlace.spelled, Token.symbol_mark hkind]
  | case13 form n =>
    intro h
    have hopen := openMembers?_spells h
    simpa [spelled, parentSymbols] using hopen
  | case14 form n stack next hnext =>
    rintro ⟨⟩
    have hnext := TypeStack.next_spelled hnext
    simp [Step.Spells, spelled, hnext]
  | case15 form n stack type hover =>
    intro h
    -- The type is over at the brace, which is read by the record around it.
    have hopen := openMembers?_spells h
    have htype := TypeStack.over_symbols hover
    simpa [spelled, parentSymbols, htype] using hopen
  | case16 => rintro ⟨⟩
  | case17 head before hkind =>
    rintro ⟨⟩
    simp [Step.Spells, spelled, membersRead, RecordHead.symbols, Declaration.symbols,
      Token.symbol_mark hkind]
  | case18 head before hkind =>
    rintro ⟨⟩
    simp [Step.Spells, spelled, Token.symbol_word hkind]
  | case19 head before n hkind =>
    rintro ⟨⟩
    simp [Step.Spells, spelled, TypeStack.spelled, TypeStack.start, framesSpelled,
      TypePlace.spelled, Token.symbol_mark hkind]
  | case20 head before n stack next hnext =>
    rintro ⟨⟩
    have hnext := TypeStack.next_spelled hnext
    simp [Step.Spells, spelled, hnext]
  | case21 head before n stack type hover =>
    intro h
    have hend := endMember?_spells h
    have htype := TypeStack.over_symbols hover
    simpa [spelled, htype] using hend
  | case22 => rintro ⟨⟩
  | case23 => rintro ⟨⟩

end Place

end Grammar

end Idl
