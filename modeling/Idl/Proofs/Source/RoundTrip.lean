import Idl.Source
import Idl.Proofs.Grammar.Acceptance
import Idl.Proofs.Source.Canonical

/-!
# Printing and reading back

Reading the canonical text of a program gives the program back exactly if the program is well-formed:
its names are words, its enumerations stand on bare names, and its types are within the limit of
nesting (`parseSource_text_eq_ok_iff`).

One direction puts together what is known of the two phases: the canonical text is laid out as the
symbols of the program (`Program.reads_text`), and these are read as the program
(`parseWithin_of_spelled`). The other holds for any text at all, canonical or not: what is read from it
is well-formed (`Program.wellFormed_of_parseSource`). The limit and the bare names are the parser's
doing. The names are words since each is the text of a lexeme: every name of a program is one of the
symbols that spell it.
-/

namespace Idl

open Grammar

/-! ## What a layout shows the grammar -/

/-- A lexeme that the grammar sees as a word is a word. -/
theorem Segment.isWord_of_symbol {x : Segment} (hlexeme : IsLexeme x.kind x.text) {n : String}
    (h : x.symbol = .word n) : isWord n = true := by
  have hkind : x.kind = .identifier := by
    have hsymbol := congrArg Symbol.kind h
    rw [Segment.symbol, Token.kind_symbol] at hsymbol
    exact hsymbol
  have htext : String.ofList x.text = n := by
    rw [Segment.symbol, Token.symbol_word hkind] at h
    exact congrArg Symbol.text h
  rw [hkind] at hlexeme
  rw [← htext, isWord, String.toList_ofList]
  generalize x.text = text at hlexeme
  cases hlexeme with
  | word hstart hchars =>
    rw [Bool.and_eq_true, List.all_eq_true]
    exact ⟨hstart, hchars⟩
  | mark hmark => exact absurd rfl (kind_of_mark hmark).1

namespace Layout

/-- The grammar sees of the lexemes of a layout what it sees of the segments. -/
theorem symbols_lexemesAt (p : Position) (l : Layout) :
    (l.lexemesAt p).map Token.symbol = l.segments.map Segment.symbol :=
  map_lexemesAt (fun kind text => (Token.mk kind text .start).symbol) p l

/-- In front of the end of the input the grammar sees the lexemes. -/
theorem Valid.symbols_beforeEnd {d : Dialect} {l : Layout} (h : l.Valid d) :
    (beforeEnd l.tokens).map Token.symbol = l.segments.map Segment.symbol := by
  rw [← tokensAt_start, tokensAt_eq, beforeEnd_append (h.kind_lexemesAt .start), symbols_lexemesAt]
  · intro t ht
    obtain rfl := Option.some.inj ht
    rfl

end Layout

/-! ## Names are spelled -/

namespace TypeExpr

/-- What spells a type of a list is among what spells the list. -/
theorem mem_listSymbols {s : Symbol} {a : TypeExpr} {as : List TypeExpr} (ha : a ∈ as)
    (hs : s ∈ a.symbols) : s ∈ listSymbols as := by
  induction as with
  | nil => simp at ha
  | cons b as ih =>
    have hb : s ∈ b.symbols ∨ s ∈ listSymbols as := by
      rcases List.mem_cons.mp ha with rfl | ha
      · exact .inl hs
      · exact .inr (ih ha)
    cases as with
    | nil => simpa [listSymbols] using hb
    | cons c as =>
      rw [listSymbols, List.mem_append, List.mem_cons]
      rcases hb with hb | hb
      · exact .inl hb
      · exact .inr (.inr hb)

/-- What spells a parameter of a list is among what spells the list. -/
theorem mem_paramsSymbols {s : Symbol} {p : Param} {ps : List Param} (hp : p ∈ ps)
    (hs : s ∈ paramSymbols p) : s ∈ paramsSymbols ps := by
  induction ps with
  | nil => simp at hp
  | cons q ps ih =>
    have hq : s ∈ paramSymbols q ∨ s ∈ paramsSymbols ps := by
      rcases List.mem_cons.mp hp with rfl | hp
      · exact .inl hs
      · exact .inr (ih hp)
    cases ps with
    | nil => simpa [paramsSymbols, paramSymbols] using hq
    | cons r ps =>
      have hsplit : paramsSymbols (q :: r :: ps) =
        paramSymbols q ++ .mark .comma :: paramsSymbols (r :: ps) := rfl
      rw [hsplit, List.mem_append, List.mem_cons]
      rcases hq with hq | hq
      · exact .inl hq
      · exact .inr (.inr hq)

/-- Every name in a type is a word of its spelling. -/
theorem word_mem_symbols {a : TypeExpr} {n : String} (h : n ∈ a.names) :
    Symbol.word n ∈ a.symbols := by
  induction a with
  | named m =>
    obtain rfl := List.mem_singleton.mp h
    exact List.mem_singleton_self _
  | generic m as ih =>
    rw [symbols]
    rcases List.mem_cons.mp h with rfl | h
    · exact List.mem_cons_self
    · obtain ⟨a, ha, hn⟩ := mem_listNames.mp h
      have hlist := mem_listSymbols ha (ih a ha hn)
      exact List.mem_cons_of_mem _ (List.mem_cons_of_mem _ (List.mem_append_left _ hlist))
  | function ps r ihps ihr =>
    have hparams : n ∈ paramsNames ps → Symbol.word n ∈ paramsSymbols ps := by
      intro h
      obtain ⟨p, hp, hn⟩ := mem_paramsNames.mp h
      apply mem_paramsSymbols hp
      rcases hn with rfl | hn
      · exact List.mem_cons_self
      · exact List.mem_cons_of_mem _ (List.mem_cons_of_mem _ (ihps p hp hn))
    cases r with
    | none => exact List.mem_cons_of_mem _ (List.mem_append_left _ (hparams h))
    | some r =>
      rw [symbols]
      rcases List.mem_append.mp h with h | h
      · exact List.mem_cons_of_mem _ (List.mem_append_left _ (hparams h))
      · have hr := List.mem_cons_of_mem (.mark .arrow) (ihr r rfl h)
        exact List.mem_cons_of_mem _ (List.mem_append_right _ (List.mem_cons_of_mem _ hr))

end TypeExpr

namespace Declaration

/-- Every enumerator is a word of the spelling of its list. -/
theorem word_mem_enumeratorSymbols {n : String} {ns : List String} (h : n ∈ ns) :
    Symbol.word n ∈ enumeratorSymbols ns := by
  induction ns with
  | nil => simp at h
  | cons m ns ih =>
    have hm : n = m ∨ Symbol.word n ∈ enumeratorSymbols ns := (List.mem_cons.mp h).imp_right ih
    cases ns with
    | nil => simpa [enumeratorSymbols, Symbol.word] using hm
    | cons k ns =>
      rw [enumeratorSymbols, List.mem_cons, List.mem_cons]
      rcases hm with rfl | hm
      · exact .inl rfl
      · exact .inr (.inr hm)

/-- Every name in a declaration is a word of its spelling. -/
theorem word_mem_symbols {decl : Declaration} {n : String} (h : n ∈ decl.names) :
    Symbol.word n ∈ decl.symbols := by
  cases decl with
  | enum m u ns =>
    simp only [names, List.mem_cons, List.mem_append] at h
    simp only [symbols, List.mem_cons, List.mem_append]
    rcases h with rfl | h | h
    · exact .inr (.inl rfl)
    · exact .inr (.inr (.inr (.inl (TypeExpr.word_mem_symbols h))))
    · exact .inr (.inr (.inr (.inr (.inr (.inl (word_mem_enumeratorSymbols h))))))
  | record form m parent members =>
    simp only [names, List.mem_cons, List.mem_append, List.mem_flatMap] at h
    simp only [symbols, List.mem_cons, List.mem_append, List.mem_flatMap]
    rcases h with rfl | ⟨a, ha, h⟩ | ⟨k, hk, h⟩
    · exact .inr (.inl rfl)
    · obtain rfl := Option.mem_toList.mp ha
      exact .inr (.inr (.inl (List.mem_cons_of_mem _ (TypeExpr.word_mem_symbols h))))
    · refine .inr (.inr (.inr (.inr (.inl ⟨k, hk, ?_⟩))))
      unfold memberSymbols
      rcases h with rfl | h
      · exact List.mem_cons_self
      · have htype := List.mem_append_left [.mark .semicolon] (TypeExpr.word_mem_symbols h)
        exact List.mem_cons_of_mem _ (List.mem_cons_of_mem _ htype)

end Declaration

/-! ## Well-formed programs -/

/-- What a program must be for its canonical text to say it. -/
structure Program.WellFormed (p : Program) : Prop where
  /-- Every name in it is a word. -/
  words : ∀ e ∈ p.toList, ∀ n ∈ e.names, isWord n = true
  /-- Every enumeration stands on a bare name. -/
  plain : ∀ e ∈ p.toList, e.isPlain
  /-- Every parent and every type of a member is within the limit of nesting. -/
  shallow : ∀ e ∈ p.toList, ∀ a ∈ e.types, a.depth ≤ 256

/-- A text is read as a program exactly if its tokens are. -/
theorem parseSource_eq_ok_iff {d : Dialect} {source : String} {p : Program} :
    parseSource d source = .ok p ↔ ∃ ts, tokenize d source = .ok ts ∧ parse ts = .ok p := by
  unfold parseSource
  constructor
  · intro h
    split at h
    · contradiction
    · next ts hts =>
      refine ⟨ts, hts, ?_⟩
      generalize parse ts = answer at h
      cases answer with
      | error e => contradiction
      | ok q => exact congrArg Except.ok (Except.ok.inj h)
  · rintro ⟨ts, hts, hparse⟩
    rw [hts]
    show (parse ts).mapError SourceError.parse = .ok p
    rw [hparse]
    rfl

/-- A program that is read from a text is spelled by a layout of the text and is within the limit. -/
theorem exists_layout_of_parseSource {d : Dialect} {source : String} {p : Program}
    (h : parseSource d source = .ok p) :
    ∃ l : Layout, l.Valid d ∧ l.text = source.toList ∧ tokenize d source = .ok l.tokens ∧
      l.segments.map Segment.symbol = p.symbols ∧
      ∀ e ∈ p.toList, e.isPlain ∧ e.Fits (some maxTypeDepth) := by
  obtain ⟨ts, hts, hparse⟩ := parseSource_eq_ok_iff.mp h
  obtain ⟨l, hl, htext, rfl⟩ := Layout.exists_of_tokenize hts
  obtain ⟨hspelled, hfits⟩ := spelled_of_parseWithin hparse
  rw [hl.symbols_beforeEnd] at hspelled
  exact ⟨l, hl, htext, hts, hspelled, hfits⟩

/-- A program that is read from a text is well-formed. -/
theorem Program.wellFormed_of_parseSource {d : Dialect} {source : String} {p : Program}
    (h : parseSource d source = .ok p) : p.WellFormed := by
  obtain ⟨l, hl, -, -, hspelled, hfits⟩ := exists_layout_of_parseSource h
  constructor
  · intro e he n hn
    -- The name is one of the symbols that were read, so it is the text of a lexeme.
    have hword : Symbol.word n ∈ p.symbols :=
      List.mem_flatMap.mpr ⟨e, he, Declaration.word_mem_symbols hn⟩
    rw [← hspelled] at hword
    obtain ⟨x, hx, hsymbol⟩ := List.mem_map.mp hword
    exact Segment.isWord_of_symbol (hl.isLexeme x hx) hsymbol
  · intro e he
    exact (hfits e he).1
  · intro e he a ha
    exact (hfits e he).2 a ha 256 rfl

/-- A well-formed program is read from its canonical text. -/
theorem Program.WellFormed.parseSource_text {p : Program} (h : p.WellFormed) (d : Dialect) :
    parseSource d p.text = .ok p := by
  obtain ⟨l, hl, htext, hsymbols⟩ := Program.reads_text (d := d) h.words
  rw [parseSource_eq_ok_iff]
  refine ⟨l.tokens, hl.tokenize_eq_ok htext, ?_⟩
  apply parseWithin_of_spelled
  · rw [hl.symbols_beforeEnd, hsymbols]
  · intro e he
    refine ⟨h.plain e he, fun a ha limit hlimit => ?_⟩
    obtain rfl := Option.some.inj hlimit
    exact h.shallow e he a ha

/-- A program is read back from its canonical text if and only if it is well-formed, whatever the
dialect; and no other program is ever read from a text. -/
theorem parseSource_text_eq_ok_iff (d : Dialect) :
    (∀ p : Program, parseSource d p.text = .ok p ↔ p.WellFormed) ∧
      ∀ (source : String) (p : Program), parseSource d source = .ok p → p.WellFormed := by
  constructor
  · intro p
    constructor
    · exact Program.wellFormed_of_parseSource
    · intro h
      exact h.parseSource_text d
  · intro source p
    exact Program.wellFormed_of_parseSource

end Idl
