import Mathlib.Data.List.Forall2
import Idl.Proofs.Grammar.Viability
import Idl.Proofs.Source.Formatting
import Idl.Proofs.Source.Locations

/-!
# What the parser does not see

The parser sees the kinds of tokens and the texts of words, and nothing else: neither where a token stands
nor how a mark is written. So two sequences of tokens that are alike in what it sees are read in step
(`sameAnswer_of_alike`): one place of the grammar goes over both, and halts in both behind the same number
of tokens. The error, if there is one, then names in each sequence the token of that sequence, and asks
for the same thing in its place.

For sources this means that neither gaps nor the dialect matter, once the tokens are read
(`parse_blind_to_layout`).
-/

namespace Idl

open Grammar

/-! ## Tokens that are seen alike -/

/-- Whether the parser sees two tokens alike, wherever they stand: they are of one kind, and words are of
one text. -/
structure Token.Alike (t u : Token) : Prop where
  /-- The tokens are of one kind. -/
  kind : t.kind = u.kind
  /-- Words are of one text. -/
  word : t.kind = .identifier → t.text = u.text

/-- Tokens that are seen alike have one symbol. -/
theorem Token.Alike.symbol_eq {t u : Token} (h : t.Alike u) : t.symbol = u.symbol := by
  by_cases hkind : t.kind = .identifier
  · rw [symbol_word hkind, symbol_word (h.kind.symm.trans hkind), h.word hkind]
  · rw [symbol_mark rfl hkind, symbol_mark rfl (h.kind ▸ hkind), h.kind]

/-- Tokens of one kind and one text are seen alike. -/
theorem Token.alike_of_lexeme_eq {t u : Token} (h : t.lexeme = u.lexeme) : t.Alike u where
  kind := congrArg Prod.fst h
  word _ := congrArg Prod.snd h

/-- Sequences that are seen alike have the same symbols. -/
theorem symbols_eq_of_alike {ts us : List Token} (h : List.Forall₂ Token.Alike ts us) :
    ts.map Token.symbol = us.map Token.symbol := by
  induction h with
  | nil => rfl
  | cons hhead _ ih => rw [List.map_cons, List.map_cons, hhead.symbol_eq, ih]

/-- A step over either of two tokens that are seen alike is the same. -/
theorem Grammar.Place.step?_alike (limit : Option Nat) (place : Place) {t u : Token} (h : t.Alike u) :
    place.step? limit t = place.step? limit u := by
  rw [← place.step?_tokenOf limit t, ← place.step?_tokenOf limit u, h.symbol_eq]

/-- A walk over either of two sequences that are seen alike is the same. -/
theorem Grammar.Progress.walk?_alike (limit : Option Nat) (s : Progress) {ts us : List Token}
    (h : List.Forall₂ Token.Alike ts us) : s.walk? limit ts = s.walk? limit us := by
  rw [← s.walk?_tokenOf limit ts, ← s.walk?_tokenOf limit us, symbols_eq_of_alike h]

/-- A walk halts in front of either of two sequences that are seen alike. -/
theorem Grammar.Place.Halts.alike {limit : Option Nat} {place : Place} {ts us : List Token}
    (hhalt : place.Halts limit ts) (h : List.Forall₂ Token.Alike ts us) : place.Halts limit us := by
  cases h with
  | nil => exact hhalt
  | cons hhead _ =>
    intro u hu
    cases hu
    rw [← place.step?_alike limit hhead]
    exact hhalt _ rfl

/-- The input is over in front of both of two sequences that are seen alike, or of neither. -/
theorem Grammar.atEnd_alike {ts us : List Token} (h : List.Forall₂ Token.Alike ts us) :
    AtEnd ts ↔ AtEnd us := by
  cases h with
  | nil => rfl
  | cons hhead _ => simp [AtEnd, hhead.kind]

/-! ## Readings in step -/

/-- The token at fault where tokens are no program: the one behind those read, and one made up behind the
last if there are no more. -/
def Grammar.faultToken (ts : List Token) : Token := ts[readCount ts]?.getD (.endAfter ts)

/-- Whether two errors, each of reading its own sequence of tokens, are the same but for the tokens. -/
structure SameFault (ts us : List Token) (e f : ParseError) : Prop where
  /-- Both are at the token of the same index. -/
  index : readCount ts = readCount us
  /-- The first names the token of the first sequence, and so shows its place. -/
  left : e.token = faultToken ts ∧ e.diagnostic.label.span = (faultToken ts).span
  /-- The second names the token of the second sequence, and so shows its place. -/
  right : f.token = faultToken us ∧ f.diagnostic.label.span = (faultToken us).span
  /-- Both ask for the same thing. -/
  help : e.diagnostic.help = f.diagnostic.help

/-- Whether two sequences of tokens, each with its answer, are read in step. -/
inductive SameAnswer (ts us : List Token) :
    Except ParseError Program → Except ParseError Program → Prop
  /-- Both are the same program. -/
  | ok (p : Program) : SameAnswer ts us (.ok p) (.ok p)
  /-- Both have a fault in the same place. -/
  | error {e f : ParseError} (h : SameFault ts us e f) : SameAnswer ts us (.error e) (.error f)

/-- Where reading halts, the token at fault is the first that is left. -/
theorem Grammar.faultToken_eq {read rest : List Token} (h : readCount (read ++ rest) = read.length) :
    faultToken (read ++ rest) = rest.head?.getD (.endAfter (read ++ rest)) := by
  rw [faultToken, h, List.getElem?_append_right (Nat.le_refl _), Nat.sub_self,
    ← List.head?_eq_getElem?]

/-- Sequences that are seen alike are read in step. -/
theorem sameAnswer_of_alike {ts us : List Token} (h : List.Forall₂ Token.Alike ts us) :
    SameAnswer ts us (parse ts) (parse us) := by
  obtain ⟨read, rest, s, rfl, hwalk, hhalt, hcut⟩ :=
    runProgram_cut (some maxTypeDepth) (.endAfter ts) ts
  -- The second sequence is cut where the walk over the first halts.
  obtain ⟨read', rest', rfl, hread, hrest⟩ : ∃ read' rest', us = read' ++ rest' ∧
      List.Forall₂ Token.Alike read read' ∧ List.Forall₂ Token.Alike rest rest' := by
    have htake := List.forall₂_take read.length h
    have hdrop := List.forall₂_drop read.length h
    rw [List.take_left] at htake
    rw [List.drop_left] at hdrop
    exact ⟨_, _, (List.take_append_drop read.length us).symm, htake, hdrop⟩
  rw [Progress.start.walk?_alike _ hread] at hwalk
  have hcut' := runProgram_of_halts (.endAfter (read' ++ rest')) hwalk (hhalt.alike hrest)
  rw [← atEnd_alike hrest] at hcut'
  rcases hcut with ⟨hplace, hend, hrun⟩ | ⟨hend, hrun⟩
  · rcases hcut' with ⟨-, -, hrun'⟩ | ⟨hnot, -⟩
    · rw [parse, parse, parseWithin, parseWithin, hrun, hrun']
      exact .ok _
    · exact absurd hend (hnot hplace)
  · rcases hcut' with ⟨hplace, hnot, -⟩ | ⟨-, hrun'⟩
    · exact absurd hnot (hend hplace)
    · have hcount := readCount_eq hrun
      have hcount' := readCount_eq hrun'
      rw [parse, parse, parseWithin, parseWithin, hrun, hrun']
      refine .error ⟨?_, ?_, ?_, rfl⟩
      · rw [hcount, hcount', hread.length_eq]
      · rw [faultToken_eq hcount]
        exact ⟨rfl, rfl⟩
      · rw [faultToken_eq hcount']
        exact ⟨rfl, rfl⟩

/-! ## Sources in step -/

/-- Tokens of one kind and one text are shown alike. -/
theorem Token.describe_eq_of_lexeme_eq {t u : Token} (h : t.lexeme = u.lexeme) :
    t.describe = u.describe := by
  obtain ⟨hkind, htext⟩ := Prod.mk.inj h
  rw [describe, describe, hkind, htext]

/-- Sequences with the same lexemes are seen alike. -/
theorem alike_of_lexemes_eq {ts us : List Token} (h : ts.map Token.lexeme = us.map Token.lexeme) :
    List.Forall₂ Token.Alike ts us := by
  rw [← List.forall₂_eq_eq_eq, List.forall₂_map_left_iff, List.forall₂_map_right_iff] at h
  exact h.imp fun _ _ => Token.alike_of_lexeme_eq

/-- Faults in the same place of sequences with the same lexemes are shown alike. -/
theorem SameFault.describe_eq {ts us : List Token} {e f : ParseError} (h : SameFault ts us e f)
    (hlexemes : ts.map Token.lexeme = us.map Token.lexeme) : e.token.describe = f.token.describe := by
  have hindex := congrArg (fun xs => xs[readCount ts]?) hlexemes
  simp only [List.getElem?_map] at hindex
  rw [h.left.1, h.right.1, faultToken, faultToken, ← h.index]
  cases ht : ts[readCount ts]? with
  | none =>
    rw [ht, Option.map_none, eq_comm, Option.map_eq_none_iff] at hindex
    rw [hindex]
    rfl
  | some t =>
    rw [ht, Option.map_some, eq_comm, Option.map_eq_some_iff] at hindex
    obtain ⟨u, hu, hlexeme⟩ := hindex
    rw [hu]
    exact (Token.describe_eq_of_lexeme_eq hlexeme).symm

/-- The parser is blind to where tokens stand and to the texts of marks. Sequences of tokens with the same
kinds and the same words make the same program, or have a fault at the same index, with the same help, each
at its own token. So have sources with the same lexemes, whatever stands between these and whatever the
dialects, and their errors show the same token. -/
theorem parse_blind_to_layout :
    (∀ ts us, List.Forall₂ Token.Alike ts us → SameAnswer ts us (parse ts) (parse us)) ∧
    ∀ d d' s s' ts us, tokenize d s = .ok ts → tokenize d' s' = .ok us →
      ts.map Token.lexeme = us.map Token.lexeme →
      (∃ p, parseSource d s = .ok p ∧ parseSource d' s' = .ok p) ∨
      ∃ e f, parseSource d s = .error (.parse e) ∧ parseSource d' s' = .error (.parse f) ∧
        SameFault ts us e f ∧ e.token.describe = f.token.describe := by
  refine ⟨fun ts us => sameAnswer_of_alike, ?_⟩
  intro d d' s s' ts us hts hus hlexemes
  have hsame := sameAnswer_of_alike (alike_of_lexemes_eq hlexemes)
  generalize hp : parse ts = answer at hsame
  generalize hq : parse us = answer' at hsame
  cases hsame with
  | ok p => exact .inl ⟨p, parseSource_eq_ok_iff.mpr ⟨ts, hts, hp⟩, parseSource_eq_ok_iff.mpr ⟨us, hus, hq⟩⟩
  | @error e f hfault =>
    exact .inr ⟨e, f, parseSource_eq_parse_iff.mpr ⟨ts, hts, hp⟩,
      parseSource_eq_parse_iff.mpr ⟨us, hus, hq⟩, hfault, hfault.describe_eq hlexemes⟩

/-- Where a name is followed by another in place of a colon, the second is at fault: however the marks of
the tokens are written, and behind a comment that is longer in bytes than in characters as well. -/
theorem parse_blind_to_layout_missing_colon :
    let s := "struct A\x7bx int;\x7d"
    let ts : List Token := [⟨.identifier, "struct", ⟨0, 0⟩⟩, ⟨.identifier, "A", ⟨7, 7⟩⟩,
      ⟨.leftBrace, "\x7b", ⟨8, 8⟩⟩, ⟨.identifier, "x", ⟨9, 9⟩⟩, ⟨.identifier, "int", ⟨11, 11⟩⟩,
      ⟨.semicolon, ";", ⟨14, 14⟩⟩, ⟨.rightBrace, "\x7d", ⟨15, 15⟩⟩, .endAt ⟨16, 16⟩]
    let us := ts.map fun t => if t.kind = .identifier then t else ⟨t.kind, "?", .start⟩
    let vs := ts.map (Token.shift ⟨5, 6⟩)
    List.Forall₂ Token.Alike ts us ∧ SameAnswer ts us (parse ts) (parse us) ∧
      tokenize ⟨false⟩ s = .ok ts ∧ tokenize {} ("/*é*/" ++ s) = .ok vs ∧
      ts.map Token.lexeme = vs.map Token.lexeme ∧
      ∃ e f, parseSource ⟨false⟩ s = .error (.parse e) ∧
        parseSource {} ("/*é*/" ++ s) = .error (.parse f) ∧ SameFault ts vs e f ∧
        e.token.describe = f.token.describe := by
  intro s ts us vs
  have halike : List.Forall₂ Token.Alike ts us := by
    refine List.forall₂_map_right_iff.mpr (List.forall₂_same.mpr fun t _ => ?_)
    split
    · exact ⟨rfl, fun _ => rfl⟩
    · exact ⟨rfl, fun hkind => by contradiction⟩
  have hts : tokenize ⟨false⟩ s = .ok ts := by decide +kernel
  have hvs : tokenize {} ("/*é*/" ++ s) = .ok vs := by decide +kernel
  have hlexemes : ts.map Token.lexeme = vs.map Token.lexeme := rfl
  refine ⟨halike, parse_blind_to_layout.1 ts us halike, hts, hvs, hlexemes, ?_⟩
  rcases parse_blind_to_layout.2 _ _ _ _ ts vs hts hvs hlexemes with ⟨p, hp, -⟩ | hfault
  · obtain ⟨ts', hts', hparse⟩ := parseSource_eq_ok_iff.mp hp
    cases hts.symm.trans hts'
    contradiction
  · exact hfault

end Idl
