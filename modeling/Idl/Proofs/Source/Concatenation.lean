import Mathlib.Control.Monad.Basic
import Idl.Proofs.Source.RoundTrip
import Idl.Proofs.Token.Shift

/-!
# Source texts laid end to end

A source that is read as a program may be followed by any other source, with nothing in between: the
declarations of the one are followed by those of the other, and a fault of the other is the same fault,
further on (`parseSource_append`).

Three things make it so. A program ends with a brace, so no lexeme of the first source goes on in the
second, and the tokens of the second are read as if by themselves (`tokenize_append`). Between two
declarations nothing is carried over but the declarations already read. And neither phase looks at
where a token is, so that moving all of them moves the fault and nothing else (`runProgram_shift`). The end of
the input is one of the tokens, and is moved with them.
-/

namespace Idl

open Grammar

/-! ## Moving faults -/

/-- The same error in a text where `p` stands in front. -/
def ParseError.shift (p : Position) (e : ParseError) : ParseError := { e with token := e.token.shift p }

namespace SourceError

/-- The same error in a text where `p` stands in front. -/
def shift (p : Position) : SourceError → SourceError
  | lex e => lex (e.shift p)
  | parse e => parse (e.shift p)

/-- Where the error is. -/
def position : SourceError → Position
  | lex e => e.position
  | parse e => e.token.position

/-- What the error is about: a character, a comment opener, or a token as it is shown. -/
def found : SourceError → String
  | lex (.unknownToken c _) => .singleton c
  | lex (.unterminatedComment _) => "/*"
  | parse e => e.token.describe

end SourceError

/-! ## Programs behind others -/

/-- No step depends on where its token is. -/
theorem Grammar.Place.step?_shift (limit : Option Nat) (place : Place) (p : Position) (t : Token) :
    place.step? limit (t.shift p) = place.step? limit t := by
  rw [← Place.step?_tokenOf limit place (t.shift p), ← Place.step?_tokenOf limit place t]
  rfl

/-- Reading on behind other declarations gives these first, and moving the tokens moves the error. -/
theorem runProgram_shift (limit : Option Nat) (before : List Declaration) (p : Position) (stop : Token)
    (done : List Declaration) (place : Place) (ts : List Token) :
    (runProgram limit (stop.shift p) (done ++ before.reverse) place (ts.map (Token.shift p))).1 =
      ((runProgram limit stop done place ts).1.map (before ++ ·)).mapError (ParseError.shift p) := by
  have hreverse : ∀ done : List Declaration, (done ++ before.reverse).reverse = before ++ done.reverse :=
    fun done => by rw [List.reverse_append, List.reverse_reverse]
  fun_induction runProgram limit stop done place ts with
  | case1 done =>
    rw [List.map_nil, runProgram.eq_1, hreverse]
    rfl
  | case2 done place hplace =>
    rw [List.map_nil, runProgram.eq_2 _ _ _ _ hplace]
    rfl
  | case3 done t ts hend =>
    rw [List.map_cons, runProgram.eq_3 _ _ _ (t.shift p) _ hend, hreverse]
    rfl
  | case4 done t ts place hstep hend =>
    rw [List.map_cons, runProgram.eq_4 _ _ _ (t.shift p) _ _ hend, Place.step?_shift, hstep]
    rfl
  | case5 done t ts place next hstep hend ih =>
    rw [List.map_cons, runProgram.eq_4 _ _ _ (t.shift p) _ _ hend, Place.step?_shift, hstep]
    exact ih
  | case6 done t ts place decl hstep hend ih =>
    rw [List.map_cons, runProgram.eq_4 _ _ _ (t.shift p) _ _ hend, Place.step?_shift, hstep]
    exact ih

/-- A token that has its place in a declaration does not end the input, so the end is behind it. -/
theorem Grammar.Place.exists_end_of_step? {limit : Option Nat} {place : Place} {t : Token} {ts : List Token}
    {step : Step} (hstep : place.step? limit t = some step) (h : ∃ u ∈ t :: ts, u.kind = .endOfInput) :
    ∃ u ∈ ts, u.kind = .endOfInput := by
  obtain ⟨u, hu, hkind⟩ := h
  obtain rfl | hu := List.mem_cons.mp hu
  · rw [place.step?_endOfInput limit hkind] at hstep
    contradiction
  · exact ⟨u, hu, hkind⟩

/-- Where a token ends the input, none is made up for it. -/
theorem runProgram_of_end (limit : Option Nat) (stop stop' : Token) {done : List Declaration} {place : Place}
    {ts : List Token} (h : ∃ t ∈ ts, t.kind = .endOfInput) :
    runProgram limit stop done place ts = runProgram limit stop' done place ts := by
  fun_induction runProgram limit stop done place ts with
  | case1 done => simp at h
  | case2 done place hplace => simp at h
  | case3 done t ts hend => exact (runProgram.eq_3 _ _ _ t _ hend).symm
  | case4 done t ts place hstep hend => rw [runProgram.eq_4 _ _ _ t _ _ hend, hstep]
  | case5 done t ts place next hstep hend ih =>
    rw [runProgram.eq_4 _ _ _ t _ _ hend, hstep]
    exact ih (Place.exists_end_of_step? hstep h)
  | case6 done t ts place decl hstep hend ih =>
    rw [runProgram.eq_4 _ _ _ t _ _ hend, hstep]
    exact ih (Place.exists_end_of_step? hstep h)

/-- Tokens that spell a program may be followed by any others that say where they end. The declarations of
these are then added to those of the program. -/
theorem parse_append {ts us : List Token} {p : Program} (hsymbols : ts.map Token.symbol = p.symbols)
    (hp : ∀ d ∈ p.toList, d.isPlain ∧ d.Fits (some maxTypeDepth)) (hus : ∃ u ∈ us, u.kind = .endOfInput)
    (q : Position) :
    parse (ts ++ us.map (Token.shift q)) =
      ((parse us).map fun r => .ofList (p.toList ++ r.toList)).mapError (ParseError.shift q) := by
  let moved := us.map (Token.shift q)
  have hend : ∃ u ∈ moved, u.kind = .endOfInput := by
    obtain ⟨u, hu, hkind⟩ := hus
    exact ⟨u.shift q, List.mem_map_of_mem hu, hkind⟩
  have hrun := runProgram_walk (.endAfter (ts ++ moved)) (walk?_of_symbols hsymbols hp) moved
  have hshift := runProgram_shift (some maxTypeDepth) p.toList q (.endAfter us) [] .keyword us
  rw [List.nil_append, ← runProgram_of_end _ (.endAfter (ts ++ moved)) _ hend, ← hrun] at hshift
  rw [parse, parseWithin, parse, parseWithin]
  change Except.map _ (runProgram _ _ Progress.start.done Progress.start.place _).1 = _
  rw [hshift]
  generalize (runProgram (some maxTypeDepth) (.endAfter us) [] .keyword us).1 = answer
  cases answer <;> rfl

/-! ## The end of a program -/

/-- A declaration ends with a brace. -/
theorem Declaration.exists_symbols_concat (decl : Declaration) :
    ∃ front, decl.symbols = front ++ [.mark .rightBrace] := by
  cases decl with
  | enum n u ns =>
    exact ⟨.word "enum" :: .word n :: .mark .colon ::
      (u.symbols ++ .mark .leftBrace :: enumeratorSymbols ns), by simp [symbols]⟩
  | record form n parent members =>
    exact ⟨.word form.keyword :: .word n ::
      (parentSymbols parent ++ .mark .leftBrace :: members.flatMap memberSymbols), by simp [symbols]⟩

/-- A program that is not empty ends with a brace. -/
theorem Program.getLast?_symbols (p : Program) : ∀ s ∈ p.symbols.getLast?, s = .mark .rightBrace := by
  intro s hs
  unfold symbols at hs
  rcases List.eq_nil_or_concat p.toList with hnil | ⟨ds, decl, hconcat⟩
  · rw [hnil] at hs
    contradiction
  · obtain ⟨front, hfront⟩ := decl.exists_symbols_concat
    rw [hconcat, List.concat_eq_append, List.flatMap_append, List.flatMap_singleton, hfront,
      ← List.append_assoc, List.getLast?_concat] at hs
    exact (Option.some.inj hs).symm

/-- Nothing makes the last lexeme of a program longer. -/
theorem Layout.maximal_of_symbols {l : Layout} {p : Program}
    (h : l.segments.map Segment.symbol = p.symbols) (rest : List Char) :
    ∀ x ∈ l.segments.getLast?, Maximal x.kind rest := by
  intro x hx hword
  have hsymbol : x.symbol = .mark .rightBrace := by
    apply p.getLast?_symbols
    rw [← h, List.getLast?_map, Option.mem_def.mp hx]
    rfl
  have hkind := congrArg Symbol.kind hsymbol
  rw [Segment.symbol, Token.kind_symbol, hword] at hkind
  contradiction

/-! ## Sources -/

/-- What is read of a source behind another that is read as a program: the declarations of both, or the
fault of the second, moved. -/
def sourceAnswerBehind (s : String) (p : Program) :
    Except SourceError Program → Except SourceError Program
  | .ok q => .ok (.ofList (p.toList ++ q.toList))
  | .error e => .error (e.shift (.ofString s))

/-- A source is read behind a program as it is by itself. -/
theorem parseSource_behind {d : Dialect} {s : String} {p : Program} (h : parseSource d s = .ok p)
    (t : String) : parseSource d (s ++ t) = sourceAnswerBehind s p (parseSource d t) := by
  obtain ⟨l, hl, htext, -, hsymbols, hfits⟩ := exists_layout_of_parseSource h
  have htokens := tokenize_append hl htext (Layout.maximal_of_symbols hsymbols (l.tail ++ t.toList))
  rw [parseSource, htokens, parseSource]
  cases ht : tokenize d t with
  | error e => rfl
  | ok ts =>
    obtain ⟨m, -, -, rfl⟩ := Layout.exists_of_tokenize ht
    have hend : ∃ u ∈ m.tokens, u.kind = .endOfInput :=
      ⟨_, List.mem_append_right _ (List.mem_singleton_self _), rfl⟩
    have hspelled := (Layout.symbols_lexemesAt .start l).trans hsymbols
    show (parse (l.lexemesAt .start ++ m.tokens.map (Token.shift _))).mapError _ = _
    rw [parse_append hspelled hfits hend]
    show _ = sourceAnswerBehind s p ((parse m.tokens).mapError .parse)
    cases parse m.tokens <;> rfl

namespace SourceError

/-- Whether an error is the same as another, but shown for a text that stands behind `s`. -/
structure SameBehind (s : String) (e e' : SourceError) : Prop where
  /-- It is of the same phase and the same kind, and only its place is another. -/
  shift : e' = e.shift (.ofString s)
  /-- It is about the same character or the same token. -/
  found : e'.found = e.found
  /-- It has the same code. -/
  code : e'.diagnostic.code = e.diagnostic.code
  /-- It has the same help. -/
  help : e'.diagnostic.help = e.diagnostic.help
  /-- It is further on by the characters of `s`. -/
  offset : e'.position.chars = s.length + e.position.chars
  /-- Its label is further on by the bytes of `s`. -/
  label_start : e'.diagnostic.label.span.start = s.utf8ByteSize + e.diagnostic.label.span.start
  /-- Its label is as long. -/
  label_length : e'.diagnostic.label.span.length = e.diagnostic.label.span.length

/-- An error that is moved by the length of a text is the same behind the text. -/
theorem sameBehind_shift (s : String) (e : SourceError) : e.SameBehind s (e.shift (.ofString s)) := by
  constructor
  case offset =>
    rw [← Position.chars_ofString]
    rcases e with (_ | _) | _ <;> rfl
  case label_start =>
    rw [← Position.bytes_ofString]
    rcases e with (_ | _) | _ <;> rfl
  all_goals rcases e with (_ | _) | _ <;> rfl

end SourceError

/-- A source that is read as a program may stand in front of any other. If that is read as a program,
the declarations of the two follow each other; if it is not, it has the same error as by itself, further
on by the characters and the bytes of the first. -/
theorem parseSource_append {d : Dialect} {s : String} {p : Program}
    (h : parseSource d s = .ok p) (t : String) :
    (∀ q, parseSource d t = .ok q →
      parseSource d (s ++ t) = .ok (.ofList (p.toList ++ q.toList))) ∧
    ∀ e, parseSource d t = .error e →
      ∃ e', parseSource d (s ++ t) = .error e' ∧ e.SameBehind s e' := by
  constructor
  · intro q hq
    rw [parseSource_behind h, hq]
    rfl
  · intro e he
    rw [parseSource_behind h, he]
    exact ⟨_, rfl, e.sameBehind_shift s⟩

/-- Behind a struct and a comment that is longer in bytes than in characters, a second struct is added
to the first, and the fault of an enumeration without a colon is found where the second begins. -/
theorem parseSource_append_struct :
    let s := "struct A \x7b\x7d/* é */"
    let p := Program.ofList [.record .struct "A" none []]
    let q := Program.ofList [.record .struct "B" (some (.named "A")) []]
    let e := SourceError.parse ⟨⟨.semicolon, ";", ⟨7, 7⟩⟩, .enumColon⟩
    parseSource {} s = .ok p ∧
      parseSource {} (s ++ "struct B: A \x7b\x7d") = .ok (.ofList (p.toList ++ q.toList)) ∧
      ∃ e', parseSource {} (s ++ "enum B ;") = .error e' ∧ e.SameBehind s e' := by
  intro s p q e
  have hs : parseSource {} s = .ok p := by decide +kernel
  have hq : parseSource {} "struct B: A \x7b\x7d" = .ok q := by decide +kernel
  have he : parseSource {} "enum B ;" = .error e := by decide +kernel
  exact ⟨hs, (parseSource_append hs _).1 q hq, (parseSource_append hs _).2 e he⟩

end Idl
