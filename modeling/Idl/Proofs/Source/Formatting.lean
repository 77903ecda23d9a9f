import Mathlib.Control.Monad.Basic
import Idl.Proofs.Source.RoundTrip

/-!
# Formatting

The canonical text of what was read from a source has the lexemes of the source, in order: formatting
changes gaps and nothing else (`formatting_keeps_lexemes`).

The symbols that spell a program leave out the texts of its marks. But a mark has only one text
(`IsLexeme.text_eq`), so the lexemes of a source are known from the program alone
(`lexemes_eq_of_parseSource`), and the canonical text is a source of the same program.
-/

namespace Idl

open Grammar

/-! ## The texts of marks -/

/-- The text of a mark. -/
def TokenKind.text : TokenKind → String
  | leftParen => "("
  | rightParen => ")"
  | comma => ","
  | colon => ":"
  | semicolon => ";"
  | leftBrace => "\x7b"
  | rightBrace => "\x7d"
  | arrow => "->"
  | identifier | endOfInput => ""

/-- A lexeme that is no word is the mark of its kind. -/
theorem IsLexeme.text_eq {kind : TokenKind} {text : List Char} (h : IsLexeme kind text)
    (hkind : kind ≠ .identifier) : String.ofList text = kind.text := by
  cases h with
  | word => contradiction
  | @mark _ c hmark =>
    have hmarks : ∀ m ∈ marks, String.ofList [m.2] = m.1.text := by decide
    exact hmarks _ hmark
  | arrow => rfl

/-! ## Lexemes -/

/-- The kind and the text of a token. -/
def Token.lexeme (t : Token) : TokenKind × String := (t.kind, t.text)

/-- The tokens of a source text without their places, that of its end included. -/
def lexemes (d : Dialect) (source : String) : Except LexError (List (TokenKind × String)) :=
  (tokenize d source).map (List.map Token.lexeme)

/-- The kind and the text of the lexeme that the grammar sees as a symbol. -/
def Symbol.lexeme (s : Symbol) : TokenKind × String :=
  (s.kind, match s.kind with
    | .identifier => s.text
    | kind => kind.text)

/-- The lexemes that spell a program, up to the end of the input. -/
def Program.lexemes (p : Program) : List (TokenKind × String) :=
  p.symbols.map Symbol.lexeme ++ [(.endOfInput, "")]

/-- The grammar sees enough of a lexeme to tell which it is. -/
theorem Segment.lexeme_symbol {x : Segment} (h : IsLexeme x.kind x.text) :
    x.symbol.lexeme = (x.kind, .ofList x.text) := by
  by_cases hkind : x.kind = .identifier
  · rw [Segment.symbol, Token.symbol_word hkind, hkind]
    rfl
  · rw [Segment.symbol, Token.symbol_mark rfl hkind, h.text_eq hkind]
    obtain ⟨gap, kind, text⟩ := x
    cases kind <;> rfl

/-- The lexemes of a source are those that spell its program. -/
theorem lexemes_eq_of_parseSource {d : Dialect} {source : String} {p : Program}
    (h : parseSource d source = .ok p) : lexemes d source = .ok p.lexemes := by
  obtain ⟨l, hl, -, htokens, hsymbols, -⟩ := exists_layout_of_parseSource h
  have hsegments : (l.lexemesAt .start).map Token.lexeme = p.symbols.map Symbol.lexeme := by
    rw [← hsymbols, List.map_map]
    refine (Layout.map_lexemesAt Prod.mk .start l).trans (List.map_congr_left fun x hx => ?_)
    exact (Segment.lexeme_symbol (hl.isLexeme x hx)).symm
  rw [lexemes, htokens, ← Layout.tokensAt_start, Layout.tokensAt_eq]
  show Except.ok (List.map Token.lexeme _) = _
  rw [List.map_append, hsegments]
  rfl

/-- What the grammar sees of the lexemes that spell a program is what spells it. -/
theorem symbols_eq_of_parseSource {d : Dialect} {source : String} {p : Program}
    (h : parseSource d source = .ok p) :
    p.symbols = (p.symbols.map Symbol.lexeme).map fun x => (Token.mk x.1 x.2 .start).symbol := by
  obtain ⟨l, hl, -, -, hsymbols, -⟩ := exists_layout_of_parseSource h
  rw [← hsymbols, List.map_map, List.map_map]
  apply List.map_congr_left
  intro x hx
  show x.symbol = (Token.mk x.symbol.lexeme.1 x.symbol.lexeme.2 .start).symbol
  rw [Segment.lexeme_symbol (hl.isLexeme x hx)]
  rfl

/-- Programs that are read from sources with the same lexemes are the same. -/
theorem eq_of_lexemes_eq {d d' : Dialect} {s t : String} {p q : Program}
    (hp : parseSource d s = .ok p) (hq : parseSource d' t = .ok q)
    (h : lexemes d s = lexemes d' t) : p = q := by
  rw [lexemes_eq_of_parseSource hp, lexemes_eq_of_parseSource hq] at h
  have hlexemes : p.symbols.map Symbol.lexeme = q.symbols.map Symbol.lexeme :=
    List.append_cancel_right (Except.ok.inj h)
  apply Program.symbols_injective
  · exact (Program.wellFormed_of_parseSource hp).plain
  · exact (Program.wellFormed_of_parseSource hq).plain
  · rw [symbols_eq_of_parseSource hp, hlexemes, ← symbols_eq_of_parseSource hq]

/-- Formatting keeps the lexemes of a source. The canonical text of what is read from it has them in
every dialect, so two sources have the same canonical text exactly if they have the same lexemes. -/
theorem formatting_keeps_lexemes :
    (∀ d source p, parseSource d source = .ok p →
      ∃ xs, lexemes d source = .ok xs ∧ ∀ d', lexemes d' p.text = .ok xs) ∧
    ∀ d d' s t p q, parseSource d s = .ok p → parseSource d' t = .ok q →
      (p.text = q.text ↔ lexemes d s = lexemes d' t) := by
  constructor
  · intro d source p h
    refine ⟨p.lexemes, lexemes_eq_of_parseSource h, fun d' => ?_⟩
    exact lexemes_eq_of_parseSource ((Program.wellFormed_of_parseSource h).parseSource_text d')
  · intro d d' s t p q hp hq
    constructor
    · intro htext
      -- Both programs are read from the one canonical text.
      have hptext := (Program.wellFormed_of_parseSource hp).parseSource_text d
      have hqtext := (Program.wellFormed_of_parseSource hq).parseSource_text d
      rw [htext, hqtext] at hptext
      rw [lexemes_eq_of_parseSource hp, lexemes_eq_of_parseSource hq, Except.ok.inj hptext]
    · intro hlexemes
      rw [eq_of_lexemes_eq hp hq hlexemes]

/-- The text of an enumeration that is written without a blank too many, but with a comment, has the
lexemes of the source, and so has that of the same enumeration written on many lines. -/
theorem formatting_keeps_lexemes_enum :
    let s := "enum E:int\x7bA,B/* ; */\x7d"
    let t := "enum\nE\n:\nint\n\x7b\nA\n,\nB\n\x7d"
    let p := Program.ofList [.enum "E" (.named "int") ["A", "B"]]
    parseSource {} s = .ok p ∧ parseSource ⟨false⟩ t = .ok p ∧
      (∃ xs, lexemes {} s = .ok xs ∧ ∀ d', lexemes d' p.text = .ok xs) ∧
      lexemes {} s = lexemes ⟨false⟩ t := by
  intro s t p
  have hs : parseSource {} s = .ok p := by decide +kernel
  have ht : parseSource ⟨false⟩ t = .ok p := by decide +kernel
  exact ⟨hs, ht, formatting_keeps_lexemes.1 _ _ _ hs,
    (formatting_keeps_lexemes.2 _ _ _ _ _ _ hs ht).mp rfl⟩

end Idl
