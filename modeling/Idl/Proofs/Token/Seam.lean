import Mathlib.Control.Monad.Basic
import Idl.Proofs.Token.Shift

/-!
# The seam between two texts

Two texts laid end to end are read one after the other, unless a word goes on over the seam: the last
character of the one and the first of the other are both of a word (`Fuses`). Nothing else can straddle
it. A text that has tokens leaves no comment open and ends with no dash and no slash of its own, so what
stands behind it is not looked at before all of it has been read.

The last lexeme of a valid layout is the only one that could grow, and only if it is a word and nothing is
behind it, so that its last character is that of the text (`Layout.Valid.maximal_of_not_fuses`). With that
`read_in_turn` is a case of `tokenize_append`.
-/

namespace Idl

/-- Whether a word goes on from the end of a text into another one. -/
def Fuses (s t : List Char) : Prop :=
  s.getLast?.any isWordChar = true ∧ t.head?.any isWordChar = true

instance (s t : List Char) : Decidable (Fuses s t) := instDecidableAnd

/-- What fuses with a text does so whatever is in front of it. -/
theorem Fuses.behind {s t : List Char} (h : Fuses s t) (front : List Char) : Fuses (front ++ s) t := by
  obtain ⟨hlast, hhead⟩ := h
  refine ⟨?_, hhead⟩
  obtain ⟨c, hc, hword⟩ := (Option.any_eq_true _ _).mp hlast
  rw [List.getLast?_append, hc]
  exact hword

/-- A word that a text ends with is over, if the text does not fuse with what follows. -/
theorem endsWord_of_not_fuses {s t : List Char} {c : Char} (hlast : s.getLast? = some c)
    (hc : isWordChar c = true) (h : ¬ Fuses s t) : EndsWord t := by
  intro e he
  cases hword : isWordChar e with
  | false => rfl
  | true =>
    refine absurd ⟨?_, ?_⟩ h
    · rw [hlast]
      exact hc
    · rw [Option.mem_def.mp he]
      exact hword

/-- What begins a word goes on with one. -/
theorem isWordChar_of_isWordStart {c : Char} (h : isWordStart c = true) : isWordChar c = true := by
  unfold isWordStart at h
  unfold isWordChar Char.isAlphanum
  rcases Bool.or_eq_true_iff.mp h with h | h <;> simp [h]

/-- A word ends with a character of a word. -/
theorem IsLexeme.exists_getLast? {text : List Char} (h : IsLexeme .identifier text) :
    ∃ c, text.getLast? = some c ∧ isWordChar c = true := by
  cases h with
  | @word c cs hstart hchars =>
    obtain ⟨e, he⟩ := Option.isSome_iff_exists.mp (List.getLast?_isSome.mpr (List.cons_ne_nil c cs))
    refine ⟨e, he, ?_⟩
    rcases List.mem_cons.mp (List.mem_of_getLast? he) with rfl | hmem
    · exact isWordChar_of_isWordStart hstart
    · exact hchars e hmem
  | mark hmark => exact absurd rfl (kind_of_mark hmark).1

namespace Layout

/-- The last lexeme of a valid layout does not grow, if the text that it makes up does not fuse with what
stands behind. -/
theorem Valid.maximal_of_not_fuses {d : Dialect} {l : Layout} (h : l.Valid d) {rest : List Char}
    (hseam : ¬ Fuses l.text rest) :
    ∀ x ∈ l.segments.getLast?, Maximal x.kind (l.tail ++ rest) := by
  induction h with
  | nil => exact fun x hx => by contradiction
  | @cons x l hx hl ih =>
    rw [text_cons, ← List.append_assoc] at hseam
    cases hl with
    -- The last lexeme: what follows it is the last gap, or, if that is empty, the seam.
    | @nil tail hgap =>
      intro y hy hword
      obtain rfl : x = y := Option.some.inj hy
      cases tail with
      | cons c cs => exact (hx.maximal hword).append (List.cons_ne_nil c cs) rest
      | nil =>
        have hlexeme := hx.lexeme
        rw [hword] at hlexeme
        obtain ⟨c, hlast, hc⟩ := hlexeme.exists_getLast?
        refine endsWord_of_not_fuses ?_ hc hseam
        rw [List.getLast?_append, List.getLast?_append, hlast]
        rfl
    -- Another lexeme follows, and the last one is among the rest.
    | @cons y m hy hm =>
      intro z hz
      refine ih (fun hfuses => hseam (hfuses.behind _)) z ?_
      have hlast : z ∈ (x :: y :: m.segments).getLast? := hz
      rw [List.getLast?_cons_cons] at hlast
      exact hlast

end Layout

/-- What is read of two texts laid end to end, given the tokens of the first: these without their end, and
behind them what is read of the second by itself, further on by the characters and the bytes of the
first. -/
structure ReadInTurn (d : Dialect) (s t : String) (ts : List Token) : Prop where
  /-- The tokens of the first text are lexemes and, behind them, its end. -/
  first : ∃ lexemes, ts = lexemes ++ [Token.endAt ⟨s.length, s.utf8ByteSize⟩] ∧
    ∀ x ∈ lexemes, x.kind ≠ .endOfInput
  /-- If the second text has tokens, they follow the lexemes of the first. -/
  ok : ∀ us, tokenize d t = .ok us →
    tokenize d (s ++ t) = .ok (ts.dropLast ++ us.map (Token.shift ⟨s.length, s.utf8ByteSize⟩))
  /-- If it has none, there is the same fault. -/
  error : ∀ e, tokenize d t = .error e → ∃ e', tokenize d (s ++ t) = .error e' ∧
    e' = e.shift ⟨s.length, s.utf8ByteSize⟩ ∧
    e'.position.chars = s.length + e.position.chars ∧
    e'.diagnostic.label.span =
      ⟨s.utf8ByteSize + e.diagnostic.label.span.start, e.diagnostic.label.span.length⟩

/-- Two texts laid end to end are read one after the other, unless a word goes on from the first into the
second: a lexeme or a gap never straddles the seam, and neither does a fault. -/
theorem read_in_turn {d : Dialect} {s t : String} {ts : List Token} (hs : tokenize d s = .ok ts)
    (hseam : ¬ Fuses s.toList t.toList) : ReadInTurn d s t ts := by
  obtain ⟨l, hl, htext, htokens⟩ := Layout.exists_of_tokenize hs
  rw [← htext] at hseam
  have hjoined := tokenize_append hl htext (hl.maximal_of_not_fuses hseam)
  have hlength : Position.ofString s = ⟨s.length, s.utf8ByteSize⟩ :=
    Position.ext (Position.chars_ofString s) (Position.bytes_ofString s)
  -- The tokens of the first text, taken apart into its lexemes and its end.
  have hfirst : ts = l.lexemesAt .start ++ [Token.endAt ⟨s.length, s.utf8ByteSize⟩] := by
    rw [← htokens, ← Layout.tokensAt_start, Layout.tokensAt_eq, Position.start_add, htext, ← hlength]
    rfl
  have hlexemes : ts.dropLast = l.lexemesAt .start := by rw [hfirst, List.dropLast_concat]
  rw [hlength] at hjoined
  refine ⟨⟨_, hfirst, hl.kind_lexemesAt .start⟩, ?_, ?_⟩
  · intro us hus
    rw [hjoined, hus, hlexemes]
    rfl
  · intro e he
    refine ⟨_, by rw [hjoined, he]; rfl, rfl, ?_, ?_⟩ <;> cases e <;> rfl

/-- Behind a word and a comment that is longer in bytes than in characters, an arrow is read as it is by
itself, and a dash without one is the same fault, further on. -/
theorem read_in_turn_behind_comment :
    let s := "a/* é */"
    let ts := [⟨.identifier, "a", ⟨0, 0⟩⟩, Token.endAt ⟨8, 9⟩]
    tokenize {} s = .ok ts ∧
      ¬ Fuses s.toList "-> b".toList ∧ ReadInTurn {} s "-> b" ts ∧
      ¬ Fuses s.toList "b -".toList ∧ ReadInTurn {} s "b -" ts := by
  intro s ts
  have hs : tokenize {} s = .ok ts := by decide +kernel
  have harrow : ¬ Fuses s.toList "-> b".toList := by decide
  have hdash : ¬ Fuses s.toList "b -".toList := by decide
  exact ⟨hs, harrow, read_in_turn hs harrow, hdash, read_in_turn hs hdash⟩

/-- A word and a digit fuse: they are one word, though the digit by itself is unknown. -/
example :
    Fuses "a".toList "1".toList ∧
      tokenize {} "1" = .error (.unknownToken '1' ⟨0, 0⟩) ∧
      tokenize {} ("a" ++ "1") = .ok [⟨.identifier, "a1", ⟨0, 0⟩⟩, Token.endAt ⟨2, 2⟩] := by
  decide +kernel

end Idl
