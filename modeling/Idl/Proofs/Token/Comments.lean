import Idl.Proofs.Token.Faults
import Idl.Proofs.Token.Seam

/-!
# Comments are blanks

A comment does to the tokens around it what as many spaces would do. `blankComments` puts the spaces in
its place: from an opener on to the closer that follows. It is a function of the text alone, which knows
nothing of lexemes, and still it blanks just what the reading of tokens skips, since no lexeme has a slash
in it, so that an opener always opens a comment (`Layout.LeadsTo.text_blanked`).

The blanked layout is one of every dialect, those without comments included
(`Layout.LeadsTo.blanked`): its gaps are blanks, and a word that ended in front of a comment ends in front
of a space. Its lexemes stand behind as many characters as before, though not behind as many bytes. And
without a slash there is nothing to blank. `dialects_agree` says what this makes of the two ways of
reading a source.
-/

namespace Idl

/-! ## Texts without a slash -/

/-- There is no slash in a lexeme. -/
theorem IsLexeme.slash_notMem {kind : TokenKind} {text : List Char} (h : IsLexeme kind text) :
    '/' ∉ text := by
  cases h with
  | @word c cs hstart hchars =>
    intro hmem
    rcases List.mem_cons.mp hmem with rfl | hmem
    · exact absurd hstart (by decide)
    · exact absurd (hchars '/' hmem) (by decide)
  | mark hmark =>
    have hmarks : ∀ m ∈ marks, '/' ∉ [m.2] := by decide
    exact hmarks _ hmark
  | arrow => decide

/-- A blank is no slash. -/
theorem ne_slash_of_isBlank {c : Char} (h : isBlank c = true) : c ≠ '/' := by
  rintro rfl
  contradiction

/-- There is no slash in a gap where comments are not read. -/
theorem Gap.slash_notMem {d : Dialect} (hd : d.blockComments = false) {gap : List Char}
    (h : Gap d gap) : '/' ∉ gap := by
  induction h with
  | nil => exact List.not_mem_nil
  | blank hblank _ ih => exact List.not_mem_cons_of_ne_of_not_mem (ne_slash_of_isBlank hblank).symm ih
  | comment hallowed =>
    rw [hd] at hallowed
    contradiction

/-- A gap without a slash is one in every dialect. -/
theorem Gap.of_slash_notMem {d : Dialect} {gap : List Char} (h : Gap d gap) (hslash : '/' ∉ gap)
    (d' : Dialect) : Gap d' gap := by
  induction h with
  | nil => exact .nil
  | blank hblank _ ih => exact .blank hblank (ih (List.not_mem_of_not_mem_cons hslash))
  | comment => exact absurd List.mem_cons_self hslash

namespace Layout

/-- There is no slash in a text that is laid out where comments are not read. -/
theorem Valid.slash_notMem {d : Dialect} (hd : d.blockComments = false) {l : Layout} (h : l.Valid d) :
    '/' ∉ l.text := by
  induction h with
  | nil hgap => exact hgap.slash_notMem hd
  | cons hx _ ih =>
    rw [text_cons, List.mem_append, List.mem_append, not_or, not_or]
    exact ⟨hx.gap.slash_notMem hd, hx.lexeme.slash_notMem, ih⟩

/-- A text without a slash is laid out alike in every dialect. -/
theorem Valid.of_slash_notMem {d : Dialect} {l : Layout} (h : l.Valid d) (hslash : '/' ∉ l.text)
    (d' : Dialect) : l.Valid d' := by
  induction h with
  | nil hgap => exact .nil (hgap.of_slash_notMem hslash d')
  | cons hx _ ih =>
    rw [text_cons, List.mem_append, List.mem_append, not_or, not_or] at hslash
    exact .cons ⟨hx.gap.of_slash_notMem hslash.1 d', hx.lexeme, hx.maximal⟩ (ih hslash.2.2)

end Layout

/-- Without comments a source has tokens exactly if it has these tokens with comments, and no slash. -/
theorem tokenize_withoutComments_eq_ok_iff {s : String} {ts : List Token} :
    tokenize ⟨false⟩ s = .ok ts ↔ tokenize ⟨true⟩ s = .ok ts ∧ '/' ∉ s.toList := by
  constructor
  · intro h
    obtain ⟨l, hl, htext, rfl⟩ := Layout.exists_of_tokenize h
    have hslash := hl.slash_notMem rfl
    refine ⟨(hl.of_slash_notMem hslash ⟨true⟩).tokenize_eq_ok htext, ?_⟩
    rwa [← htext]
  · rintro ⟨h, hslash⟩
    obtain ⟨l, hl, htext, rfl⟩ := Layout.exists_of_tokenize h
    rw [← htext] at hslash
    exact (hl.of_slash_notMem hslash ⟨false⟩).tokenize_eq_ok htext

/-! ## Blanking comments -/

mutual

/-- A text with a space in place of each character of its comments, where one that is never closed goes on
to the end. -/
def blankComments : List Char → List Char
  | '/' :: '*' :: body => ' ' :: ' ' :: blankBody body
  | c :: cs => c :: blankComments cs
  | [] => []

/-- A text that begins inside a comment, with a space in place of each character of this comment and of
the others. -/
def blankBody : List Char → List Char
  | '*' :: '/' :: rest => ' ' :: ' ' :: blankComments rest
  | _ :: cs => ' ' :: blankBody cs
  | [] => []

end

/-- What opens no comment stays. -/
theorem blankComments_cons {c : Char} (h : c ≠ '/') (cs : List Char) :
    blankComments (c :: cs) = c :: blankComments cs :=
  blankComments.eq_2 c cs fun _ hc _ => h hc

/-- A text without a slash stays, whatever follows it. -/
theorem blankComments_append {cs : List Char} (h : '/' ∉ cs) (rest : List Char) :
    blankComments (cs ++ rest) = cs ++ blankComments rest := by
  induction cs with
  | nil => rfl
  | cons c cs ih =>
    have hc : c ≠ '/' := fun hc => h (by rw [hc]; exact List.mem_cons_self)
    rw [List.cons_append, blankComments_cons hc, ih (List.not_mem_of_not_mem_cons h), List.cons_append]

/-- The body of a comment is blanked, and the closer behind it. -/
theorem blankBody_append {body : List Char} (hbody : ¬ ['*', '/'] <:+: body) (rest : List Char) :
    blankBody (body ++ '*' :: '/' :: rest) =
      List.replicate (body.length + 2) ' ' ++ blankComments rest := by
  induction body with
  | nil => rfl
  | cons c body ih =>
    have htail : ¬ ['*', '/'] <:+: body := fun h => hbody (h.trans (List.suffix_cons _ _).isInfix)
    rw [List.cons_append, blankBody.eq_2 _ _ (not_closer_of_body hbody), ih htail]
    rfl

/-- A comment is blanked from its opener to its closer. -/
theorem blankComments_comment {body : List Char} (hopen : ¬ ['*', '/'] <:+: body) (rest : List Char) :
    blankComments ('/' :: '*' :: (body ++ '*' :: '/' :: rest)) =
      List.replicate (body.length + 4) ' ' ++ blankComments rest := by
  rw [blankComments.eq_1, blankBody_append hopen]
  rfl

/-- Blanking comments replaces characters one by one. -/
theorem length_blankComments (cs : List Char) : (blankComments cs).length = cs.length := by
  refine blankComments.induct (fun cs => (blankComments cs).length = cs.length)
    (fun cs => (blankBody cs).length = cs.length) ?opener ?other ?nil ?closer ?inside ?unclosed cs
  case opener =>
    intro body ih
    rw [blankComments.eq_1, List.length_cons, List.length_cons, ih]
    rfl
  case other =>
    intro c cs hopen ih
    rw [blankComments.eq_2 c cs hopen, List.length_cons, ih, List.length_cons]
  case nil => rfl
  case closer =>
    intro rest ih
    rw [blankBody.eq_1, List.length_cons, List.length_cons, ih]
    rfl
  case inside =>
    intro c cs hclose ih
    rw [blankBody.eq_2 c cs hclose, List.length_cons, ih, List.length_cons]
  case unclosed => rfl

/-- The first character stays or is blanked. -/
theorem head?_blankComments (c : Char) (cs : List Char) :
    (blankComments (c :: cs)).head? = some c ∨ (blankComments (c :: cs)).head? = some ' ' := by
  unfold blankComments
  split
  · exact .inr rfl
  · next heq =>
    obtain ⟨rfl, rfl⟩ := List.cons.inj heq
    exact .inl rfl
  · contradiction

/-- Where a word ends, it ends after blanking what follows. -/
theorem EndsWord.blankComments {cs rest : List Char} (h : EndsWord (cs ++ rest)) :
    EndsWord (blankComments cs ++ rest) := by
  cases cs with
  | nil => exact h
  | cons c cs =>
    intro e he
    obtain ⟨b, bs, hb⟩ : ∃ b bs, Idl.blankComments (c :: cs) = b :: bs := by
      apply List.exists_cons_of_length_eq_add_one (n := cs.length)
      exact length_blankComments _
    have hhead := head?_blankComments c cs
    rw [hb] at he hhead
    obtain rfl : b = e := Option.some.inj he
    rcases hhead with hc | hspace
    · obtain rfl : b = c := Option.some.inj hc
      exact h b rfl
    · obtain rfl : b = ' ' := Option.some.inj hspace
      rfl

/-! ## Blanked layouts -/

/-- Blanks are a gap in every dialect. -/
theorem Gap.replicate_append {d : Dialect} {gap : List Char} (h : Gap d gap) (n : Nat) :
    Gap d (List.replicate n ' ' ++ gap) := by
  induction n with
  | zero => exact h
  | succ n ih => exact .blank rfl ih

/-- A gap is blanked by itself, whatever follows it. -/
theorem Gap.blankComments_append {d : Dialect} {gap : List Char} (h : Gap d gap) (rest : List Char) :
    blankComments (gap ++ rest) = blankComments gap ++ blankComments rest := by
  induction h with
  | nil => rfl
  | blank hblank _ ih =>
    have hc := ne_slash_of_isBlank hblank
    rw [List.cons_append, blankComments_cons hc, blankComments_cons hc, ih, List.cons_append]
  | @comment body cs _ hopen _ ih =>
    have happend : '/' :: '*' :: (body ++ '*' :: '/' :: cs) ++ rest =
        '/' :: '*' :: (body ++ '*' :: '/' :: (cs ++ rest)) := by simp
    rw [happend, blankComments_comment hopen, blankComments_comment hopen, ih, List.append_assoc]

/-- A blanked gap is one in every dialect. -/
theorem Gap.blankComments {d : Dialect} {gap : List Char} (h : Gap d gap) (d' : Dialect) :
    Gap d' (blankComments gap) := by
  induction h with
  | nil => exact .nil
  | blank hblank _ ih =>
    rw [blankComments_cons (ne_slash_of_isBlank hblank)]
    exact .blank hblank ih
  | comment _ hopen _ ih =>
    rw [blankComments_comment hopen]
    exact ih.replicate_append _

/-- The segment with its comments blanked. -/
def Segment.blanked (x : Segment) : Segment := { x with gap := blankComments x.gap }

namespace Layout

/-- The layout with its comments blanked. -/
def blanked (l : Layout) : Layout := ⟨l.segments.map Segment.blanked, blankComments l.tail⟩

/-- The first segment is blanked by itself. -/
theorem blanked_cons (x : Segment) (l : Layout) : (cons x l).blanked = cons x.blanked l.blanked := rfl

/-- A blanked layout makes up the blanked text. -/
theorem LeadsTo.text_blanked {d : Dialect} {l : Layout} {rest : List Char} (h : l.LeadsTo d rest) :
    l.blanked.text = blankComments l.text := by
  induction h with
  | nil => rfl
  | @cons x l hx _ ih =>
    rw [blanked_cons, text_cons, text_cons, hx.gap.blankComments_append,
      blankComments_append hx.lexeme.slash_notMem, ih]
    rfl

/-- A blanked layout leads up to the same text in every dialect. -/
theorem LeadsTo.blanked {d : Dialect} {l : Layout} {rest : List Char} (h : l.LeadsTo d rest)
    (d' : Dialect) : l.blanked.LeadsTo d' rest := by
  induction h with
  | nil hgap => exact .nil (hgap.blankComments d')
  | @cons x l hx hl ih =>
    have hsegment : x.blanked.Valid d' (l.blanked.text ++ rest) := by
      refine ⟨hx.gap.blankComments d', hx.lexeme, fun hword => ?_⟩
      rw [hl.text_blanked]
      exact (hx.maximal hword).blankComments
    exact .cons hsegment ih

/-- A layout that leads up to nothing more is valid. -/
theorem LeadsTo.valid {d : Dialect} {l : Layout} (h : l.LeadsTo d []) : l.Valid d := by
  induction h with
  | nil hgap => exact .nil hgap
  | cons hx _ ih =>
    rw [List.append_nil] at hx
    exact .cons hx ih

/-- A valid layout leads up to the end of the text. -/
theorem Valid.leadsTo_nil {d : Dialect} {l : Layout} (h : l.Valid d) : l.LeadsTo d [] :=
  h.leadsTo (h.maximal_of_not_fuses fun hfuses => absurd hfuses.2 (by decide))

end Layout

/-! ## The same tokens -/

/-- What a token is and behind how many characters it stands. -/
def Token.inChars (t : Token) : TokenKind × String × Nat := (t.kind, t.text, t.position.chars)

namespace Layout

/-- The lexemes of a blanked layout stand behind as many characters. -/
theorem inChars_lexemesAt_blanked {p q : Position} (hchars : p.chars = q.chars) (l : Layout) :
    (l.blanked.lexemesAt p).map Token.inChars = (l.lexemesAt q).map Token.inChars := by
  induction l generalizing p q with
  | nil tail =>
    rw [lexemesAt, lexemesAt, blanked, List.map_nil, tokensAt_nil, tokensAt_nil]
    rfl
  | cons x l ih =>
    have hgap : (p + .ofChars x.blanked.gap).chars = (q + .ofChars x.gap).chars := by
      show p.chars + (blankComments x.gap).length = q.chars + x.gap.length
      rw [length_blankComments, hchars]
    have hrest : (p + .ofChars x.blanked.gap + .ofChars x.blanked.text).chars =
        (q + .ofChars x.gap + .ofChars x.text).chars := by
      rw [Position.chars_add, hgap]
      rfl
    rw [blanked_cons, lexemesAt_cons, lexemesAt_cons, List.map_cons, List.map_cons, ih hrest]
    exact congrArg (fun n => (x.kind, String.ofList x.text, n) :: _) hgap

/-- The tokens of a blanked layout stand behind as many characters. -/
theorem LeadsTo.inChars_tokens_blanked {d : Dialect} {l : Layout} {rest : List Char}
    (h : l.LeadsTo d rest) : l.blanked.tokens.map Token.inChars = l.tokens.map Token.inChars := by
  have hlength : (l.blanked.text).length = l.text.length := by
    rw [h.text_blanked, length_blankComments]
  rw [← tokensAt_start, ← tokensAt_start, tokensAt_eq, tokensAt_eq, List.map_append, List.map_append,
    inChars_lexemesAt_blanked rfl]
  simp [Token.inChars, Token.endAt, Position.ofChars, hlength]

end Layout

/-- Where a comment is not read, its opener is an unknown character. -/
theorem nothingBegins_slash {d : Dialect} (hd : d.blockComments = false) (rest : List Char) :
    NothingBegins d '/' rest where
  blank := rfl
  word := by decide
  mark := by decide
  arrow := fun h => absurd h.1 (by decide)
  comment := fun h => by rw [hd] at h; contradiction

/-- What begins nothing begins nothing where comments are not read. -/
theorem NothingBegins.withoutComments {d d' : Dialect} {c : Char} {rest : List Char}
    (h : NothingBegins d c rest) (hd : d'.blockComments = false) : NothingBegins d' c rest where
  blank := h.blank
  word := h.word
  mark := h.mark
  arrow := h.arrow
  comment := fun h => by rw [hd] at h; contradiction

/-- The source with a space in place of each character of the comments among its first `k`. -/
def blankedUpTo (source : String) (k : Nat) : String :=
  .ofList (blankComments (source.toList.take k) ++ source.toList.drop k)

/-- A reached place of a source is reached in every dialect if the comments in front are blanked. -/
theorem Reached.tokenize_blankedUpTo {d d' : Dialect} {source : String} {k : Nat}
    (h : Reached d source k) {c : Char} {rest : List Char} (hrest : source.toList.drop k = c :: rest)
    (hnothing : NothingBegins d' c rest) :
    ∃ q, tokenize d' (blankedUpTo source k) = .error (.unknownToken c q) ∧ q.chars = k := by
  obtain ⟨l, tail, htext, rfl, hl⟩ := h
  rw [htext, List.drop_left] at hrest
  subst hrest
  refine ⟨.ofChars l.blanked.text, ?_, ?_⟩
  · apply tokenize_eq_error_iff.mpr
    refine ⟨l.blanked, c :: rest, ?_, hl.blanked d', .unknown hnothing⟩
    rw [blankedUpTo, String.toList_ofList, htext, List.take_left, List.drop_left, hl.text_blanked]
  · show l.blanked.text.length = l.text.length
    rw [hl.text_blanked, length_blankComments]

/-- What the readings of a source with comments and without them have to do with each other. -/
structure DialectsAgree (source : String) : Prop where
  /-- Without comments there are tokens exactly if there are the same ones with comments, and no slash. -/
  same : ∀ ts, tokenize ⟨false⟩ source = .ok ts ↔ tokenize ⟨true⟩ source = .ok ts ∧ '/' ∉ source.toList
  /-- If there are tokens with comments, there are the same ones without them after the comments have been
  blanked, behind as many characters. -/
  blanked : ∀ ts, tokenize ⟨true⟩ source = .ok ts →
    ∃ us, tokenize ⟨false⟩ (.ofList (blankComments source.toList)) = .ok us ∧
      us.map Token.inChars = ts.map Token.inChars
  /-- If a character is unknown with comments, it is unknown without them after the comments in front of it
  have been blanked, behind as many characters. -/
  unknown : ∀ c p, tokenize ⟨true⟩ source = .error (.unknownToken c p) →
    ∃ q, tokenize ⟨false⟩ (blankedUpTo source p.chars) = .error (.unknownToken c q) ∧
      q.chars = p.chars
  /-- If a comment is never closed, its opener is unknown without comments after those in front of it have
  been blanked. -/
  unterminated : ∀ p, tokenize ⟨true⟩ source = .error (.unterminatedComment p) →
    ∃ q, tokenize ⟨false⟩ (blankedUpTo source p.chars) = .error (.unknownToken '/' q) ∧
      q.chars = p.chars

/-- Reading a source with comments is reading it without them after blanking its comments. -/
theorem dialects_agree (source : String) : DialectsAgree source where
  same _ := tokenize_withoutComments_eq_ok_iff
  blanked := by
    intro ts hts
    obtain ⟨l, hl, htext, rfl⟩ := Layout.exists_of_tokenize hts
    have hblanked := hl.leadsTo_nil.blanked ⟨false⟩
    refine ⟨l.blanked.tokens, ?_, hl.leadsTo_nil.inChars_tokens_blanked⟩
    apply hblanked.valid.tokenize_eq_ok
    rw [String.toList_ofList, ← htext, hl.leadsTo_nil.text_blanked]
  unknown := by
    intro c p hp
    obtain ⟨hreached, rest, hrest, hnothing⟩ := unknownAt_of_tokenize hp
    exact hreached.tokenize_blankedUpTo hrest (hnothing.withoutComments rfl)
  unterminated := by
    intro p hp
    obtain ⟨-, hreached, body, hbody, -⟩ := openCommentAt_of_tokenize hp
    exact hreached.tokenize_blankedUpTo hbody (nothingBegins_slash rfl _)

/-- A comment is longer in bytes than the spaces in its place, but not in characters. -/
example :
    blankComments "a/* é **/b".toList = "a        b".toList ∧
      tokenize {} "a/* é **/b" =
        .ok [⟨.identifier, "a", ⟨0, 0⟩⟩, ⟨.identifier, "b", ⟨9, 10⟩⟩, Token.endAt ⟨10, 11⟩] ∧
      tokenize ⟨false⟩ "a        b" =
        .ok [⟨.identifier, "a", ⟨0, 0⟩⟩, ⟨.identifier, "b", ⟨9, 9⟩⟩, Token.endAt ⟨10, 10⟩] := by
  decide +kernel

end Idl
