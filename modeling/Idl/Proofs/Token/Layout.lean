import Idl.Token.Lexer

/-!
# Layouts

A `Layout` cuts a text into gaps and lexemes, turn about. It is `Valid` when its gaps are gaps, its
lexemes lexemes, and every word is as long as it can be. `tokenize_layout` is that reading tokens is
laying out: a text has tokens exactly if it has a valid layout, there is only one, and the tokens
are its lexemes, each at the length of the text in front of it.

The two halves of a scanning step are settled first, each in both directions: `skipGap` passes over
a gap and nothing else (`skipGap_append`, `exists_gap`), and `lexeme?` cuts off a lexeme that ends
where it must (`lexeme?_eq_some_iff`). A scan repeats the step, and its tokens are those of the layout
of what is ahead, each moved by the position that the scan began at (`Valid.scan_eq_ok`). The same two
halves tell where the first segment of a layout ends, which leaves no choice (`Valid.unique`).
-/

namespace Idl

/-! ## Gaps -/

/-- A gap is made of blanks and, in a dialect with block comments, of comments whose bodies hold no
closer. -/
inductive Gap (d : Dialect) : List Char → Prop
  | nil : Gap d []
  | blank {c : Char} {cs : List Char} (hblank : isBlank c = true) (hgap : Gap d cs) : Gap d (c :: cs)
  | comment {body cs : List Char} (hallowed : d.blockComments = true)
      (hopen : ¬ ['*', '/'] <:+: body) (hgap : Gap d cs) :
      Gap d ('/' :: '*' :: (body ++ '*' :: '/' :: cs))

/-- No closer begins at the front of a body without one, not even where the closer behind it
begins. -/
theorem not_closer_of_body {c : Char} {body rest : List Char} (hbody : ¬ ['*', '/'] <:+: c :: body)
    (tail : List Char) : c = '*' → body ++ '*' :: '/' :: rest = '/' :: tail → False := by
  intro hstar hslash
  subst hstar
  cases body with
  -- The body ends with the star, and another star follows: that of the closer.
  | nil => simp at hslash
  | cons e body =>
    have he : e = '/' := (List.cons.inj hslash).1
    subst he
    exact hbody ⟨[], body, rfl⟩

/-- The first closer behind a body without one is the one that follows it. -/
theorem afterCloser?_append {body : List Char} (hbody : ¬ ['*', '/'] <:+: body) (rest : List Char)
    (p : Position) :
    afterCloser? (body ++ '*' :: '/' :: rest) p = some ⟨rest, p + .ofChars (body ++ ['*', '/'])⟩ := by
  induction body generalizing p with
  | nil =>
    rw [List.nil_append, afterCloser?.eq_2, Position.next_eq_add, Position.next_eq_add,
      Position.add_assoc, ← Position.ofChars_append]
    rfl
  | cons c body ih =>
    -- No closer begins at the first character, so the search goes on behind it.
    have htail : ¬ ['*', '/'] <:+: body := fun h => hbody (h.trans (List.suffix_cons _ _).isInfix)
    rw [List.cons_append, afterCloser?.eq_3 _ _ _ (not_closer_of_body hbody), ih htail,
      Position.next_eq_add, Position.add_assoc, ← Position.ofChars_append]
    rfl

/-- What lies before the first closer of a text holds none. -/
theorem exists_body {cs : List Char} {p : Position} {q : Cursor} (h : afterCloser? cs p = some q) :
    ∃ body, cs = body ++ '*' :: '/' :: q.rest ∧ ¬ ['*', '/'] <:+: body ∧
      q.position = p + .ofChars (body ++ ['*', '/']) := by
  fun_induction afterCloser? cs p with
  | case1 => simp at h
  | case2 rest p =>
    have hq : (⟨rest, (p.next '*').next '/'⟩ : Cursor) = q := Option.some.inj h
    subst hq
    refine ⟨[], rfl, by simp, ?_⟩
    show (p.next '*').next '/' = p + .ofChars ['*', '/']
    rw [Position.next_eq_add, Position.next_eq_add, Position.add_assoc, ← Position.ofChars_append]
    rfl
  | case3 c rest p hclose ih =>
    obtain ⟨body, hrest, hbody, hposition⟩ := ih h
    refine ⟨c :: body, by rw [hrest]; rfl, ?_, ?_⟩
    · -- A closer in the longer body would begin at its front, where the search has just passed.
      intro hinfix
      obtain hprefix | htail := List.infix_cons_iff.mp hinfix
      · obtain ⟨tail, htail⟩ := hprefix
        obtain ⟨hstar, hslash⟩ := List.cons.inj htail
        refine hclose (tail ++ '*' :: '/' :: q.rest) hstar.symm ?_
        rw [hrest, ← hslash]
        rfl
      · exact hbody htail
    · rw [hposition, Position.next_eq_add, Position.add_assoc, ← Position.ofChars_append]
      rfl

/-- A comment in front of a text is passed over as a whole. -/
theorem gapUnit?_comment {d : Dialect} (hallowed : d.blockComments = true) {body : List Char}
    (hopen : ¬ ['*', '/'] <:+: body) (rest : List Char) (p : Position) :
    gapUnit? d ('/' :: '*' :: (body ++ '*' :: '/' :: rest)) p =
      some ⟨rest, p + .ofChars ('/' :: '*' :: (body ++ ['*', '/']))⟩ := by
  have hslash : ¬ isBlank '/' = true := by decide
  rw [gapUnit?, if_neg hslash, afterOpener?, if_pos hallowed, Option.bind_some,
    afterCloser?_append hopen, Position.next_eq_add, Position.next_eq_add]
  simp only [Position.add_assoc, ← Position.ofChars_append]
  rfl

/-- What is passed over in one go makes every gap behind it a longer gap. -/
theorem exists_gapUnit {d : Dialect} {cs : List Char} {p : Position} {q : Cursor}
    (h : gapUnit? d cs p = some q) :
    ∃ unit, cs = unit ++ q.rest ∧ q.position = p + .ofChars unit ∧
      ∀ gap, Gap d gap → Gap d (unit ++ gap) := by
  unfold gapUnit? at h
  split at h
  · simp at h
  · next c cs =>
    split at h
    · next hblank =>
      obtain rfl := Option.some.inj h
      exact ⟨[c], rfl, Position.next_eq_add p c, fun gap hgap => .blank hblank hgap⟩
    -- Not a blank, so a comment: its opener, its body and its closer.
    · obtain ⟨after, hafter, hclose⟩ := Option.bind_eq_some_iff.mp h
      obtain ⟨body, hbody, hopen, hposition⟩ := exists_body hclose
      unfold afterOpener? at hafter
      split at hafter
      · next tail heq =>
        split at hafter
        · next hallowed =>
          obtain rfl := Option.some.inj hafter
          refine ⟨'/' :: '*' :: (body ++ ['*', '/']), ?_, ?_, ?_⟩
          · rw [heq, hbody]
            simp
          · rw [hposition, Position.next_eq_add, Position.next_eq_add]
            simp only [Position.add_assoc, ← Position.ofChars_append]
            rfl
          · intro gap hgap
            have hcomment := Gap.comment hallowed hopen hgap
            simpa using hcomment
        · simp at hafter
      · simp at hafter

/-- Skipping goes on from what was passed over in one go. -/
theorem skipGap_of_some {d : Dialect} {cs : List Char} {p : Position} {q : Cursor}
    (h : gapUnit? d cs p = some q) : skipGap d cs p = skipGap d q.rest q.position := by
  rw [skipGap]
  split
  · next hnone => exact absurd (h.symm.trans hnone) (by simp)
  · next hsome => obtain rfl := Option.some.inj (h.symm.trans hsome); rfl

/-- Skipping stops where there is nothing to pass over. -/
theorem skipGap_of_none {d : Dialect} {cs : List Char} {p : Position}
    (h : gapUnit? d cs p = none) : skipGap d cs p = ⟨cs, p⟩ := by
  rw [skipGap]
  split
  · rfl
  · next hsome => exact absurd (h.symm.trans hsome) (by simp)

/-- Skipping goes on from behind a gap. -/
theorem skipGap_gap {d : Dialect} {gap : List Char} (hgap : Gap d gap) (rest : List Char)
    (p : Position) : skipGap d (gap ++ rest) p = skipGap d rest (p + .ofChars gap) := by
  induction hgap generalizing p with
  | nil => rfl
  | @blank c cs hblank _ ih =>
    have hunit : gapUnit? d (c :: (cs ++ rest)) p = some ⟨cs ++ rest, p.next c⟩ := if_pos hblank
    rw [List.cons_append, skipGap_of_some hunit, ih, Position.next_eq_add, Position.add_assoc,
      ← Position.ofChars_append]
    rfl
  | @comment body cs hallowed hopen _ ih =>
    -- What follows the comment is the rest of the gap together with what follows the gap.
    have happend : '/' :: '*' :: (body ++ '*' :: '/' :: cs) ++ rest =
        '/' :: '*' :: (body ++ '*' :: '/' :: (cs ++ rest)) := by simp
    rw [happend, skipGap_of_some (gapUnit?_comment hallowed hopen _ p), ih, Position.add_assoc,
      ← Position.ofChars_append]
    simp

/-- Skipping passes over a gap that no further gap follows, and stops right behind it. -/
theorem skipGap_append {d : Dialect} {gap rest : List Char} (hgap : Gap d gap)
    (hrest : ∀ p, gapUnit? d rest p = none) (p : Position) :
    skipGap d (gap ++ rest) p = ⟨rest, p + .ofChars gap⟩ := by
  rw [skipGap_gap hgap, skipGap_of_none (hrest _)]

/-- What skipping passes over is a gap. -/
theorem exists_gap {d : Dialect} {cs rest : List Char} {p q : Position}
    (h : skipGap d cs p = ⟨rest, q⟩) :
    ∃ gap, Gap d gap ∧ cs = gap ++ rest ∧ q = p + .ofChars gap := by
  fun_induction skipGap d cs p with
  | case1 cs p =>
    cases h
    exact ⟨[], .nil, rfl, by simp⟩
  | case2 cs p c hunit ih =>
    obtain ⟨gap, hgap, hrest, rfl⟩ := ih h
    obtain ⟨unit, hcs, hbehind, hlonger⟩ := exists_gapUnit hunit
    refine ⟨unit ++ gap, hlonger gap hgap, ?_, ?_⟩
    · rw [List.append_assoc, ← hrest, hcs]
    · rw [hbehind, Position.add_assoc, ← Position.ofChars_append]

/-! ## Lexemes -/

/-- The marks of one character, each with its kind. -/
def marks : List (TokenKind × Char) :=
  [(.leftParen, '('), (.rightParen, ')'), (.comma, ','), (.colon, ':'), (.semicolon, ';'),
    (.leftBrace, '{'), (.rightBrace, '}')]

/-- The lexemes of each kind: words, the marks of one character, and the arrow. -/
inductive IsLexeme : TokenKind → List Char → Prop
  | word {c : Char} {cs : List Char} (hstart : isWordStart c = true)
      (hchars : ∀ e ∈ cs, isWordChar e = true) : IsLexeme .identifier (c :: cs)
  | mark {kind : TokenKind} {c : Char} (hmark : (kind, c) ∈ marks) : IsLexeme kind [c]
  | arrow : IsLexeme .arrow ['-', '>']

/-- Whether a text does not go on with the word in front of it. -/
def EndsWord (rest : List Char) : Prop := ∀ c ∈ rest.head?, isWordChar c = false

/-- Whether a lexeme is as long as it can be in front of a text. -/
def Maximal (kind : TokenKind) (rest : List Char) : Prop := kind = .identifier → EndsWord rest

/-- The kind of a character by itself is that of the mark that it is. -/
theorem mark?_eq_some_iff {c : Char} {kind : TokenKind} :
    mark? c = some kind ↔ (kind, c) ∈ marks := by
  constructor
  · intro h
    unfold mark? at h
    split at h
    case h_8 => contradiction
    all_goals
      obtain rfl := Option.some.inj h
      decide
  · intro h
    simp only [marks, List.mem_cons, Prod.mk.injEq, List.not_mem_nil, or_false] at h
    rcases h with ⟨rfl, rfl⟩ | ⟨rfl, rfl⟩ | ⟨rfl, rfl⟩ | ⟨rfl, rfl⟩ | ⟨rfl, rfl⟩ | ⟨rfl, rfl⟩ |
      ⟨rfl, rfl⟩ <;> rfl

/-- A mark begins no word. -/
theorem isWordStart_of_mark {c : Char} {kind : TokenKind} (h : (kind, c) ∈ marks) :
    isWordStart c = false := by
  have hmarks : ∀ m ∈ marks, isWordStart m.2 = false := by decide
  exact hmarks (kind, c) h

/-- A mark is no word and does not end the input. -/
theorem kind_of_mark {c : Char} {kind : TokenKind} (h : (kind, c) ∈ marks) :
    kind ≠ .identifier ∧ kind ≠ .endOfInput := by
  have hmarks : ∀ m ∈ marks, m.1 ≠ .identifier ∧ m.1 ≠ .endOfInput := by decide
  exact hmarks (kind, c) h

/-- A lexeme begins with some character, which begins neither a comment nor a gap. -/
theorem IsLexeme.exists_cons {kind : TokenKind} {text : List Char} (h : IsLexeme kind text) :
    ∃ c cs, text = c :: cs ∧ c ≠ '/' ∧ isBlank c = false := by
  cases h with
  | @word c cs hstart hchars =>
    refine ⟨c, cs, rfl, ?_, ?_⟩
    · intro hslash
      subst hslash
      exact absurd hstart (by decide)
    · unfold isBlank
      simp only [Bool.or_eq_false_iff, decide_eq_false_iff_not]
      refine ⟨⟨⟨?_, ?_⟩, ?_⟩, ?_⟩ <;> (intro hblank; subst hblank; exact absurd hstart (by decide))
  | @mark _ c hmark =>
    have hmarks : ∀ m ∈ marks, m.2 ≠ '/' ∧ isBlank m.2 = false := by decide
    exact ⟨c, [], rfl, hmarks _ hmark⟩
  | arrow => exact ⟨'-', ['>'], rfl, by decide, by decide⟩

/-- No comment opens where a lexeme begins. -/
theorem IsLexeme.afterOpener? {kind : TokenKind} {text : List Char} (h : IsLexeme kind text)
    (d : Dialect) (rest : List Char) : afterOpener? d (text ++ rest) = none := by
  obtain ⟨c, cs, rfl, hslash, -⟩ := h.exists_cons
  unfold Idl.afterOpener?
  split
  · next heq => exact absurd (List.cons.inj heq).1 hslash
  · rfl

/-- No gap begins where a lexeme does. -/
theorem IsLexeme.gapUnit? {kind : TokenKind} {text : List Char} (h : IsLexeme kind text)
    (d : Dialect) (rest : List Char) (p : Position) : gapUnit? d (text ++ rest) p = none := by
  have hopener := h.afterOpener? d rest
  obtain ⟨c, cs, rfl, -, hblank⟩ := h.exists_cons
  rw [List.cons_append] at hopener ⊢
  rw [Idl.gapUnit?, if_neg (by rw [hblank]; decide), hopener, Option.bind_none]

/-- No lexeme ends the input. -/
theorem IsLexeme.ne_endOfInput {kind : TokenKind} {text : List Char} (h : IsLexeme kind text) :
    kind ≠ .endOfInput := by
  cases h with
  | word => simp
  | arrow => simp
  | mark hmark => exact (kind_of_mark hmark).2

/-- A word in front of a text that does not go on with it is all that is taken. -/
theorem takeWhile_word {cs rest : List Char} (hchars : ∀ e ∈ cs, isWordChar e = true)
    (hends : EndsWord rest) :
    (cs ++ rest).takeWhile isWordChar = cs ∧ (cs ++ rest).dropWhile isWordChar = rest := by
  rw [List.takeWhile_append_of_pos hchars, List.dropWhile_append_of_pos hchars]
  cases rest with
  | nil => simp
  | cons c rest =>
    have hc : isWordChar c = false := hends c rfl
    simp [hc]

/-- The text behind the longest word does not go on with it. -/
theorem endsWord_dropWhile (cs : List Char) : EndsWord (cs.dropWhile isWordChar) := by
  intro c hc
  have hhead := List.head?_dropWhile_not isWordChar cs
  rw [Option.mem_def.mp hc] at hhead
  simpa using hhead

/-- A lexeme is cut off a text exactly if the text is the lexeme and what is left, and the lexeme is
as long as it can be. -/
theorem lexeme?_eq_some_iff {cs : List Char} {x : Lexeme} :
    lexeme? cs = some x ↔ cs = x.text ++ x.rest ∧ IsLexeme x.kind x.text ∧ Maximal x.kind x.rest := by
  constructor
  · intro h
    refine ⟨lexeme?_append h, ?_⟩
    unfold lexeme? at h
    split at h
    · simp at h
    · obtain rfl := Option.some.inj h
      exact ⟨.arrow, fun hword => by simp at hword⟩
    · next c rest _ =>
      split at h
      · next hstart =>
        obtain rfl := Option.some.inj h
        have hchars := List.all_eq_true.mp (List.all_takeWhile (p := isWordChar) (l := rest))
        exact ⟨.word hstart hchars, fun _ => endsWord_dropWhile rest⟩
      · obtain ⟨kind, hkind, rfl⟩ := Option.map_eq_some_iff.mp h
        have hmark := mark?_eq_some_iff.mp hkind
        exact ⟨.mark hmark, fun hword => absurd hword (kind_of_mark hmark).1⟩
  · obtain ⟨kind, text, rest⟩ := x
    rintro ⟨rfl, hlexeme, hmaximal⟩
    cases hlexeme with
    | @word c cs hstart hchars =>
      have hdash : c ≠ '-' := by
        intro hdash
        subst hdash
        exact absurd hstart (by decide)
      obtain ⟨htake, hdrop⟩ := takeWhile_word hchars (hmaximal rfl)
      rw [List.cons_append, lexeme?.eq_3 _ _ (fun _ h _ => hdash h), if_pos hstart, htake, hdrop]
    | @mark kind c hmark =>
      have hmarks : ∀ m ∈ marks, m.2 ≠ '-' := by decide
      have hdash : c ≠ '-' := hmarks _ hmark
      have hstart : ¬ isWordStart c = true := by rw [isWordStart_of_mark hmark]; decide
      rw [List.cons_append, lexeme?.eq_3 _ _ (fun _ h _ => hdash h), if_neg hstart,
        mark?_eq_some_iff.mpr hmark]
      rfl
    | arrow => rfl

/-! ## Layouts -/

/-- A lexeme with the gap in front of it. -/
structure Segment where
  /-- The gap. -/
  gap : List Char
  /-- The kind of the lexeme. -/
  kind : TokenKind
  /-- The lexeme. -/
  text : List Char

/-- Whether a segment is one of its dialect in front of a text. -/
structure Segment.Valid (d : Dialect) (x : Segment) (rest : List Char) : Prop where
  /-- The gap is a gap. -/
  gap : Gap d x.gap
  /-- The lexeme is a lexeme of its kind. -/
  lexeme : IsLexeme x.kind x.text
  /-- The lexeme could not be longer. -/
  maximal : Maximal x.kind rest

/-- A text cut into gaps and lexemes, turn about. -/
structure Layout where
  /-- The lexemes, each with the gap in front of it. -/
  segments : List Segment
  /-- The gap behind the last lexeme. -/
  tail : List Char

namespace Layout

/-- The text that a list of segments makes up. -/
def segmentsText (xs : List Segment) : List Char := xs.flatMap fun x => x.gap ++ x.text

/-- The text that was cut. -/
def text (l : Layout) : List Char := segmentsText l.segments ++ l.tail

/-- The layout with one more segment in front. -/
def cons (x : Segment) (l : Layout) : Layout := ⟨x :: l.segments, l.tail⟩

/-- What holds of every gap alone, and goes over to a layout with one more segment, holds of every layout. -/
@[elab_as_elim, induction_eliminator]
theorem induction {motive : Layout → Prop} (nil : ∀ tail, motive ⟨[], tail⟩)
    (cons : ∀ x l, motive l → motive (cons x l)) (l : Layout) : motive l := by
  obtain ⟨xs, tail⟩ := l
  induction xs with
  | nil => exact nil tail
  | cons x xs ih => exact cons x ⟨xs, tail⟩ ih

/-- Whether the gaps are gaps, the lexemes lexemes, and no word could be longer. -/
inductive Valid (d : Dialect) : Layout → Prop
  | nil {tail : List Char} (hgap : Gap d tail) : Valid d ⟨[], tail⟩
  | cons {x : Segment} {l : Layout} (hx : x.Valid d l.text) (hrest : Valid d l) : Valid d (cons x l)

/-- The tokens of a layout: each lexeme at the length of the text in front of it, and the end of the
input at the length of it all. -/
def tokens (l : Layout) : List Token :=
  l.segments.mapIdx (fun i x =>
    ⟨x.kind, .ofList x.text, .ofChars (segmentsText (l.segments.take i) ++ x.gap)⟩) ++
    [Token.endAt (.ofChars l.text)]

@[simp] theorem segmentsText_cons (x : Segment) (xs : List Segment) :
    segmentsText (x :: xs) = x.gap ++ x.text ++ segmentsText xs := rfl

@[simp] theorem text_cons (x : Segment) (l : Layout) :
    (cons x l).text = x.gap ++ (x.text ++ l.text) := by
  simp [text, cons]

/-- The tokens of a layout that lies behind a position. -/
def tokensAt (p : Position) (l : Layout) : List Token := l.tokens.map (Token.shift p)

/-- The tokens behind a gap alone: the end, just after it. -/
theorem tokensAt_nil (p : Position) (tail : List Char) :
    tokensAt p ⟨[], tail⟩ = [Token.endAt (p + .ofChars tail)] := by
  simp [tokensAt, tokens, text, segmentsText, Token.shift, Token.endAt]

/-- The tokens of a layout with one more segment: its lexeme, and the tokens of the rest, behind
it. -/
theorem tokensAt_cons (p : Position) (x : Segment) (l : Layout) :
    tokensAt p (cons x l) =
      ⟨x.kind, .ofList x.text, p + .ofChars x.gap⟩ ::
        tokensAt (p + .ofChars x.gap + .ofChars x.text) l := by
  have hshift : ∀ cs, p + .ofChars x.gap + .ofChars x.text + Position.ofChars cs =
      p + .ofChars (x.gap ++ (x.text ++ cs)) := by
    intro cs
    rw [Position.ofChars_append, Position.ofChars_append, Position.add_assoc, Position.add_assoc]
  -- The first lexeme comes apart from the others, whose places are all moved alike.
  simp only [tokensAt, tokens, text_cons]
  simp only [cons, List.mapIdx_cons, List.take_zero, List.take_succ_cons, segmentsText_cons]
  simp only [List.mapIdx_eq_zipIdx_map]
  simp [Function.comp_def, segmentsText, Token.shift, Token.endAt, hshift]

/-- At the front of a text nothing moves. -/
theorem tokensAt_start (l : Layout) : tokensAt .start l = l.tokens := by
  have hshift : Token.shift .start = id := by
    funext t
    simp [Token.shift]
  rw [tokensAt, hshift, List.map_id]

/-- The tokens of the lexemes of a layout that lies behind a position. -/
def lexemesAt (p : Position) (l : Layout) : List Token := (l.tokensAt p).dropLast

/-- The tokens of a layout are those of its lexemes and that of its end. -/
theorem tokensAt_eq (p : Position) (l : Layout) :
    l.tokensAt p = l.lexemesAt p ++ [Token.endAt (p + .ofChars l.text)] := by
  simp [lexemesAt, tokensAt, tokens, Token.shift, Token.endAt]

/-- The lexemes of a layout with one more segment. -/
theorem lexemesAt_cons (p : Position) (x : Segment) (l : Layout) :
    lexemesAt p (cons x l) =
      ⟨x.kind, .ofList x.text, p + .ofChars x.gap⟩ ::
        lexemesAt (p + .ofChars x.gap + .ofChars x.text) l := by
  rw [lexemesAt, tokensAt_cons, tokensAt_eq, ← List.cons_append, List.dropLast_concat]

/-- Wherever a layout lies, the kinds and the texts of its tokens are those of its segments. -/
theorem map_lexemesAt {α : Type} (f : TokenKind → String → α) (p : Position) (l : Layout) :
    ((l.lexemesAt p).map fun t => f t.kind t.text) = l.segments.map fun x => f x.kind (.ofList x.text) := by
  induction l generalizing p with
  | nil tail => rw [lexemesAt, tokensAt_nil, List.dropLast_singleton, List.map_nil, List.map_nil]
  | cons x l ih =>
    rw [lexemesAt_cons, List.map_cons, ih]
    rfl

/-- The lexemes of a valid layout are lexemes. -/
theorem Valid.isLexeme {d : Dialect} {l : Layout} (h : l.Valid d) :
    ∀ x ∈ l.segments, IsLexeme x.kind x.text := by
  induction h with
  | nil => simp
  | cons hx _ ih => exact List.forall_mem_cons.mpr ⟨hx.lexeme, ih⟩

/-- No lexeme of a valid layout ends the input. -/
theorem Valid.kind_lexemesAt {d : Dialect} {l : Layout} (h : l.Valid d) (p : Position) :
    ∀ t ∈ l.lexemesAt p, t.kind ≠ .endOfInput := by
  have hkinds : (l.lexemesAt p).map Token.kind = l.segments.map Segment.kind :=
    map_lexemesAt (fun kind _ => kind) p l
  intro t ht
  have hkind : t.kind ∈ (l.lexemesAt p).map Token.kind := List.mem_map_of_mem ht
  rw [hkinds] at hkind
  obtain ⟨x, hx, hkind⟩ := List.mem_map.mp hkind
  rw [← hkind]
  exact (h.isLexeme x hx).ne_endOfInput

/-- The gap in front of a layout is passed over, up to its first lexeme. -/
theorem skipGap_cons {d : Dialect} {x : Segment} {l : Layout} (hx : x.Valid d l.text)
    (p : Position) : skipGap d (cons x l).text p = ⟨x.text ++ l.text, p + .ofChars x.gap⟩ := by
  rw [text_cons]
  exact skipGap_append hx.gap (hx.lexeme.gapUnit? d l.text) p

/-- The first lexeme of a layout is cut off it. -/
theorem lexeme?_cons {d : Dialect} {x : Segment} {l : Layout} (hx : x.Valid d l.text) :
    lexeme? (x.text ++ l.text) = some ⟨x.kind, x.text, l.text⟩ :=
  lexeme?_eq_some_iff.mpr ⟨rfl, hx.lexeme, hx.maximal⟩

/-- A last gap is passed over whole. -/
theorem skipGap_nil {d : Dialect} {tail : List Char} (hgap : Gap d tail) (p : Position) :
    skipGap d (text ⟨[], tail⟩) p = ⟨[], p + .ofChars tail⟩ := by
  have htail : text ⟨[], tail⟩ = tail ++ [] := by simp [text, segmentsText]
  rw [htail]
  exact skipGap_append hgap (fun _ => rfl) p

/-- No gap is a text with a lexeme in it. -/
theorem text_nil_ne_cons {d : Dialect} {tail : List Char} (hgap : Gap d tail) {x : Segment}
    {l : Layout} (hx : x.Valid d l.text) : text ⟨[], tail⟩ ≠ (cons x l).text := by
  intro htext
  have hskip := skipGap_nil hgap .start
  rw [htext, skipGap_cons hx] at hskip
  have hnil : x.text ++ l.text = [] := congrArg Cursor.rest hskip
  obtain ⟨c, cs, hcons, -⟩ := hx.lexeme.exists_cons
  rw [hcons] at hnil
  contradiction

/-- A text has only one first segment. -/
theorem cons_injective {d : Dialect} {x y : Segment} {l m : Layout} (hx : x.Valid d l.text)
    (hy : y.Valid d m.text) (htext : (cons x l).text = (cons y m).text) :
    x = y ∧ l.text = m.text := by
  have hskip := skipGap_cons hx .start
  rw [htext, skipGap_cons hy] at hskip
  have hbehind : y.text ++ m.text = x.text ++ l.text := congrArg Cursor.rest hskip
  have hread := lexeme?_cons hx
  rw [← hbehind, lexeme?_cons hy] at hread
  obtain ⟨hkind, hword, hrest⟩ := Lexeme.mk.inj (Option.some.inj hread)
  -- The same text stands behind both gaps, so the gaps are the same, too.
  have hgap : x.gap = y.gap := by
    rw [text_cons, text_cons, hbehind] at htext
    exact List.append_cancel_right htext
  obtain ⟨gap, kind, text⟩ := x
  obtain ⟨gap', kind', text'⟩ := y
  simp only at hgap hkind hword
  exact ⟨by rw [hgap, hkind, hword], hrest.symm⟩

/-- No text has two valid layouts. -/
theorem Valid.unique {d : Dialect} {l m : Layout} (hl : l.Valid d) (hm : m.Valid d)
    (htext : l.text = m.text) : l = m := by
  induction hl generalizing m with
  | @nil tail hgap =>
    cases hm with
    | @nil tail' hgap' =>
      have htail : tail = tail' := by simpa [text, segmentsText] using htext
      rw [htail]
    | cons hy _ => exact absurd htext (text_nil_ne_cons hgap hy)
  | cons hx _ ih =>
    cases hm with
    | nil hgap => exact absurd htext.symm (text_nil_ne_cons hgap hx)
    | cons hy hm =>
      obtain ⟨hfirst, hrest⟩ := cons_injective hx hy htext
      rw [hfirst, ih hm hrest]

/-! ## Scanning -/

/-- A scan ends with the end of the text, if no more than a gap is ahead. -/
theorem scan_of_end {d : Dialect} {cs : List Char} {p q : Position} (done : List Token)
    (hskip : skipGap d cs p = ⟨[], q⟩) :
    scan d done cs p = (.ok (Token.endAt q :: done).reverse, ⟨[], q⟩) := by
  rw [scan]
  split
  · next hnil => rw [(Cursor.mk.inj (hskip.symm.trans hnil)).2]
  · next hcons =>
    have hnil := (Cursor.mk.inj (hskip.symm.trans hcons)).1
    contradiction

/-- A scan fails at a comment opener that follows a gap, and stays there. -/
theorem scan_of_opener {d : Dialect} {cs rest : List Char} {c : Char} {p q : Position}
    (done : List Token) (hskip : skipGap d cs p = ⟨c :: rest, q⟩)
    (hopener : (afterOpener? d (c :: rest)).isSome = true) :
    scan d done cs p = (.error (.unterminatedComment q), ⟨c :: rest, q⟩) := by
  rw [scan]
  split
  · next hnil =>
    have hcons := (Cursor.mk.inj (hskip.symm.trans hnil)).1
    contradiction
  · next hcons =>
    cases hskip.symm.trans hcons
    rw [if_pos hopener]

/-- A scan fails at a character behind a gap that no lexeme begins with, and goes past it. -/
theorem scan_of_unknown {d : Dialect} {cs rest : List Char} {c : Char} {p q : Position}
    (done : List Token) (hskip : skipGap d cs p = ⟨c :: rest, q⟩)
    (hopener : ¬ (afterOpener? d (c :: rest)).isSome = true)
    (hlexeme : lexeme? (c :: rest) = none) :
    scan d done cs p = (.error (.unknownToken c q), ⟨rest, q.next c⟩) := by
  rw [scan]
  split
  · next hnil =>
    have hcons := (Cursor.mk.inj (hskip.symm.trans hnil)).1
    contradiction
  · next hcons =>
    cases hskip.symm.trans hcons
    rw [if_neg hopener]
    split
    · rfl
    · next hsome =>
      have hnone := hlexeme.symm.trans hsome
      contradiction

/-- A scan goes on behind the lexeme that follows a gap. -/
theorem scan_of_lexeme {d : Dialect} {cs : List Char} {p : Position} {q : Cursor} {x : Lexeme}
    (done : List Token) (hskip : skipGap d cs p = q) (hopener : afterOpener? d q.rest = none)
    (hlexeme : lexeme? q.rest = some x) :
    scan d done cs p =
      scan d (⟨x.kind, .ofList x.text, q.position⟩ :: done) x.rest (q.position + .ofChars x.text) := by
  rw [scan]
  split
  · next q' hnil =>
    obtain rfl := hskip.symm.trans hnil
    contradiction
  · next c rest q' hcons =>
    obtain rfl := hskip.symm.trans hcons
    rw [if_neg (by rw [hopener]; decide)]
    split
    · next hnone =>
      have hsome := hlexeme.symm.trans hnone
      contradiction
    · next y hsome =>
      obtain rfl := Option.some.inj (hlexeme.symm.trans hsome)
      rfl

/-- A scan over a valid layout reads its tokens. -/
theorem Valid.scan_eq_ok {d : Dialect} {l : Layout} (h : l.Valid d) (done : List Token)
    (p : Position) : (scan d done l.text p).1 = .ok (done.reverse ++ l.tokensAt p) := by
  induction h generalizing done p with
  | nil hgap =>
    rw [scan_of_end done (skipGap_nil hgap p), tokensAt_nil, List.reverse_cons]
  | @cons x l hx _ ih =>
    rw [scan_of_lexeme done (skipGap_cons hx p) (hx.lexeme.afterOpener? d l.text) (lexeme?_cons hx),
      ih, tokensAt_cons, List.reverse_cons, List.append_assoc]
    rfl

/-- A scan that succeeds has gone over a valid layout of what was ahead. -/
theorem exists_layout_of_scan {d : Dialect} {done : List Token} {cs : List Char} {p : Position}
    {ts : List Token} (h : (scan d done cs p).1 = .ok ts) : ∃ l : Layout, l.Valid d ∧ l.text = cs := by
  fun_induction scan d done cs p with
  -- Only a gap is ahead.
  | case1 done cs p q hskip =>
    obtain ⟨gap, hgap, hcs, -⟩ := exists_gap hskip
    have hcs : cs = gap := hcs.trans (List.append_nil gap)
    exact ⟨⟨[], gap⟩, .nil hgap, by rw [hcs]; rfl⟩
  | case2 => contradiction
  | case3 => contradiction
  -- A gap is ahead, then a lexeme, then what the rest of the scan goes over.
  | case4 done cs p c rest q hskip _ x hread ih =>
    obtain ⟨gap, hgap, hcs, -⟩ := exists_gap hskip
    obtain ⟨happend, hlexeme, hmaximal⟩ := lexeme?_eq_some_iff.mp hread
    obtain ⟨l, hl, htext⟩ := ih h
    rw [← htext] at happend hmaximal
    refine ⟨cons ⟨gap, x.kind, x.text⟩ l, .cons ⟨hgap, hlexeme, hmaximal⟩ hl, ?_⟩
    rw [text_cons, ← happend, ← hcs]

/-- A text with a valid layout has the tokens of that layout. -/
theorem Valid.tokenize_eq_ok {d : Dialect} {l : Layout} (h : l.Valid d) {source : String}
    (htext : l.text = source.toList) : tokenize d source = .ok l.tokens := by
  have hscan := h.scan_eq_ok [] .start
  rw [htext, List.reverse_nil, List.nil_append, tokensAt_start] at hscan
  exact hscan

/-- A text that has tokens has a valid layout with these tokens. -/
theorem exists_of_tokenize {d : Dialect} {source : String} {ts : List Token}
    (h : tokenize d source = .ok ts) :
    ∃ l : Layout, l.Valid d ∧ l.text = source.toList ∧ l.tokens = ts := by
  obtain ⟨l, hl, htext⟩ := exists_layout_of_scan h
  have htokens := (hl.tokenize_eq_ok htext).symm.trans h
  exact ⟨l, hl, htext, Except.ok.inj htokens⟩

end Layout

/-- Reading tokens is laying out the text: a text has tokens exactly if it has a valid layout, they are
the tokens of that layout, and it has no other. -/
theorem tokenize_layout (d : Dialect) (source : String) :
    (∀ ts, tokenize d source = .ok ts ↔
      ∃ l : Layout, l.Valid d ∧ l.text = source.toList ∧ l.tokens = ts) ∧
    ∀ l m : Layout, l.Valid d → m.Valid d → l.text = source.toList → m.text = source.toList →
      l = m := by
  constructor
  · intro ts
    constructor
    · exact Layout.exists_of_tokenize
    · rintro ⟨l, hl, htext, rfl⟩
      exact hl.tokenize_eq_ok htext
  · intro l m hl hm hltext hmtext
    exact hl.unique hm (hltext.trans hmtext.symm)

end Idl
