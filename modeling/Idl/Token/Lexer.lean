import Idl.Blank
import Idl.Diagnostic
import Idl.Token

/-!
# Reading tokens

A source text is lexemes with gaps between them. A gap is any run of blanks and, in a dialect that
has them, of block comments; a comment ends at the first closer after its opener, so comments do not
nest and the opener's own star closes nothing. A lexeme is a word, read as long as it goes, or a
mark.

Reading works on a `Cursor`, the text still ahead together with its place in the whole. `skipGap`
moves it over a gap, `lexeme?` reads the lexeme in front, and `scan` alternates the two up to the
end of the text or the first fault. `scan` also says where it stands afterwards, so that reading can
be taken up again: past an unknown character, but at the opener of a comment that is never closed.
-/

namespace Idl

/-- The choices that a language dialect leaves open. -/
structure Dialect where
  /-- Whether block comments may stand between lexemes; without them a slash is no token. -/
  blockComments : Bool := true
deriving DecidableEq, Inhabited

/-- Why a text has no tokens. -/
inductive LexError
  /-- No lexeme begins with the character. -/
  | unknownToken (char : Char) (position : Position)
  /-- The comment opened at the place is never closed. -/
  | unterminatedComment (position : Position)
deriving DecidableEq

namespace LexError

/-- Where reading failed. -/
def position : LexError → Position
  | unknownToken _ p => p
  | unterminatedComment p => p

/-- The same fault in a text where `p` stands in front. -/
def shift (p : Position) : LexError → LexError
  | unknownToken c q => unknownToken c (p + q)
  | unterminatedComment q => unterminatedComment (p + q)

/-- The fault as it is shown. -/
def diagnostic : LexError → Diagnostic
  | unknownToken c p =>
    { message := s!"unknown token at {p.chars}: '{c}'"
      code := "idl::lex::unknown_token"
      help := none
      label := ⟨"not a valid token", p.bytes, c.utf8Size⟩ }
  | unterminatedComment p =>
    { message := s!"unterminated comment starting at {p.chars}"
      code := "idl::lex::unterminated_comment"
      help := some "block comments must be closed with '*/'"
      label := ⟨"comment opened here", p.bytes, 2⟩ }

end LexError

/-! ## Characters -/

/-- Whether a word can begin with the character: an ASCII letter or an underscore. -/
def isWordStart (c : Char) : Bool := c.isAlpha || c = '_'

/-- Whether a word can go on with the character: an ASCII letter, a digit or an underscore. -/
def isWordChar (c : Char) : Bool := c.isAlphanum || c = '_'

/-- Whether a text is a word. -/
def isWord (s : String) : Bool :=
  match s.toList with
  | [] => false
  | c :: cs => isWordStart c && cs.all isWordChar

/-- The kind of the mark that a character is by itself. -/
def mark? : Char → Option TokenKind
  | '(' => some .leftParen
  | ')' => some .rightParen
  | ',' => some .comma
  | ':' => some .colon
  | ';' => some .semicolon
  | '{' => some .leftBrace
  | '}' => some .rightBrace
  | _ => none

/-! ## Gaps -/

/-- The text still ahead and its place in the whole. -/
structure Cursor where
  /-- What is still to be read. -/
  rest : List Char
  /-- Where that begins. -/
  position : Position
deriving DecidableEq

/-- A cursor at the front of a text. -/
def Cursor.ofString (source : String) : Cursor := ⟨source.toList, .start⟩

/-- The text behind a comment opener, if one stands in front. -/
def afterOpener? (d : Dialect) : List Char → Option (List Char)
  | '/' :: '*' :: body => if d.blockComments then some body else none
  | _ => none

/-- The cursor behind the first comment closer, if there is one. -/
def afterCloser? : List Char → Position → Option Cursor
  | [], _ => none
  | '*' :: '/' :: rest, p => some ⟨rest, (p.next '*').next '/'⟩
  | c :: rest, p => afterCloser? rest (p.next c)

/-- What follows an opener is shorter than the text that begins with it. -/
theorem afterOpener?_length {d : Dialect} {cs body : List Char}
    (h : afterOpener? d cs = some body) : body.length < cs.length := by
  unfold afterOpener? at h
  split at h
  · split at h
    · simp only [Option.some.injEq] at h
      subst h
      simp only [List.length_cons]
      omega
    · simp at h
  · simp at h

/-- What follows a closer is no longer than the text searched. -/
theorem afterCloser?_length {cs : List Char} {p : Position} {q : Cursor}
    (h : afterCloser? cs p = some q) : q.rest.length ≤ cs.length := by
  fun_induction afterCloser? cs p with
  | case1 => simp at h
  | case2 rest p =>
    simp only [Option.some.injEq] at h
    subst h
    simp only [List.length_cons]
    omega
  | case3 _ _ _ _ ih =>
    have := ih h
    simp only [List.length_cons]
    omega

/-- The cursor behind the blank or the closed comment in front, if one stands there. -/
def gapUnit? (d : Dialect) : List Char → Position → Option Cursor
  | [], _ => none
  | c :: cs, p =>
    if isBlank c then some ⟨cs, p.next c⟩
    else (afterOpener? d (c :: cs)).bind fun body => afterCloser? body ((p.next '/').next '*')

/-- What follows a blank or a comment is shorter than the text that begins with it. -/
theorem gapUnit?_length {d : Dialect} {cs : List Char} {p : Position} {q : Cursor}
    (h : gapUnit? d cs p = some q) : q.rest.length < cs.length := by
  unfold gapUnit? at h
  split at h
  · simp at h
  · split at h
    · simp at h; subst h; simp
    · obtain ⟨body, hopen, hclose⟩ := Option.bind_eq_some_iff.mp h
      have := afterOpener?_length hopen
      have := afterCloser?_length hclose
      omega

/-- The cursor behind the gap that begins at a place: behind every blank and every closed comment up
to the first character that belongs to neither. -/
def skipGap (d : Dialect) (rest : List Char) (p : Position) : Cursor :=
  match _h : gapUnit? d rest p with
  | none => ⟨rest, p⟩
  | some q => skipGap d q.rest q.position
termination_by rest.length
decreasing_by exact gapUnit?_length _h

/-- Skipping a gap leaves no more text than there was. -/
theorem skipGap_length (d : Dialect) (rest : List Char) (p : Position) :
    (skipGap d rest p).rest.length ≤ rest.length := by
  fun_induction skipGap d rest p with
  | case1 => simp
  | case2 _ _ _ h ih => have := gapUnit?_length h; omega

/-! ## Lexemes -/

/-- A lexeme cut off the front of a text. -/
structure Lexeme where
  /-- The kind of the lexeme. -/
  kind : TokenKind
  /-- Its characters. -/
  text : List Char
  /-- The text behind it. -/
  rest : List Char
deriving DecidableEq

/-- The lexeme in front of a text: an arrow, a word as long as it goes, or a single mark. -/
def lexeme? : List Char → Option Lexeme
  | [] => none
  | '-' :: '>' :: rest => some ⟨.arrow, ['-', '>'], rest⟩
  | c :: rest =>
    if isWordStart c then
      some ⟨.identifier, c :: rest.takeWhile isWordChar, rest.dropWhile isWordChar⟩
    else (mark? c).map fun kind => ⟨kind, [c], rest⟩

/-- A lexeme and the text behind it make up the text that it was cut off. -/
theorem lexeme?_append {cs : List Char} {x : Lexeme} (h : lexeme? cs = some x) :
    cs = x.text ++ x.rest := by
  unfold lexeme? at h
  split at h
  · simp at h
  · simp at h; subst h; rfl
  · split at h
    · simp at h; subst h; simp
    · simp only [Option.map_eq_some_iff] at h
      obtain ⟨_, _, rfl⟩ := h
      rfl

/-- A lexeme is never blank. -/
theorem lexeme?_text_ne_nil {cs : List Char} {x : Lexeme} (h : lexeme? cs = some x) :
    x.text ≠ [] := by
  unfold lexeme? at h
  split at h
  · simp at h
  · simp at h; subst h; simp
  · split at h
    · simp at h; subst h; simp
    · simp only [Option.map_eq_some_iff] at h
      obtain ⟨_, _, rfl⟩ := h
      simp

/-- The text behind a lexeme is shorter than the text that begins with it. -/
theorem lexeme?_length {cs : List Char} {x : Lexeme} (h : lexeme? cs = some x) :
    x.rest.length < cs.length := by
  have happend := congrArg List.length (lexeme?_append h)
  have hpos := List.length_pos_iff.mpr (lexeme?_text_ne_nil h)
  simp at happend
  omega

/-! ## Whole texts -/

/-- Reads tokens from a place up to the end of the text or the first fault, after the tokens already
`done` (last one first), and says where the reading stopped. -/
def scan (d : Dialect) (done : List Token) (rest : List Char) (p : Position) :
    Except LexError (List Token) × Cursor :=
  match _hgap : skipGap d rest p with
  | ⟨[], q⟩ => (.ok (Token.endAt q :: done).reverse, ⟨[], q⟩)
  | ⟨c :: cs, q⟩ =>
    -- A comment opener that the gap did not pass over has no closer.
    if (afterOpener? d (c :: cs)).isSome then
      (.error (.unterminatedComment q), ⟨c :: cs, q⟩)
    else
      match _hlex : lexeme? (c :: cs) with
      | none => (.error (.unknownToken c q), ⟨cs, q.next c⟩)
      | some x => scan d (⟨x.kind, .ofList x.text, q⟩ :: done) x.rest (q + .ofChars x.text)
termination_by rest.length
decreasing_by
  have hle := skipGap_length d rest p
  have hlt := lexeme?_length _hlex
  simp only [_hgap] at hle
  omega

/-- Reads the tokens ahead of a cursor, and moves it to where the reading stopped. -/
def Cursor.tokens (d : Dialect) (c : Cursor) : Except LexError (List Token) × Cursor :=
  scan d [] c.rest c.position

/-- The tokens of a source text, closed by the token of its end. -/
def tokenize (d : Dialect) (source : String) : Except LexError (List Token) :=
  ((Cursor.ofString source).tokens d).1

end Idl
