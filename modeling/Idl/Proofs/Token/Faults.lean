import Idl.Proofs.Token.Resume

/-!
# Where reading tokens fails

A place of a text is `Reached` when the text in front of it is gaps and lexemes, turn about. Reading fails
at a reached place if nothing goes on there: with an unknown character where it begins neither a gap nor
a lexeme (`UnknownAt`), and at a comment opener that no closer follows (`OpenCommentAt`).

A scan over what is in front of a reached place comes to that place (`Layout.LeadsTo.scan`), so a fault
there is what it answers (`Fault.scan_eq_error`). And a scan that fails has come to a reached place with a
fault (`exists_fault_of_scan`). So the answer of the reading and the faults of the text are the same thing
(`tokenize_eq_error_iff`), which leaves room for only one fault (`lexFaults_located`).
-/

namespace Idl

/-! ## Faults of what is ahead -/

/-- Whether neither a gap nor a lexeme begins with a character in front of a text, and no comment opens
with it. -/
structure NothingBegins (d : Dialect) (c : Char) (rest : List Char) : Prop where
  /-- It is no blank. -/
  blank : isBlank c = false
  /-- It begins no word. -/
  word : isWordStart c = false
  /-- It is no mark. -/
  mark : c ∉ marks.map Prod.snd
  /-- It begins no arrow. -/
  arrow : ¬ (c = '-' ∧ rest.head? = some '>')
  /-- It opens no comment, if comments are read. -/
  comment : d.blockComments = true → ¬ (c = '/' ∧ rest.head? = some '*')

/-- The fault of a text that stands at a position, if there is one at its front. -/
inductive Fault (d : Dialect) (p : Position) : List Char → LexError → Prop
  /-- Nothing begins with the first character. -/
  | unknown {c : Char} {rest : List Char} (h : NothingBegins d c rest) :
    Fault d p (c :: rest) (.unknownToken c p)
  /-- A comment opens that is never closed. -/
  | unterminated {body : List Char} (hallowed : d.blockComments = true)
    (hopen : ¬ ['*', '/'] <:+: body) : Fault d p ('/' :: '*' :: body) (.unterminatedComment p)

/-- No lexeme begins with a character exactly if it begins no word, is no mark and begins no arrow. -/
theorem lexeme?_eq_none_iff {c : Char} {rest : List Char} :
    lexeme? (c :: rest) = none ↔
      isWordStart c = false ∧ c ∉ marks.map Prod.snd ∧ ¬ (c = '-' ∧ rest.head? = some '>') := by
  by_cases harrow : c = '-' ∧ rest.head? = some '>'
  · obtain ⟨rfl, hhead⟩ := harrow
    cases rest with
    | nil => contradiction
    | cons e rest =>
      obtain rfl := Option.some.inj hhead
      simp [lexeme?]
  · have hnot : ∀ tail, c = '-' → rest = '>' :: tail → False := by
      rintro tail rfl rfl
      exact harrow ⟨rfl, rfl⟩
    rw [lexeme?.eq_3 _ _ hnot]
    have hmark : mark? c = none ↔ c ∉ marks.map Prod.snd := by
      rw [Option.eq_none_iff_forall_ne_some]
      simp only [ne_eq, mark?_eq_some_iff, List.mem_map, Prod.exists, exists_eq_right, not_exists]
    cases hstart : isWordStart c with
    | true => simp
    | false => simp [hmark, harrow]

/-- No comment opens at the front of a text exactly if there is no opener, or comments are not read. -/
theorem afterOpener?_eq_none_iff {d : Dialect} {c : Char} {rest : List Char} :
    afterOpener? d (c :: rest) = none ↔
      (d.blockComments = true → ¬ (c = '/' ∧ rest.head? = some '*')) := by
  unfold afterOpener?
  split
  · next body heq =>
    obtain ⟨rfl, rfl⟩ := List.cons.inj heq
    simp
  · next hne =>
    refine ⟨fun _ _ hopener => ?_, fun _ => rfl⟩
    obtain ⟨rfl, hhead⟩ := hopener
    cases rest with
    | nil => contradiction
    | cons e rest =>
      obtain rfl := Option.some.inj hhead
      exact hne rest rfl

namespace Fault

variable {d : Dialect}

/-- A scan that comes to a fault fails with it. -/
theorem scan_eq_error {p : Position} {cs : List Char} {e : LexError} (h : Fault d p cs e)
    (done : List Token) : (scan d done cs p).1 = .error e := by
  cases h with
  | @unknown c rest h =>
    have hopener : afterOpener? d (c :: rest) = none := afterOpener?_eq_none_iff.mpr h.comment
    have hlexeme : lexeme? (c :: rest) = none := lexeme?_eq_none_iff.mpr ⟨h.word, h.mark, h.arrow⟩
    have hskip : skipGap d (c :: rest) p = ⟨c :: rest, p⟩ := by
      apply skipGap_of_none
      rw [gapUnit?, if_neg (by rw [h.blank]; decide), hopener, Option.bind_none]
    rw [Layout.scan_of_unknown done hskip (by rw [hopener]; decide) hlexeme]
  | @unterminated body hallowed hopen =>
    have hopener : (afterOpener? d ('/' :: '*' :: body)).isSome = true := by
      rw [afterOpener?, if_pos hallowed]
      rfl
    rw [Layout.scan_of_opener done (skipGap_open hallowed hopen p) hopener]

/-- A fault is reported where it is. -/
theorem position_eq {p : Position} {cs : List Char} {e : LexError} (h : Fault d p cs e) :
    e.position = p := by
  cases h <;> rfl

end Fault

/-- A character that neither skipping nor a lexeme takes begins nothing. -/
theorem nothingBegins_of_skipGap {d : Dialect} {cs rest : List Char} {c : Char} {p q : Position}
    (hskip : skipGap d cs p = ⟨c :: rest, q⟩) (hopener : ¬ (afterOpener? d (c :: rest)).isSome = true)
    (hlexeme : lexeme? (c :: rest) = none) : NothingBegins d c rest := by
  obtain ⟨hword, hmark, harrow⟩ := lexeme?_eq_none_iff.mp hlexeme
  refine ⟨?_, hword, hmark, harrow,
    afterOpener?_eq_none_iff.mp (Option.not_isSome_iff_eq_none.mp hopener)⟩
  -- A blank would have been skipped.
  have hunit := gapUnit?_skipGap hskip
  by_contra hblank
  rw [gapUnit?, if_pos (by simpa using hblank)] at hunit
  contradiction

/-- A scan that fails has come, over a layout, to a fault. -/
theorem exists_fault_of_scan {d : Dialect} {done : List Token} {cs : List Char} {p : Position}
    {e : LexError} (h : (scan d done cs p).1 = .error e) :
    ∃ (l : Layout) (rest : List Char), cs = l.text ++ rest ∧ l.LeadsTo d rest ∧
      Fault d (p + .ofChars l.text) rest e := by
  fun_induction scan d done cs p with
  | case1 => contradiction
  -- Only a gap stands in front of the fault.
  | case2 done cs p c rest q hskip hopener =>
    obtain rfl := Except.error.inj h
    obtain ⟨gap, hgap, hcs, rfl⟩ := exists_gap hskip
    obtain ⟨body, hrest, hallowed, hopen⟩ := open_of_skipGap hskip hopener
    refine ⟨⟨[], gap⟩, c :: rest, hcs, .nil hgap, ?_⟩
    rw [hrest]
    exact .unterminated hallowed hopen
  | case3 done cs p c rest q hskip hopener hlexeme =>
    obtain rfl := Except.error.inj h
    obtain ⟨gap, hgap, hcs, rfl⟩ := exists_gap hskip
    exact ⟨⟨[], gap⟩, c :: rest, hcs, .nil hgap,
      .unknown (nothingBegins_of_skipGap hskip hopener hlexeme)⟩
  -- A gap and a lexeme stand in front of what the rest of the scan goes over.
  | case4 done cs p c rest q hskip _ x hread ih =>
    obtain ⟨gap, hgap, hcs, rfl⟩ := exists_gap hskip
    obtain ⟨happend, hlexeme, hmaximal⟩ := lexeme?_eq_some_iff.mp hread
    obtain ⟨l, tail, htext, hl, hfault⟩ := ih h
    rw [htext] at hmaximal
    refine ⟨.cons ⟨gap, x.kind, x.text⟩ l, tail, ?_, .cons ⟨hgap, hlexeme, hmaximal⟩ hl, ?_⟩
    · rw [hcs, happend, htext, Layout.text_cons, List.append_assoc, List.append_assoc]
    · rw [Layout.text_cons, Position.ofChars_append, Position.ofChars_append, ← Position.add_assoc,
        ← Position.add_assoc]
      exact hfault

/-- Reading a source fails exactly with the fault that a layout of its front part leads up to. -/
theorem tokenize_eq_error_iff {d : Dialect} {source : String} {e : LexError} :
    tokenize d source = .error e ↔
      ∃ (l : Layout) (rest : List Char), source.toList = l.text ++ rest ∧ l.LeadsTo d rest ∧
        Fault d (.ofChars l.text) rest e := by
  constructor
  · intro h
    obtain ⟨l, rest, htext, hl, hfault⟩ := exists_fault_of_scan h
    change Fault d (.start + .ofChars l.text) rest e at hfault
    rw [Position.start_add] at hfault
    exact ⟨l, rest, htext, hl, hfault⟩
  · rintro ⟨l, rest, htext, hl, hfault⟩
    have hscan := congrArg Prod.fst (hl.scan [] .start)
    rw [← htext, Position.start_add, hfault.scan_eq_error] at hscan
    exact hscan

/-! ## Faults of a source -/

/-- Whether the text in front of a place of a source is gaps and lexemes, turn about, none of whose words
goes on behind it. -/
def Reached (d : Dialect) (source : String) (k : Nat) : Prop :=
  ∃ (l : Layout) (rest : List Char), source.toList = l.text ++ rest ∧ l.text.length = k ∧
    l.LeadsTo d rest

/-- Whether a place of a source is reached where nothing begins with the character `c` that stands
there. -/
def UnknownAt (d : Dialect) (source : String) (k : Nat) (c : Char) : Prop :=
  Reached d source k ∧ ∃ rest, source.toList.drop k = c :: rest ∧ NothingBegins d c rest

/-- Whether a place of a source is reached where a comment opens that is never closed. -/
def OpenCommentAt (d : Dialect) (source : String) (k : Nat) : Prop :=
  d.blockComments = true ∧ Reached d source k ∧
    ∃ body, source.toList.drop k = '/' :: '*' :: body ∧ ¬ ['*', '/'] <:+: body

/-- Whether a source has a fault at a place. -/
def HasFaultAt (d : Dialect) (source : String) (k : Nat) : Prop :=
  (∃ c, UnknownAt d source k c) ∨ OpenCommentAt d source k

section

variable {d : Dialect} {source : String} {k : Nat}

/-- As many characters are in front of a reached place. -/
theorem Reached.length_take (h : Reached d source k) : (source.toList.take k).length = k := by
  obtain ⟨l, rest, htext, rfl, -⟩ := h
  rw [htext, List.take_left]

/-- The fault at a reached place is what reading the source answers. -/
theorem Reached.tokenize_eq_error (h : Reached d source k) {e : LexError}
    (hfault : Fault d (.ofChars (source.toList.take k)) (source.toList.drop k) e) :
    tokenize d source = .error e := by
  obtain ⟨l, rest, htext, rfl, hl⟩ := h
  rw [htext, List.take_left, List.drop_left] at hfault
  exact tokenize_eq_error_iff.mpr ⟨l, rest, htext, hl, hfault⟩

/-- An unknown character at a reached place is what reading the source answers. -/
theorem UnknownAt.tokenize_eq_error {c : Char} (h : UnknownAt d source k c) :
    tokenize d source = .error (.unknownToken c (.ofChars (source.toList.take k))) := by
  obtain ⟨hreached, rest, hrest, hnothing⟩ := h
  apply hreached.tokenize_eq_error
  rw [hrest]
  exact .unknown hnothing

/-- A comment that is opened at a reached place and never closed is what reading the source answers. -/
theorem OpenCommentAt.tokenize_eq_error (h : OpenCommentAt d source k) :
    tokenize d source = .error (.unterminatedComment (.ofChars (source.toList.take k))) := by
  obtain ⟨hallowed, hreached, body, hbody, hopen⟩ := h
  apply hreached.tokenize_eq_error
  rw [hbody]
  exact .unterminated hallowed hopen

/-- A fault makes reading the source fail at its place. -/
theorem HasFaultAt.exists_error (h : HasFaultAt d source k) :
    ∃ e, tokenize d source = .error e ∧ e.position.chars = k := by
  rcases h with ⟨c, hunknown⟩ | hopen
  · exact ⟨_, hunknown.tokenize_eq_error, hunknown.1.length_take⟩
  · exact ⟨_, hopen.tokenize_eq_error, hopen.2.1.length_take⟩

/-- Reading a source fails at a reached place, with the fault there. -/
theorem reached_of_tokenize {e : LexError} (h : tokenize d source = .error e) :
    Reached d source e.position.chars ∧
      e.position = .ofChars (source.toList.take e.position.chars) ∧
      Fault d e.position (source.toList.drop e.position.chars) e := by
  obtain ⟨l, rest, htext, hl, hfault⟩ := tokenize_eq_error_iff.mp h
  have hposition : e.position = .ofChars l.text := hfault.position_eq
  have hchars : e.position.chars = l.text.length := congrArg Position.chars hposition
  rw [hchars]
  refine ⟨⟨l, rest, htext, rfl, hl⟩, ?_, ?_⟩
  · rw [htext, List.take_left, hposition]
  · rw [htext, List.drop_left, hposition]
    exact hfault

/-- A character is reported as unknown where it is. -/
theorem unknownAt_of_tokenize {c : Char} {p : Position}
    (h : tokenize d source = .error (.unknownToken c p)) : UnknownAt d source p.chars c := by
  obtain ⟨hreached, -, hfault⟩ := reached_of_tokenize h
  change Fault d p (source.toList.drop p.chars) _ at hfault
  generalize hahead : source.toList.drop p.chars = ahead at hfault
  cases hfault with
  | unknown hnothing => exact ⟨hreached, _, hahead, hnothing⟩

/-- A comment is reported as open where it is. -/
theorem openCommentAt_of_tokenize {p : Position}
    (h : tokenize d source = .error (.unterminatedComment p)) : OpenCommentAt d source p.chars := by
  obtain ⟨hreached, -, hfault⟩ := reached_of_tokenize h
  change Fault d p (source.toList.drop p.chars) _ at hfault
  generalize hahead : source.toList.drop p.chars = ahead at hfault
  cases hfault with
  | unterminated hallowed hopen => exact ⟨hallowed, hreached, _, hahead, hopen⟩

/-- What reading a source answers in place of its tokens is a fault of it. -/
theorem hasFaultAt_of_tokenize {e : LexError} (h : tokenize d source = .error e) :
    HasFaultAt d source e.position.chars := by
  cases e with
  | unknownToken c p => exact .inl ⟨c, unknownAt_of_tokenize h⟩
  | unterminatedComment p => exact .inr (openCommentAt_of_tokenize h)

/-- The bytes in front of the place where reading fails are those of the text in front of it. -/
theorem bytes_of_tokenize {e : LexError} (h : tokenize d source = .error e) :
    e.position.bytes = (String.ofList (source.toList.take e.position.chars)).utf8ByteSize := by
  obtain ⟨-, hposition, -⟩ := reached_of_tokenize h
  rw [← Position.bytes_ofChars, ← hposition]

end

/-- The faults of a source are where reading it fails: with an unknown character or an open comment
exactly at a reached place where there is one, which is never a second place, and nowhere exactly if
there are tokens. -/
structure LexFaultsLocated (d : Dialect) (source : String) : Prop where
  /-- A character is reported as unknown exactly where it is. -/
  unknown : ∀ c k, (∃ p, tokenize d source = .error (.unknownToken c p) ∧ p.chars = k) ↔
    UnknownAt d source k c
  /-- A comment is reported as open exactly where it is. -/
  unterminated : ∀ k, (∃ p, tokenize d source = .error (.unterminatedComment p) ∧ p.chars = k) ↔
    OpenCommentAt d source k
  /-- There is only one fault. -/
  unique : ∀ j k, HasFaultAt d source j → HasFaultAt d source k → j = k
  /-- A source has tokens exactly if it has no fault. -/
  ok : (∃ ts, tokenize d source = .ok ts) ↔ ∀ k, ¬ HasFaultAt d source k
  /-- The label of an unknown character covers it. -/
  unknown_span : ∀ c p, tokenize d source = .error (.unknownToken c p) →
    (LexError.unknownToken c p).diagnostic.label.span =
      ⟨(String.ofList (source.toList.take p.chars)).utf8ByteSize, c.utf8Size⟩
  /-- The label of an open comment covers its opener. -/
  unterminated_span : ∀ p, tokenize d source = .error (.unterminatedComment p) →
    (LexError.unterminatedComment p).diagnostic.label.span =
      ⟨(String.ofList (source.toList.take p.chars)).utf8ByteSize, 2⟩

/-- Every failure of reading tokens is located exactly. -/
theorem lexFaults_located (d : Dialect) (source : String) : LexFaultsLocated d source where
  unknown := by
    intro c k
    constructor
    · rintro ⟨p, h, rfl⟩
      exact unknownAt_of_tokenize h
    · intro h
      exact ⟨_, h.tokenize_eq_error, h.1.length_take⟩
  unterminated := by
    intro k
    constructor
    · rintro ⟨p, h, rfl⟩
      exact openCommentAt_of_tokenize h
    · intro h
      exact ⟨_, h.tokenize_eq_error, h.2.1.length_take⟩
  unique := by
    intro j k hj hk
    obtain ⟨e, he, rfl⟩ := hj.exists_error
    obtain ⟨e', he', rfl⟩ := hk.exists_error
    obtain rfl := Except.error.inj (he.symm.trans he')
    rfl
  ok := by
    constructor
    · rintro ⟨ts, hts⟩ k hk
      obtain ⟨e, he, -⟩ := hk.exists_error
      rw [hts] at he
      contradiction
    · intro hnone
      cases h : tokenize d source with
      | ok ts => exact ⟨ts, rfl⟩
      | error e => exact absurd (hasFaultAt_of_tokenize h) (hnone _)
  unknown_span c p h := by
    have hbytes := bytes_of_tokenize h
    exact congrArg (Span.mk · c.utf8Size) hbytes
  unterminated_span p h := by
    have hbytes := bytes_of_tokenize h
    exact congrArg (Span.mk · 2) hbytes

/-- The star of an opener closes nothing; without comments its slash is an unknown character. -/
example :
    tokenize {} "x /*/" = .error (.unterminatedComment ⟨2, 2⟩) ∧
      tokenize ⟨false⟩ "x /*/" = .error (.unknownToken '/' ⟨2, 2⟩) := by
  decide +kernel

end Idl
