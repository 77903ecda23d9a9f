import Idl.Proofs.Source.Concatenation
import Idl.Proofs.Token.Faults

/-!
# Where errors are

An error names a part of its source: a character, the opener of a comment, a lexeme, or the end. Its label
covers that part and nothing else, counted in bytes, and its offset is the number of characters in front
of it (`SourceError.Coherent`).

Both phases only ever name what stands in the source. Where reading tokens fails, the text in front of
the fault is known (`reached_of_tokenize`). And every token stands in the source where it says
(`standsIn_of_tokenize`), the one that an error of the parser names included, since it is one of those
that were read: they end with a token that says so, and none has to be made up (`mem_of_parse_error`).
-/

namespace Idl

open Grammar

/-! ## Parts of a source -/

/-- Whether a span covers a text that begins at a position of a source. -/
structure Covers (source : String) (p : Position) (span : Span) (text : String) : Prop where
  /-- The span is inside the source. -/
  inside : span.start + span.length ≤ source.utf8ByteSize
  /-- It begins between two characters. -/
  start_valid : String.Pos.Raw.IsValid source ⟨span.start⟩
  /-- It ends between two characters. -/
  stop_valid : String.Pos.Raw.IsValid source ⟨span.start + span.length⟩
  /-- The position is where it begins: behind so many bytes and so many characters of the source. -/
  front : ∃ front behind, source = front ++ behind ∧ front.utf8ByteSize = span.start ∧
    front.length = p.chars
  /-- The bytes that it covers are those of the text. -/
  slice : source.toByteArray.extract span.start (span.start + span.length) = text.toByteArray

/-- A part of a source is covered by the span of its bytes. -/
theorem Covers.of_append {source front text behind : String} (hsource : source = front ++ text ++ behind) :
    Covers source (.ofString front) ⟨front.utf8ByteSize, text.utf8ByteSize⟩ text where
  inside := by
    rw [hsource, String.utf8ByteSize_append, String.utf8ByteSize_append]
    exact Nat.le_add_right _ _
  start_valid := by
    rw [String.Pos.Raw.isValid_iff_exists_append]
    exact ⟨front, text ++ behind, by rw [hsource, String.append_assoc], rfl⟩
  stop_valid := by
    rw [String.Pos.Raw.isValid_iff_exists_append]
    exact ⟨front ++ text, behind, hsource, String.Pos.Raw.ext (String.utf8ByteSize_append ..).symm⟩
  front := ⟨front, text ++ behind, by rw [hsource, String.append_assoc], rfl, by simp⟩
  slice := by
    rw [hsource, String.append_assoc, String.toByteArray_append, String.toByteArray_append]
    change (front.toByteArray ++ (text.toByteArray ++ behind.toByteArray)).extract
      (front.toByteArray.size + 0) (front.toByteArray.size + text.toByteArray.size) = _
    rw [ByteArray.extract_append_size_add, ByteArray.extract_append_eq_left rfl]

/-! ## Where tokens stand -/

/-- Whether a token stands in a source where it says. -/
structure Token.StandsIn (source : String) (t : Token) : Prop where
  /-- The text of the token stands in the source at the position of the token. -/
  cut : ∃ front behind, source = front ++ t.text ++ behind ∧ t.position = .ofString front
  /-- A token that ends the input is blank and stands at the end. -/
  ended : t.kind = .endOfInput → t = .endAt (.ofString source)

namespace Layout

/-- The lexemes of a layout stand in its text where they say, behind what is in front of it. -/
theorem exists_cut_of_mem_lexemesAt {l : Layout} {p : Position} {t : Token} (ht : t ∈ l.lexemesAt p) :
    ∃ front behind, l.text = front ++ t.text.toList ++ behind ∧ t.position = p + .ofChars front := by
  induction l generalizing p with
  | nil tail =>
    rw [lexemesAt, tokensAt_nil] at ht
    contradiction
  | cons x l ih =>
    rw [lexemesAt_cons] at ht
    rw [text_cons]
    rcases List.mem_cons.mp ht with rfl | ht
    · exact ⟨x.gap, l.text, by simp, rfl⟩
    · -- A later lexeme stands behind the first one as well.
      obtain ⟨front, behind, hrest, hposition⟩ := ih ht
      refine ⟨x.gap ++ x.text ++ front, behind, by simp [hrest], ?_⟩
      rw [hposition, Position.add_assoc, Position.add_assoc, ← Position.ofChars_append,
        ← Position.ofChars_append, List.append_assoc]

/-- The tokens of a valid layout stand where they say. -/
theorem Valid.standsIn {d : Dialect} {l : Layout} (h : l.Valid d) {source : String}
    (htext : l.text = source.toList) : ∀ t ∈ l.tokens, t.StandsIn source := by
  intro t ht
  rw [← tokensAt_start, tokensAt_eq] at ht
  rcases List.mem_append.mp ht with ht | ht
  · obtain ⟨front, behind, hcut, hposition⟩ := exists_cut_of_mem_lexemesAt ht
    refine ⟨⟨.ofList front, .ofList behind, ?_, ?_⟩, fun hend => ?_⟩
    · rw [← String.toList_inj, ← htext, hcut]
      simp
    · rw [hposition, Position.start_add, Position.ofString, String.toList_ofList]
    · exact absurd hend (h.kind_lexemesAt .start t ht)
  · obtain rfl := List.mem_singleton.mp ht
    rw [Position.start_add, htext]
    exact ⟨⟨source, "", by simp [Token.endAt], rfl⟩, fun _ => rfl⟩

end Layout

/-- The tokens of a source stand in it where they say. -/
theorem standsIn_of_tokenize {d : Dialect} {source : String} {ts : List Token}
    (h : tokenize d source = .ok ts) : ∀ t ∈ ts, t.StandsIn source := by
  obtain ⟨l, hl, htext, rfl⟩ := Layout.exists_of_tokenize h
  exact hl.standsIn htext

/-- The tokens of a source end with one that says so. -/
theorem exists_end_of_tokenize {d : Dialect} {source : String} {ts : List Token}
    (h : tokenize d source = .ok ts) : ∃ t ∈ ts, t.kind = .endOfInput := by
  obtain ⟨l, -, -, rfl⟩ := Layout.exists_of_tokenize h
  exact ⟨_, List.mem_append_right _ (List.mem_singleton_self _), rfl⟩

/-- Where a token ends the input, an error names one of the tokens. -/
theorem mem_of_parse_error {ts : List Token} {e : ParseError} (h : parse ts = .error e)
    (hend : ∃ t ∈ ts, t.kind = .endOfInput) : e.token ∈ ts := by
  obtain ⟨read, rest, s, rfl, hwalk, -, hcut⟩ :=
    runProgram_cut (some maxTypeDepth) (.endAfter ts) ts
  rcases hcut with ⟨-, -, hrun⟩ | ⟨-, hrun⟩
  · rw [parse, parseWithin, hrun] at h
    contradiction
  · rw [parse, parseWithin, hrun] at h
    cases h
    cases rest with
    | nil =>
      -- All tokens would have been read, and the end of the input is never read.
      obtain ⟨t, ht, hkind⟩ := hend
      rw [List.append_nil] at ht
      exact absurd hkind (Progress.walk?_kind_ne_endOfInput hwalk t ht)
    | cons t rest => exact List.mem_append_right _ List.mem_cons_self

/-! ## Where errors are -/

/-- A token that does not end the input is quoted. -/
theorem Token.describe_of_kind_ne {t : Token} (h : t.kind ≠ .endOfInput) : t.describe = s!"'{t.text}'" := by
  cases hkind : t.kind with
  | endOfInput => exact absurd hkind h
  | _ => simp only [describe, hkind]

namespace SourceError

/-- The part of the source that an error is about. -/
def named : SourceError → String
  | lex (.unknownToken c _) => .singleton c
  | lex (.unterminatedComment _) => "/*"
  | parse e => e.token.text

/-- The label of an error is as long as what the error is about, and begins where the error is. -/
theorem span_eq (e : SourceError) :
    e.diagnostic.label.span = ⟨e.position.bytes, e.named.utf8ByteSize⟩ := by
  rcases e with (⟨c, p⟩ | p) | e
  · rw [named, String.utf8ByteSize_singleton]
    rfl
  · rfl
  · rw [named, ← Position.bytes_ofString]
    rfl

/-- An error of reading tokens is about what stands at the fault. -/
theorem exists_cut_of_tokenize {d : Dialect} {source : String} {e : LexError}
    (h : tokenize d source = .error e) :
    ∃ front behind, source = front ++ (lex e).named ++ behind ∧
      (lex e).position = .ofString front := by
  obtain ⟨-, hposition, hfault⟩ := reached_of_tokenize h
  generalize e.position.chars = k at hposition hfault
  have hsource : source = .ofList (source.toList.take k) ++ .ofList (source.toList.drop k) := by
    rw [← String.ofList_append, List.take_append_drop, String.ofList_toList]
  have hfront : (lex e).position = .ofString (.ofList (source.toList.take k)) := by
    rw [Position.ofString, String.toList_ofList]
    exact hposition
  -- What the error is about is at the front of what is ahead.
  suffices hahead : ∃ behind, String.ofList (source.toList.drop k) = (lex e).named ++ behind by
    obtain ⟨behind, hahead⟩ := hahead
    rw [hahead, ← String.append_assoc] at hsource
    exact ⟨_, behind, hsource, hfront⟩
  generalize source.toList.drop k = ahead at hfault
  generalize e.position = p at hfault
  cases hfault with
  | @unknown c rest _ => exact ⟨.ofList rest, String.ofList_cons⟩
  | @unterminated body _ _ => exact ⟨.ofList body, by rw [← String.toList_inj]; simp [named]⟩

/-- What an error names, and where. -/
structure Coherent (source : String) (e : SourceError) : Prop where
  /-- The label covers what the error is about, and the offset is where it begins. -/
  covers : Covers source e.position e.diagnostic.label.span e.named
  /-- An error of the parser at a lexeme quotes it. -/
  at_lexeme : ∀ pe, e = parse pe → pe.token.kind ≠ .endOfInput →
    e.named = pe.token.text ∧ e.found = s!"'{pe.token.text}'"
  /-- An error of the parser at the end says so, and its label is blank there. -/
  at_end : ∀ pe, e = parse pe → pe.token.kind = .endOfInput →
    e.named = "" ∧ e.found = "end of input" ∧
      e.diagnostic.label.span = ⟨source.utf8ByteSize, 0⟩ ∧ e.position.chars = source.length

/-- The label of an error covers what it is about, if that stands at its position. -/
theorem covers_of_cut {source : String} {e : SourceError}
    (h : ∃ front behind, source = front ++ e.named ++ behind ∧ e.position = .ofString front) :
    Covers source e.position e.diagnostic.label.span e.named := by
  obtain ⟨front, behind, hsource, hposition⟩ := h
  rw [e.span_eq, hposition, Position.bytes_ofString]
  exact .of_append hsource

/-- An error of reading tokens is coherent with the source. -/
theorem coherent_of_tokenize {d : Dialect} {source : String} {e : LexError}
    (h : tokenize d source = .error e) : (lex e).Coherent source where
  covers := covers_of_cut (exists_cut_of_tokenize h)
  at_lexeme := by rintro pe ⟨⟩
  at_end := by rintro pe ⟨⟩

/-- An error of the parser at a token that stands in a source is coherent with the source. -/
theorem coherent_of_standsIn {source : String} {e : ParseError} (h : e.token.StandsIn source) :
    (parse e).Coherent source where
  covers := covers_of_cut h.cut
  at_lexeme := by
    rintro pe ⟨⟩ hkind
    exact ⟨rfl, Token.describe_of_kind_ne hkind⟩
  at_end := by
    rintro pe ⟨⟩ hkind
    rw [span_eq, named, position, found, h.ended hkind]
    simp [Token.endAt, Token.describe]

end SourceError

section

variable {d : Dialect} {source : String}

/-- Reading a source fails in its first phase exactly if it has no tokens. -/
theorem parseSource_eq_lex_iff {e : LexError} :
    parseSource d source = .error (.lex e) ↔ tokenize d source = .error e := by
  unfold parseSource
  cases tokenize d source with
  | error e' => simp
  | ok ts =>
    show (parse ts).mapError SourceError.parse = _ ↔ _
    cases parse ts <;> simp [Except.mapError]

/-- Reading a source fails in its second phase exactly if its tokens are no program. -/
theorem parseSource_eq_parse_iff {e : ParseError} :
    parseSource d source = .error (.parse e) ↔
      ∃ ts, tokenize d source = .ok ts ∧ parse ts = .error e := by
  unfold parseSource
  cases tokenize d source with
  | error e' => simp
  | ok ts =>
    show (parse ts).mapError SourceError.parse = _ ↔ _
    cases hparse : parse ts <;> simp [Except.mapError, hparse]

end

/-- Every error of reading a source covers by its label what it is about, at its offset. It is one of the
first phase exactly if the source has no tokens, whatever the parser would have made of those in front
of the fault. -/
theorem errors_coherent (d : Dialect) (source : String) :
    (∀ e, parseSource d source = .error e → e.Coherent source) ∧
      ∀ e, parseSource d source = .error (.lex e) ↔ tokenize d source = .error e := by
  refine ⟨fun e h => ?_, fun e => parseSource_eq_lex_iff⟩
  cases e with
  | lex e => exact SourceError.coherent_of_tokenize (parseSource_eq_lex_iff.mp h)
  | parse e =>
    obtain ⟨ts, hts, hparse⟩ := parseSource_eq_parse_iff.mp h
    have hmem : e.token ∈ ts := mem_of_parse_error hparse (exists_end_of_tokenize hts)
    exact SourceError.coherent_of_standsIn (standsIn_of_tokenize hts _ hmem)

/-- Behind a comment that is longer in bytes than in characters, an error of the parser is about the name
that stands in place of a colon, and an unknown character is reported although the brace in front of it
begins no program. -/
theorem errors_coherent_behind_comment :
    let s := "/* é */ struct A \x7b x int; \x7d"
    let t := "\x7d /* é */ #"
    let e := SourceError.parse ⟨⟨.identifier, "int", ⟨21, 22⟩⟩, .memberColon⟩
    let f := LexError.unknownToken '#' ⟨10, 11⟩
    parseSource {} s = .error e ∧ e.Coherent s ∧ tokenize {} t = .error f ∧
      parseSource {} t = .error (.lex f) ∧ (SourceError.lex f).Coherent t := by
  intro s t e f
  have hs : parseSource {} s = .error e := by decide +kernel
  have ht : tokenize {} t = .error f := by decide +kernel
  have hlex : parseSource {} t = .error (.lex f) := ((errors_coherent {} t).2 f).mpr ht
  exact ⟨hs, (errors_coherent {} s).1 e hs, ht, hlex, (errors_coherent {} t).1 _ hlex⟩

end Idl
