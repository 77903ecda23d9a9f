import Idl.Proofs.Token.Layout

/-!
# Reading behind other text

What stands in front of a text changes nothing in how the text is read but the positions: they are all
moved by the length of what stands in front (`scan_shift`). And a text that is laid out as gaps and
lexemes is read first, whatever follows it, unless its last word goes on there
(`Layout.LeadsTo.scan`). So two texts laid end to end have the tokens of the first without its
end, and behind them those of the second (`tokenize_append`).
-/

namespace Idl

open Layout (scan_of_end scan_of_opener scan_of_unknown scan_of_lexeme)

/-! ## Moving a cursor -/

/-- The cursor over the same text where `p` stands in front. -/
def Cursor.shift (p : Position) (c : Cursor) : Cursor := ⟨c.rest, p + c.position⟩

/-- Going on by a character is the same behind any position. -/
theorem Position.add_next (p q : Position) (c : Char) : (p + q).next c = p + q.next c := by
  rw [next_eq_add, next_eq_add, add_assoc]

/-- A closer is found in the same place behind any position. -/
theorem afterCloser?_shift (cs : List Char) (p q : Position) :
    afterCloser? cs (p + q) = (afterCloser? cs q).map (Cursor.shift p) := by
  fun_induction afterCloser? cs q with
  | case1 => rfl
  | case2 rest q =>
    rw [afterCloser?.eq_2, Position.add_next, Position.add_next]
    rfl
  | case3 c rest q hclose ih => rw [afterCloser?.eq_3 _ _ _ hclose, Position.add_next, ih]

/-- The same is passed over in one go behind any position. -/
theorem gapUnit?_shift (d : Dialect) (cs : List Char) (p q : Position) :
    gapUnit? d cs (p + q) = (gapUnit? d cs q).map (Cursor.shift p) := by
  unfold gapUnit?
  split
  · rfl
  · split
    · rw [Position.add_next]
      rfl
    · rw [Position.add_next, Position.add_next, Option.map_bind]
      exact Option.bind_congr fun body _ => afterCloser?_shift body p _

/-- The same gap is skipped behind any position. -/
theorem skipGap_shift {d : Dialect} {cs : List Char} {q : Position} {c : Cursor}
    (h : skipGap d cs q = c) (p : Position) : skipGap d cs (p + q) = c.shift p := by
  subst h
  fun_induction skipGap d cs q with
  | case1 cs q hunit =>
    apply skipGap_of_none
    rw [gapUnit?_shift, hunit]
    rfl
  | case2 cs q r hunit ih =>
    have hmoved : gapUnit? d cs (p + q) = some (r.shift p) := by
      rw [gapUnit?_shift, hunit]
      rfl
    rw [skipGap_of_some hmoved]
    exact ih

/-! ## Moving a scan -/

/-- What is read behind a position: the tokens `before`, which stand in front of it, and then what is
read at the front of a text, moved. -/
def answerBehind (before : List Token) (p : Position) :
    Except LexError (List Token) → Except LexError (List Token)
  | .ok ts => .ok (before ++ ts.map (Token.shift p))
  | .error e => .error (e.shift p)

/-- A scan behind a position, and behind tokens that were read in front of it, gives the same answer
with every position moved, and stops in the same place of the text. -/
theorem scan_shift (d : Dialect) (before : List Token) (p : Position) (done : List Token)
    (cs : List Char) (q : Position) :
    scan d (done.map (Token.shift p) ++ before.reverse) cs (p + q) =
      (answerBehind before p (scan d done cs q).1, (scan d done cs q).2.shift p) := by
  fun_induction scan d done cs q with
  | case1 done cs q r hskip =>
    rw [scan_of_end _ (skipGap_shift hskip p)]
    simp [answerBehind, Cursor.shift, Token.endAt, Token.shift]
  | case2 done cs q c rest r hskip hopen =>
    rw [scan_of_opener _ (skipGap_shift hskip p) hopen]
    rfl
  | case3 done cs q c rest r hskip hopen hlexeme =>
    rw [scan_of_unknown _ (skipGap_shift hskip p) hopen hlexeme, Position.add_next]
    rfl
  | case4 done cs q c rest r hskip hopen x hlexeme ih =>
    have hnone : afterOpener? d (c :: rest) = none := Option.not_isSome_iff_eq_none.mp hopen
    rw [scan_of_lexeme _ (skipGap_shift hskip p) hnone hlexeme]
    show scan d _ x.rest (p + r + .ofChars x.text) = _
    rw [Position.add_assoc]
    exact ih

/-- The scan of a text behind a position is the reading of the text, moved. -/
theorem scan_eq_answerBehind (d : Dialect) (before : List Token) (cs : List Char) (p : Position) :
    (scan d before.reverse cs p).1 = answerBehind before p (tokenize d (.ofList cs)) := by
  have hshift := congrArg Prod.fst (scan_shift d before p [] cs .start)
  rw [Position.add_start, List.map_nil, List.nil_append] at hshift
  rw [hshift, tokenize, Cursor.tokens, Cursor.ofString, String.toList_ofList]

/-! ## Texts laid end to end -/

/-- A scan sees of a text only where its first gap leads. -/
theorem scan_eq_of_skipGap {d : Dialect} {cs cs' : List Char} {p p' : Position} (done : List Token)
    (h : skipGap d cs p = skipGap d cs' p') : scan d done cs p = scan d done cs' p' := by
  rcases hskip : skipGap d cs' p' with ⟨rest, q⟩
  rw [hskip] at h
  cases rest with
  | nil => rw [scan_of_end done h, scan_of_end done hskip]
  | cons c rest =>
    by_cases hopen : (afterOpener? d (c :: rest)).isSome = true
    · rw [scan_of_opener done h hopen, scan_of_opener done hskip hopen]
    · have hnone := Option.not_isSome_iff_eq_none.mp hopen
      cases hlexeme : lexeme? (c :: rest) with
      | none => rw [scan_of_unknown done h hopen hlexeme, scan_of_unknown done hskip hopen hlexeme]
      | some x => rw [scan_of_lexeme done h hnone hlexeme, scan_of_lexeme done hskip hnone hlexeme]

/-- What ends a word ends it whatever is behind. -/
theorem EndsWord.append {cs : List Char} (h : EndsWord cs) (hne : cs ≠ []) (rest : List Char) :
    EndsWord (cs ++ rest) := by
  cases cs with
  | nil => contradiction
  | cons c cs => exact h

namespace Layout

/-- The first lexeme of a layout stays as it is when a text is laid behind, if the last one does. -/
theorem maximal_append {d : Dialect} {x : Segment} {l : Layout} (hx : x.Valid d l.text)
    (hl : l.Valid d) {rest : List Char}
    (hlast : ∀ y ∈ (cons x l).segments.getLast?, Maximal y.kind (l.tail ++ rest)) :
    Maximal x.kind (l.text ++ rest) := by
  cases hl with
  | nil => exact hlast x rfl
  | @cons y m hy _ =>
    intro hword
    apply (hx.maximal hword).append
    obtain ⟨c, cs, hcons, -⟩ := hy.lexeme.exists_cons
    rw [text_cons, hcons]
    simp

/-- Whether a layout leads up to a text that stands behind it: its gaps are gaps, its lexemes lexemes, and
no word could be longer, the last one in front of that text included. -/
inductive LeadsTo (d : Dialect) (rest : List Char) : Layout → Prop
  | nil {tail : List Char} (hgap : Gap d tail) : LeadsTo d rest ⟨[], tail⟩
  | cons {x : Segment} {l : Layout} (hx : x.Valid d (l.text ++ rest)) (hl : LeadsTo d rest l) :
    LeadsTo d rest (cons x l)

/-- A valid layout leads up to any text that does not make its last lexeme longer. -/
theorem Valid.leadsTo {d : Dialect} {l : Layout} (h : l.Valid d) {rest : List Char}
    (hlast : ∀ x ∈ l.segments.getLast?, Maximal x.kind (l.tail ++ rest)) : l.LeadsTo d rest := by
  induction h with
  | nil hgap => exact .nil hgap
  | @cons x l hx hl ih =>
    refine .cons ⟨hx.gap, hx.lexeme, maximal_append hx hl hlast⟩ (ih fun y hy => ?_)
    apply hlast y
    rw [Layout.cons, List.getLast?_cons, Option.mem_def.mp hy]
    rfl

/-- A scan over a layout reads its lexemes and goes on with the text that the layout leads up to. -/
theorem LeadsTo.scan {d : Dialect} {l : Layout} {rest : List Char} (h : l.LeadsTo d rest)
    (done : List Token) (p : Position) :
    scan d done (l.text ++ rest) p =
      scan d ((l.lexemesAt p).reverse ++ done) rest (p + .ofChars l.text) := by
  induction h generalizing done p with
  | @nil tail hgap =>
    apply scan_eq_of_skipGap
    exact skipGap_gap hgap rest p
  | @cons x l hx hl ih =>
    -- Behind the gap stands the lexeme, and behind that the rest of the layout and the text.
    have hskip : skipGap d ((Layout.cons x l).text ++ rest) p =
        ⟨x.text ++ (l.text ++ rest), p + .ofChars x.gap⟩ := by
      rw [text_cons, List.append_assoc, List.append_assoc]
      exact skipGap_append hx.gap (hx.lexeme.gapUnit? d _) p
    have hlexeme : lexeme? (x.text ++ (l.text ++ rest)) = some ⟨x.kind, x.text, l.text ++ rest⟩ :=
      lexeme?_eq_some_iff.mpr ⟨rfl, hx.lexeme, hx.maximal⟩
    rw [scan_of_lexeme done hskip (hx.lexeme.afterOpener? d _) hlexeme, ih, lexemesAt_cons,
      text_cons, Position.ofChars_append, Position.ofChars_append, ← Position.add_assoc,
      ← Position.add_assoc, List.reverse_cons, List.append_assoc]
    rfl

end Layout

/-- Two texts laid end to end have the tokens of the first, without its end, and behind them what is
read of the second, unless the last lexeme of the first is a word that the second makes longer. -/
theorem tokenize_append {d : Dialect} {l : Layout} (h : l.Valid d) {s t : String}
    (htext : l.text = s.toList)
    (hlast : ∀ x ∈ l.segments.getLast?, Maximal x.kind (l.tail ++ t.toList)) :
    tokenize d (s ++ t) = answerBehind (l.lexemesAt .start) (.ofString s) (tokenize d t) := by
  have hscan := congrArg Prod.fst ((h.leadsTo hlast).scan [] .start)
  rw [List.append_nil, Position.start_add, htext, scan_eq_answerBehind, String.ofList_toList] at hscan
  rw [tokenize, Cursor.tokens, Cursor.ofString, String.toList_append, Position.ofString, ← hscan]

end Idl
