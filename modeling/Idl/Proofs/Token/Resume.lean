import Mathlib.Order.Monotone.Basic
import Idl.Proofs.Token.Shift

/-!
# Reading on

A reading stops at the end of the text, at the opener of a comment that is never closed, or behind a
character that no lexeme begins with; `Stops` says where that leaves the cursor, and
`scan_stops` that there is nothing else. Reading can be taken up again from there, any number of
times. `cursorAfter` is where the readings so far have led, and `nthAnswer` what the next one says.

Every reading is that of a fresh text, moved (`scan_eq_answerBehind`), so all that the readings share is
the place where the cursor stands. It is a place of the source, counted alike in characters and in
bytes (`cursorAfter_standsIn`), and it never moves back (`chars_cursorAfter_mono`).
`lexer_resumes` puts this together: unknown characters are reported one behind the other, and what
else is answered is final.
-/

namespace Idl

/-! ## Where a reading stops -/

/-- No closer is found exactly in a text that holds none. -/
theorem afterCloser?_eq_none_iff {cs : List Char} {p : Position} :
    afterCloser? cs p = none ↔ ¬ ['*', '/'] <:+: cs := by
  constructor
  · intro h
    fun_induction afterCloser? cs p with
    | case1 => simp
    | case2 => contradiction
    | case3 c rest p hclose ih =>
      intro hinfix
      obtain hprefix | htail := List.infix_cons_iff.mp hinfix
      · obtain ⟨tail, htail⟩ := hprefix
        obtain ⟨hstar, hslash⟩ := List.cons.inj htail
        exact hclose tail hstar.symm hslash.symm
      · exact ih h htail
  · intro h
    cases hclose : afterCloser? cs p with
    | none => rfl
    | some q =>
      obtain ⟨body, hcs, -, -⟩ := exists_body hclose
      refine absurd ⟨body, q.rest, ?_⟩ h
      rw [hcs, List.append_assoc]
      rfl

/-- No gap begins where skipping stops. -/
theorem gapUnit?_skipGap {d : Dialect} {cs : List Char} {p : Position} {c : Cursor}
    (h : skipGap d cs p = c) : gapUnit? d c.rest c.position = none := by
  subst h
  fun_induction skipGap d cs p with
  | case1 cs p hunit => exact hunit
  | case2 cs p q hunit ih => exact ih

/-- No gap begins where a comment is opened that is never closed. -/
theorem skipGap_open {d : Dialect} (hallowed : d.blockComments = true) {body : List Char}
    (hopen : ¬ ['*', '/'] <:+: body) (p : Position) :
    skipGap d ('/' :: '*' :: body) p = ⟨'/' :: '*' :: body, p⟩ := by
  have hslash : ¬ isBlank '/' = true := by decide
  apply skipGap_of_none
  rw [gapUnit?, if_neg hslash, afterOpener?, if_pos hallowed, Option.bind_some]
  exact afterCloser?_eq_none_iff.mpr hopen

/-- What a reading of a text behind a position may answer, and where it leaves the cursor. -/
inductive Stops (d : Dialect) (cs : List Char) (p : Position) :
    Except LexError (List Token) × Cursor → Prop
  /-- All of the text is read. -/
  | ended (ts : List Token) : Stops d cs p (.ok ts, ⟨[], p + .ofChars cs⟩)
  /-- A comment is opened that is never closed, and the cursor stays at its opener. -/
  | opener {read body : List Char} (hcs : cs = read ++ '/' :: '*' :: body)
      (hallowed : d.blockComments = true) (hopen : ¬ ['*', '/'] <:+: body) :
      Stops d cs p
        (.error (.unterminatedComment (p + .ofChars read)), ⟨'/' :: '*' :: body, p + .ofChars read⟩)
  /-- No lexeme begins with a character, and the cursor goes past it. -/
  | unknown {read tail : List Char} {c : Char} (hcs : cs = read ++ c :: tail) :
      Stops d cs p
        (.error (.unknownToken c (p + .ofChars read)), ⟨tail, (p + .ofChars read).next c⟩)

/-- A reading stops in the same place if more of the text has been read before. -/
theorem Stops.behind {d : Dialect} {cs : List Char} {p : Position}
    {r : Except LexError (List Token) × Cursor} (front : List Char)
    (h : Stops d cs (p + .ofChars front) r) : Stops d (front ++ cs) p r := by
  cases h with
  | ended ts =>
    rw [Position.add_assoc, ← Position.ofChars_append]
    exact .ended ts
  | opener hcs hallowed hopen =>
    rw [Position.add_assoc, ← Position.ofChars_append]
    exact .opener (by rw [hcs, List.append_assoc]) hallowed hopen
  | unknown hcs =>
    rw [Position.add_assoc, ← Position.ofChars_append]
    exact .unknown (by rw [hcs, List.append_assoc])

/-- An opener behind which skipping stops opens a comment that is never closed. -/
theorem open_of_skipGap {d : Dialect} {cs rest : List Char} {p q : Position}
    (hskip : skipGap d cs p = ⟨rest, q⟩) (hopener : (afterOpener? d rest).isSome = true) :
    ∃ body, rest = '/' :: '*' :: body ∧ d.blockComments = true ∧ ¬ ['*', '/'] <:+: body := by
  have hunit := gapUnit?_skipGap hskip
  obtain ⟨body, hbody⟩ := Option.isSome_iff_exists.mp hopener
  unfold afterOpener? at hbody
  split at hbody
  · next body' =>
    split at hbody
    · next hallowed =>
      have hslash : ¬ isBlank '/' = true := by decide
      rw [gapUnit?, if_neg hslash, afterOpener?, if_pos hallowed, Option.bind_some] at hunit
      exact ⟨body', rfl, hallowed, afterCloser?_eq_none_iff.mp hunit⟩
    · contradiction
  · contradiction

/-- Every scan stops in one of the three ways. -/
theorem scan_stops (d : Dialect) (done : List Token) (cs : List Char) (p : Position) :
    Stops d cs p (scan d done cs p) := by
  fun_induction scan d done cs p with
  | case1 done cs p q hskip =>
    obtain ⟨gap, -, hcs, rfl⟩ := exists_gap hskip
    rw [List.append_nil] at hcs
    rw [← hcs]
    exact .ended _
  | case2 done cs p c rest q hskip hopener =>
    obtain ⟨gap, -, hcs, rfl⟩ := exists_gap hskip
    obtain ⟨body, hrest, hallowed, hopen⟩ := open_of_skipGap hskip hopener
    rw [hrest] at hcs ⊢
    exact .opener hcs hallowed hopen
  | case3 done cs p c rest q hskip _ _ =>
    obtain ⟨gap, -, hcs, rfl⟩ := exists_gap hskip
    exact .unknown hcs
  | case4 done cs p c rest q hskip _ x hlexeme ih =>
    obtain ⟨gap, -, hcs, rfl⟩ := exists_gap hskip
    rw [hcs, lexeme?_append hlexeme]
    exact .behind gap (.behind x.text ih)

/-- Every reading stops in one of the three ways. -/
theorem Cursor.tokens_stops (d : Dialect) (c : Cursor) :
    Stops d c.rest c.position (c.tokens d) :=
  scan_stops d [] c.rest c.position

/-! ## Where a cursor stands -/

/-- Whether a cursor stands at a place of a source: it has the rest of the source ahead, its two counts
are of the same place, and that is a place between two characters. -/
structure Cursor.StandsIn (source : String) (c : Cursor) : Prop where
  /-- The place is in the source. -/
  inside : c.position.chars ≤ source.length
  /-- What is ahead is the source from there on. -/
  rest : c.rest = source.toList.drop c.position.chars
  /-- The bytes counted are those of the characters counted. -/
  bytes : c.position.bytes = (String.ofList (source.toList.take c.position.chars)).utf8ByteSize
  /-- The source can be cut there. -/
  boundary : String.Pos.Raw.IsValid source ⟨c.position.bytes⟩

namespace Cursor

/-- A cursor behind the front part of a source stands there. -/
theorem StandsIn.of_append {source : String} {c : Cursor} (front : List Char)
    (hsource : source.toList = front ++ c.rest) (hposition : c.position = .ofChars front) :
    c.StandsIn source := by
  have hchars : c.position.chars = front.length := congrArg Position.chars hposition
  have hbytes : c.position.bytes = (String.ofList front).utf8ByteSize := by
    rw [hposition, Position.bytes_ofChars]
  constructor
  · rw [hchars, ← String.length_toList, hsource, List.length_append]
    exact Nat.le_add_right _ _
  · rw [hchars, hsource, List.drop_left]
  · rw [hchars, hsource, List.take_left]
    exact hbytes
  · rw [String.Pos.Raw.isValid_iff_exists_append]
    refine ⟨.ofList front, .ofList c.rest, ?_, String.Pos.Raw.ext hbytes⟩
    rw [← String.ofList_append, ← hsource, String.ofList_toList]

/-- What is in front of a cursor and what is ahead of it make up the source. -/
theorem StandsIn.exists_append {source : String} {c : Cursor} (h : c.StandsIn source) :
    ∃ front, source.toList = front ++ c.rest ∧ c.position = .ofChars front := by
  refine ⟨source.toList.take c.position.chars, ?_, ?_⟩
  · rw [h.rest, List.take_append_drop]
  · ext
    · show _ = (source.toList.take c.position.chars).length
      rw [List.length_take, String.length_toList, Nat.min_eq_left h.inside]
    · rw [Position.bytes_ofChars]
      exact h.bytes

/-- A reading leads from a place of the source to a place of the source. -/
theorem StandsIn.tokens {source : String} {c : Cursor} (h : c.StandsIn source) (d : Dialect) :
    (c.tokens d).2.StandsIn source := by
  obtain ⟨front, hsource, hposition⟩ := h.exists_append
  have hstops := c.tokens_stops d
  generalize c.tokens d = r at hstops
  cases hstops with
  | ended ts =>
    refine .of_append (front ++ c.rest) (by simpa using hsource) ?_
    rw [hposition, ← Position.ofChars_append]
  | @opener read body hcs _ _ =>
    refine .of_append (front ++ read) ?_ ?_
    · rw [hsource, hcs, List.append_assoc]
    · rw [hposition, ← Position.ofChars_append]
  | @unknown read tail ch hcs =>
    refine .of_append (front ++ read ++ [ch]) ?_ ?_
    · rw [hsource, hcs]
      simp
    · rw [hposition, ← Position.ofChars_append, Position.next_eq_add, ← Position.ofChars_append]

/-- A reading that succeeds leads to the end. -/
theorem tokens_of_ok {d : Dialect} {c : Cursor} {ts : List Token} (h : (c.tokens d).1 = .ok ts) :
    (c.tokens d).2 = ⟨[], c.position + .ofChars c.rest⟩ := by
  have hstops := c.tokens_stops d
  generalize c.tokens d = r at h hstops
  cases hstops with
  | ended => rfl
  | opener => cases h
  | unknown => cases h

/-- A reading that meets a comment that is never closed leads to its opener, not further back. -/
theorem tokens_of_unterminated {d : Dialect} {c : Cursor} {q : Position}
    (h : (c.tokens d).1 = .error (.unterminatedComment q)) :
    ∃ body, (c.tokens d).2 = ⟨'/' :: '*' :: body, q⟩ ∧ c.position.chars ≤ q.chars ∧
      d.blockComments = true ∧ ¬ ['*', '/'] <:+: body := by
  have hstops := c.tokens_stops d
  generalize c.tokens d = r at h hstops
  cases hstops with
  | ended => cases h
  | unknown => cases h
  | opener _ hallowed hopen =>
    cases h
    exact ⟨_, rfl, Nat.le_add_right _ _, hallowed, hopen⟩

/-- A reading that meets an unknown character leads behind it, and it is ahead of the cursor. -/
theorem tokens_of_unknown {d : Dialect} {c : Cursor} {ch : Char} {q : Position}
    (h : (c.tokens d).1 = .error (.unknownToken ch q)) :
    (c.tokens d).2.position = q.next ch ∧ c.position.chars ≤ q.chars := by
  have hstops := c.tokens_stops d
  generalize c.tokens d = r at h hstops
  cases hstops with
  | ended => cases h
  | opener => cases h
  | unknown =>
    cases h
    exact ⟨rfl, Nat.le_add_right _ _⟩

/-- A reading at the end says that the text ends there. -/
theorem tokens_nil (d : Dialect) (p : Position) :
    tokens d ⟨[], p⟩ = (.ok [Token.endAt p], ⟨[], p⟩) :=
  Layout.scan_of_end [] (skipGap_of_none rfl)

/-- A reading at the opener of a comment that is never closed fails there. -/
theorem tokens_open {d : Dialect} (hallowed : d.blockComments = true) {body : List Char}
    (hopen : ¬ ['*', '/'] <:+: body) (p : Position) :
    tokens d ⟨'/' :: '*' :: body, p⟩ =
      (.error (.unterminatedComment p), ⟨'/' :: '*' :: body, p⟩) := by
  have hopener : afterOpener? d ('/' :: '*' :: body) = some body := if_pos hallowed
  apply Layout.scan_of_opener [] (skipGap_open hallowed hopen p)
  rw [hopener]
  rfl

end Cursor

/-! ## Reading again and again -/

/-- Where the cursor stands after some readings of a source. -/
def cursorAfter (d : Dialect) (source : String) : Nat → Cursor
  | 0 => .ofString source
  | n + 1 => ((cursorAfter d source n).tokens d).2

/-- What the next reading of a source answers after some readings of it. -/
def nthAnswer (d : Dialect) (source : String) (n : Nat) : Except LexError (List Token) :=
  ((cursorAfter d source n).tokens d).1

/-- Whether the answer is that a character is unknown. -/
def isUnknown : Except LexError (List Token) → Bool
  | .error (.unknownToken _ _) => true
  | _ => false

section

variable (d : Dialect) (source : String)

/-- After any number of readings the cursor stands at a place of the source. -/
theorem cursorAfter_standsIn (n : Nat) : (cursorAfter d source n).StandsIn source := by
  induction n with
  | zero => exact .of_append [] rfl rfl
  | succ n ih => exact ih.tokens d

/-- A reading moves the cursor on, at least past the character if that is unknown. -/
theorem chars_cursorAfter_succ (n : Nat) :
    (cursorAfter d source n).position.chars + (isUnknown (nthAnswer d source n)).toNat ≤
      (cursorAfter d source (n + 1)).position.chars := by
  rw [cursorAfter]
  cases hanswer : nthAnswer d source n with
  | ok ts =>
    rw [Cursor.tokens_of_ok hanswer]
    exact Nat.le_add_right _ _
  | error e =>
    cases e with
    | unknownToken ch q =>
      obtain ⟨hposition, hle⟩ := Cursor.tokens_of_unknown hanswer
      rw [hposition]
      exact Nat.succ_le_succ hle
    | unterminatedComment q =>
      obtain ⟨body, hcursor, hle, -, -⟩ := Cursor.tokens_of_unterminated hanswer
      rw [hcursor]
      exact hle

/-- The cursor never moves back. -/
theorem chars_cursorAfter_mono : Monotone fun n => (cursorAfter d source n).position.chars :=
  monotone_nat_of_le_succ fun n =>
    (Nat.le_add_right _ _).trans (chars_cursorAfter_succ d source n)

/-- The cursor has gone past a character for each that was unknown. -/
theorem countP_isUnknown_le (n : Nat) :
    (List.range n).countP (fun i => isUnknown (nthAnswer d source i)) ≤
      (cursorAfter d source n).position.chars := by
  induction n with
  | zero => exact Nat.zero_le _
  | succ n ih =>
    have hstep := chars_cursorAfter_succ d source n
    rw [List.range_succ, List.countP_append, List.countP_singleton]
    cases hunknown : isUnknown (nthAnswer d source n) <;>
      simp only [hunknown, Bool.toNat_true, Bool.toNat_false, if_true] at hstep ⊢
    · exact ih.trans hstep
    · omega

/-- A reading that succeeds leads to the end of the source. -/
theorem cursorAfter_of_ok {n : Nat} {ts : List Token} (h : nthAnswer d source n = .ok ts) :
    cursorAfter d source (n + 1) = ⟨[], .ofString source⟩ := by
  obtain ⟨front, hsource, hposition⟩ := (cursorAfter_standsIn d source n).exists_append
  rw [cursorAfter, Cursor.tokens_of_ok h, hposition, ← Position.ofChars_append, ← hsource]
  rfl

/-- At the end every reading says that the text ends there, and stays. -/
theorem nthAnswer_of_ok {m n : Nat} {ts : List Token} (h : nthAnswer d source m = .ok ts)
    (hlt : m < n) : nthAnswer d source n = .ok [Token.endAt (.ofString source)] := by
  have hcursor : cursorAfter d source n = ⟨[], .ofString source⟩ := by
    induction n, hlt using Nat.le_induction with
    | base => exact cursorAfter_of_ok d source h
    | succ n _ ih => rw [cursorAfter, ih, Cursor.tokens_nil]
  rw [nthAnswer, hcursor, Cursor.tokens_nil]

/-- At the opener of a comment that is never closed every reading fails as the first one did. -/
theorem nthAnswer_of_unterminated {m n : Nat} {q : Position}
    (h : nthAnswer d source m = .error (.unterminatedComment q)) (hle : m ≤ n) :
    nthAnswer d source n = .error (.unterminatedComment q) := by
  obtain ⟨body, hcursor, -, hallowed, hopen⟩ := Cursor.tokens_of_unterminated h
  have hstay : ∀ k, m < k → cursorAfter d source k = ⟨'/' :: '*' :: body, q⟩ := by
    intro k hlt
    induction k, hlt using Nat.le_induction with
    | base => exact hcursor
    | succ k _ ih => rw [cursorAfter, ih, Cursor.tokens_open hallowed hopen]
  rcases Nat.eq_or_lt_of_le hle with rfl | hlt
  · exact h
  · rw [nthAnswer, hstay n hlt, Cursor.tokens_open hallowed hopen]

/-- Reading a source again and again, the cursor always stands at a place of it and reads what is ahead
as if it were a source of its own. Unknown characters are reported one behind the other, so there are
no more of them than characters; every other answer is the last one, but that after the tokens of the
source only its end is left to read. -/
structure Resumes : Prop where
  /-- The cursor stands at a place of the source. -/
  stands : ∀ n, (cursorAfter d source n).StandsIn source
  /-- What is ahead is read as a source of its own, moved to where it stands. -/
  fresh : ∀ n, nthAnswer d source n =
    answerBehind [] (cursorAfter d source n).position
      (tokenize d (.ofList (source.toList.drop (cursorAfter d source n).position.chars)))
  /-- After a success the cursor stands at the end. -/
  at_end : ∀ n ts, nthAnswer d source n = .ok ts →
    cursorAfter d source (n + 1) = ⟨[], .ofString source⟩
  /-- After a comment that is never closed it stands at the opener. -/
  at_opener : ∀ n q, nthAnswer d source n = .error (.unterminatedComment q) →
    (cursorAfter d source (n + 1)).position = q ∧
      ['/', '*'] <+: (cursorAfter d source (n + 1)).rest
  /-- After an unknown character it stands behind it. -/
  past_unknown : ∀ n c q, nthAnswer d source n = .error (.unknownToken c q) →
    (cursorAfter d source (n + 1)).position = q.next c
  /-- Unknown characters are reported in the order of the source. -/
  increasing : ∀ m n c c' q q', m < n → nthAnswer d source m = .error (.unknownToken c q) →
    nthAnswer d source n = .error (.unknownToken c' q') → q.chars < q'.chars
  /-- There are no more reports of unknown characters than there are characters. -/
  few_unknown : ∀ n, (List.range n).countP (fun i => isUnknown (nthAnswer d source i)) ≤
    source.length
  /-- After a success there is only the end of the source to read. -/
  ended : ∀ m n ts, nthAnswer d source m = .ok ts → m < n →
    nthAnswer d source n = .ok [Token.endAt (.ofString source)]
  /-- After a comment that is never closed every reading fails as the first one did. -/
  unterminated : ∀ m n q, nthAnswer d source m = .error (.unterminatedComment q) → m ≤ n →
    nthAnswer d source n = .error (.unterminatedComment q)

/-- Reading on from where a reading has stopped is reading the rest afresh. -/
theorem lexer_resumes : Resumes d source where
  stands := cursorAfter_standsIn d source
  fresh n := by
    have hfresh := scan_eq_answerBehind d [] (cursorAfter d source n).rest
      (cursorAfter d source n).position
    rw [(cursorAfter_standsIn d source n).rest] at hfresh
    rw [← hfresh, ← (cursorAfter_standsIn d source n).rest]
    rfl
  at_end _ _ h := cursorAfter_of_ok d source h
  at_opener n q h := by
    obtain ⟨body, hcursor, -⟩ := Cursor.tokens_of_unterminated h
    rw [cursorAfter, hcursor]
    exact ⟨rfl, body, rfl⟩
  past_unknown _ _ _ h := (Cursor.tokens_of_unknown h).1
  increasing := by
    intro m n c c' q q' hlt hm hn
    have hpast : (cursorAfter d source (m + 1)).position.chars = q.chars + 1 :=
      congrArg Position.chars (Cursor.tokens_of_unknown hm).1
    have hmono : (cursorAfter d source (m + 1)).position.chars ≤
        (cursorAfter d source n).position.chars := chars_cursorAfter_mono d source hlt
    have hahead := (Cursor.tokens_of_unknown hn).2
    omega
  few_unknown n := (countP_isUnknown_le d source n).trans (cursorAfter_standsIn d source n).inside
  ended _ _ _ h hlt := nthAnswer_of_ok d source h hlt
  unterminated _ _ _ h hle := nthAnswer_of_unterminated d source h hle

end

end Idl
