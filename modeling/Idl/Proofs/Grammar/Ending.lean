import Idl.Proofs.Grammar.Repair

/-!
# How the input may end

The input ends at the first token that says so, and else behind the last token. It does not matter which of
the two it is, nor what follows such a token: a walk halts in front of it where it halts for want of tokens
(`Place.Halts.append_end`), so the same tokens are read and the same is asked for behind them. Only a fault
at the very end shows the difference, in the place that is reported for it (`EndFault`): that of the token
that ends the input, or one that is worked out from the last token (`ReportedBehind`).
-/

namespace Idl

namespace Grammar

/-- A walk that halts in front of some tokens, or for want of them, halts if the end of the input is put
behind them. -/
theorem Place.Halts.append_end {limit : Option Nat} {place : Place} {rest : List Token}
    (h : place.Halts limit rest) {e : Token} (he : e.kind = .endOfInput) (r : List Token) :
    place.Halts limit (rest ++ e :: r) := by
  cases rest with
  | nil =>
    intro t ht
    cases ht
    exact place.step?_endOfInput limit he
  | cons t rest => exact h

/-- Tokens that do not end the input are over exactly if there are none, whether its end is put behind them
or not. -/
theorem atEnd_append_end {rest : List Token} (hrest : ∀ t ∈ rest, t.kind ≠ .endOfInput) {e : Token}
    (he : e.kind = .endOfInput) (r : List Token) : AtEnd (rest ++ e :: r) ↔ AtEnd rest := by
  cases rest with
  | nil =>
    refine iff_of_true ?_ ?_
    · intro t ht
      cases ht
      exact he
    · intro t ht
      contradiction
  | cons t rest => rfl

/-- Where nothing has been read, no declaration is under way. -/
theorem Progress.eq_start_of_walk?_nil {limit : Option Nat} {s : Progress} {read : List Token}
    (h : start.walk? limit read = some s) (hread : read = []) : s = start := by
  subst hread
  cases h
  rfl

end Grammar

open Grammar

/-- Where a walk halts, all is decided: the tokens are a program if the rest is over and no declaration is
under way, and else there is a fault behind those walked over. -/
theorem parse_of_halts {read rest : List Token} {s : Progress}
    (hwalk : Progress.start.walk? (some maxTypeDepth) read = some s)
    (hhalt : s.place.Halts (some maxTypeDepth) rest) :
    (s.place = .keyword ∧ AtEnd rest ∧ parse (read ++ rest) = .ok (.ofList s.done.reverse)) ∨
      ((s.place = .keyword → ¬ AtEnd rest) ∧ FailsAt (read ++ rest) read.length
        ⟨rest.head?.getD (.endAfter (read ++ rest)), s.place.expected (some maxTypeDepth)⟩) := by
  rcases runProgram_of_halts (.endAfter (read ++ rest)) hwalk hhalt with
    ⟨hplace, hend, hrun⟩ | ⟨hend, hrun⟩
  · refine .inl ⟨hplace, hend, ?_⟩
    rw [parse, parseWithin, hrun]
    rfl
  · have hfails := failsAt_of_error (congrArg (·.1.map Program.ofList) hrun)
    rw [readCount_eq hrun] at hfails
    exact .inr ⟨hend, hfails⟩

/-- What is reported for a fault that is found behind `last`, where there is no token. -/
structure ReportedBehind (last : Token) (g : ParseError) : Prop where
  /-- Its offset is that of `last` and the characters of its text, if their sum fits in 64 bits. -/
  offset : last.position.chars + last.text.length < UInt64.size →
    g.token.position.chars = last.position.chars + last.text.length
  /-- Its span is empty and begins behind the bytes of `last`, if they add up to what fits in 64 bits. -/
  span : last.position.bytes + last.text.utf8ByteSize < UInt64.size →
    g.diagnostic.label.span = ⟨last.position.bytes + last.text.utf8ByteSize, 0⟩
  /-- Whether or not a sum fits, its last 64 bits are reported. -/
  wrapped : g.token.position.chars = (last.position.chars + last.text.length) % UInt64.size ∧
    g.diagnostic.label.span = ⟨(last.position.bytes + last.text.utf8ByteSize) % UInt64.size, 0⟩

/-- Two faults at the end of some tokens: one that is found where the token `e` ends the input behind them,
the other where the input is over for want of tokens. -/
structure EndFault (ts : List Token) (e : Token) (r : List Token) (f g : ParseError) : Prop where
  /-- There are tokens to miss something behind. -/
  nonempty : ts ≠ []
  /-- The first fault is found behind all the tokens. -/
  left : FailsAt (ts ++ e :: r) ts.length f
  /-- So is the second. -/
  right : FailsAt ts ts.length g
  /-- Both are said to be at the end of the input. -/
  found : f.token.describe = "end of input" ∧ g.token.describe = "end of input"
  /-- Both ask for the same thing. -/
  help : f.diagnostic.help = g.diagnostic.help
  /-- The first is reported where the token `e` says that it stands. -/
  place : f.token.position.chars = e.position.chars ∧ f.diagnostic.label.span = e.span
  /-- The second is reported just behind the last token. -/
  behind : ∃ last ∈ ts.getLast?, ReportedBehind last g

/-- What reading some tokens answers where the token `e` ends the input behind them, whatever tokens `r`
follow it, and what it answers where the input is over for want of tokens. -/
inductive EndsAlike (ts : List Token) (e : Token) (r : List Token) :
    Except ParseError Program → Except ParseError Program → Prop
  /-- Both are the same program, the empty one if there are no tokens. -/
  | ok (p : Program) (hempty : ts = [] → p = .empty) : EndsAlike ts e r (.ok p) (.ok p)
  /-- Both are the same fault at the same one of the tokens. -/
  | inside {f : ParseError} {k : Nat} (hk : k < ts.length) (hleft : FailsAt (ts ++ e :: r) k f)
    (hright : FailsAt ts k f) : EndsAlike ts e r (.error f) (.error f)
  /-- Both are faults at the end. -/
  | atEnd {f g : ParseError} (h : EndFault ts e r f g) : EndsAlike ts e r (.error f) (.error g)

/-- A token that ends the input is called so, whatever its text. -/
theorem Token.describe_of_end {t : Token} (h : t.kind = .endOfInput) : t.describe = "end of input" := by
  rw [describe, h]

/-- A fault at a token made up for the end of some tokens is reported just behind the last of them. -/
theorem exists_reportedBehind {ts : List Token} (h : ts ≠ []) (expected : Expectation) :
    ∃ last ∈ ts.getLast?, ReportedBehind last ⟨.endAfter ts, expected⟩ := by
  have hlast : ts.getLast? = some (ts.getLast h) := List.getLast?_eq_some_getLast h
  have hchars : (Token.endAfter ts).position.chars =
      ((ts.getLast h).position.chars + (ts.getLast h).text.length) % UInt64.size := by
    rw [Token.endAfter, hlast, ← Position.chars_ofString]
    rfl
  have hspan : (Token.endAfter ts).span =
      ⟨((ts.getLast h).position.bytes + (ts.getLast h).text.utf8ByteSize) % UInt64.size, 0⟩ := by
    rw [Token.endAfter, hlast, ← Position.bytes_ofString]
    rfl
  refine ⟨ts.getLast h, hlast, ?_⟩
  constructor
  case offset =>
    intro hfits
    rw [Nat.mod_eq_of_lt hfits] at hchars
    exact hchars
  case span =>
    intro hfits
    rw [Nat.mod_eq_of_lt hfits] at hspan
    exact hspan
  case wrapped => exact ⟨hchars, hspan⟩

/-- It does not matter to the reading of some tokens whether a token says that the input ends behind them,
and what follows it, but for the place that a fault at the end is reported at. -/
theorem parse_append_end {ts : List Token} (hts : ∀ t ∈ ts, t.kind ≠ .endOfInput) {e : Token}
    (he : e.kind = .endOfInput) (r : List Token) :
    EndsAlike ts e r (parse (ts ++ e :: r)) (parse ts) := by
  obtain ⟨read, rest, s, rfl, hwalk, hhalt⟩ := Progress.start.exists_halt (some maxTypeDepth) ts
  -- One walk goes over both, and what is left of one is over exactly if what is left of the other is.
  have hover := atEnd_append_end (fun t ht => hts t (List.mem_append_right read ht)) he r
  have hright := parse_of_halts hwalk hhalt
  have hleft := parse_of_halts hwalk (hhalt.append_end he r)
  rw [hover, ← List.append_assoc] at hleft
  rcases hright with ⟨hplace, hend, hparse⟩ | ⟨hend, hright⟩
  · rcases hleft with ⟨-, -, hparse'⟩ | ⟨hnot, -⟩
    · rw [hparse, hparse']
      refine .ok _ fun hempty => ?_
      rw [Progress.eq_start_of_walk?_nil hwalk (List.append_eq_nil_iff.mp hempty).1]
      rfl
    · exact absurd hend (hnot hplace)
  · rcases hleft with ⟨hplace, hnot, -⟩ | ⟨-, hleft⟩
    · exact absurd hnot (hend hplace)
    · rw [hleft.fails, hright.fails]
      cases rest with
      | nil =>
        rw [List.append_nil] at hleft hright ⊢
        have hne : read ≠ [] := by
          intro hempty
          rw [Progress.eq_start_of_walk?_nil hwalk hempty] at hend
          exact hend rfl fun t ht => by contradiction
        exact .atEnd {
          nonempty := hne
          left := hleft
          right := hright
          found := ⟨Token.describe_of_end he, rfl⟩
          help := rfl
          place := ⟨rfl, rfl⟩
          behind := exists_reportedBehind hne _ }
      | cons t rest => exact .inside (by simp) hleft hright

/-- Where the brace that ends a struct is missing, it does not help that there is one behind the end of the
input. The fault is reported where the token says that the input ends, and else behind the last token. -/
theorem parse_append_end_missing_brace :
    let ts : List Token := [⟨.identifier, "struct", ⟨0, 0⟩⟩, ⟨.identifier, "A", ⟨9, 12⟩⟩,
      ⟨.leftBrace, "\x7b", ⟨11, 14⟩⟩]
    let e : Token := ⟨.endOfInput, "é", ⟨40, 41⟩⟩
    let r : List Token := [⟨.rightBrace, "\x7d", ⟨41, 43⟩⟩]
    (∀ t ∈ ts, t.kind ≠ .endOfInput) ∧ e.kind = .endOfInput ∧
      EndsAlike ts e r (parse (ts ++ e :: r)) (parse ts) ∧
      parse (ts ++ e :: r) = .error ⟨e, .memberName⟩ ∧
      parse ts = .error ⟨⟨.endOfInput, "", ⟨12, 15⟩⟩, .memberName⟩ := by
  intro ts e r
  have hts : ∀ t ∈ ts, t.kind ≠ .endOfInput := by decide
  exact ⟨hts, rfl, parse_append_end hts rfl r, rfl, rfl⟩

/-- Behind a token that is said to stand at the last place that 64 bits can tell, the places begin again. -/
example : parse [⟨.identifier, "struct", ⟨UInt64.size - 1, UInt64.size - 1⟩⟩] =
    .error ⟨⟨.endOfInput, "", ⟨5, 5⟩⟩, .recordName⟩ := rfl

end Idl
