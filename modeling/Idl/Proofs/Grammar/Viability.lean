import Idl.Proofs.Grammar.Acceptance

/-!
# Faults are found at once

Wherever a walk has come, a program can still come of it: every place has tokens that complete the
declaration under way (`Place.exists_completion`), however many types are open there. So the tokens
read before a fault begin a program (`viable_of_walk?`). The token at fault does not go on with them
in any program (`not_viable_of_halts`), since the walk over such a program would have read it, and for
the same reason an input that ends in a declaration is no program (`not_complete_of_walk?`).

`parse_error_earliest` puts this together: a fault is reported at the first token that no program has
in its place.
-/

namespace Idl

namespace Grammar

open TypeExpr Declaration

/-- Whether tokens make a program, in which types may nest without limit. -/
def Complete (ts : List Token) : Prop :=
  ∃ p : Program, ts.map Token.symbol = p.symbols ∧ ∀ d ∈ p.toList, d.isPlain

/-- Whether tokens begin a program, in which types may nest without limit. -/
def Viable (ts : List Token) : Prop := ∃ rest, Complete (ts ++ rest)

/-! ## Completions -/

/-- The open types around a finished one can be completed. -/
theorem exists_framesCompletion (frames : List Frame) (a : TypeExpr) :
    ∃ (b : TypeExpr) (rest : List Token),
      b.symbols = framesSpelled frames ++ a.symbols ++ rest.map Token.symbol := by
  induction frames generalizing a with
  | nil => exact ⟨a, [], by simp [framesSpelled]⟩
  | cons frame frames ih =>
    cases frame with
    | argument n before =>
      obtain ⟨b, rest, hb⟩ := ih (.generic n (before.reverse ++ [a]))
      refine ⟨b, tokenOf (.mark .rightParen) :: rest, ?_⟩
      rw [hb, TypeExpr.symbols, listSymbols_concat]
      simp [framesSpelled, Frame.spelled]
    | param before n =>
      obtain ⟨b, rest, hb⟩ := ih (.function (before.reverse ++ [⟨n, a⟩]) none)
      refine ⟨b, tokenOf (.mark .rightParen) :: rest, ?_⟩
      rw [hb, TypeExpr.symbols, paramsSymbols_concat]
      simp [framesSpelled, Frame.spelled, paramSymbols]
    | result params =>
      obtain ⟨b, rest, hb⟩ := ih (.function params (some a))
      refine ⟨b, rest, ?_⟩
      rw [hb, TypeExpr.symbols]
      simp [framesSpelled, Frame.spelled]

/-- The innermost open type can be completed. -/
theorem TypePlace.exists_completion (place : TypePlace) :
    ∃ (a : TypeExpr) (rest : List Token), a.symbols = place.spelled ++ rest.map Token.symbol := by
  cases place with
  | start => exact ⟨.named "x", [tokenOf (.word "x")], rfl⟩
  | name n => exact ⟨.named n, [], rfl⟩
  | firstArgument n => exact ⟨.generic n [], [tokenOf (.mark .rightParen)], rfl⟩
  | firstParam => exact ⟨.function [] none, [tokenOf (.mark .rightParen)], rfl⟩
  | nextParam before =>
    refine ⟨.function (before.reverse ++ [⟨"x", .named "x"⟩]) none,
      [tokenOf (.word "x"), tokenOf (.mark .colon), tokenOf (.word "x"),
        tokenOf (.mark .rightParen)], ?_⟩
    rw [TypeExpr.symbols, paramsSymbols_concat]
    simp [TypePlace.spelled, paramSymbols, TypeExpr.symbols]
  | paramColon before n =>
    refine ⟨.function (before.reverse ++ [⟨n, .named "x"⟩]) none,
      [tokenOf (.mark .colon), tokenOf (.word "x"), tokenOf (.mark .rightParen)], ?_⟩
    rw [TypeExpr.symbols, paramsSymbols_concat]
    simp [TypePlace.spelled, paramSymbols, TypeExpr.symbols]
  | afterParams params => exact ⟨.function params none, [], (List.append_nil _).symm⟩
  | ended a => exact ⟨a, [], (List.append_nil _).symm⟩

/-- A type under way can be completed. -/
theorem TypeStack.exists_completion (s : TypeStack) :
    ∃ (a : TypeExpr) (rest : List Token), a.symbols = s.spelled ++ rest.map Token.symbol := by
  obtain ⟨a, inner, ha⟩ := s.place.exists_completion
  obtain ⟨b, outer, hb⟩ := exists_framesCompletion s.frames a
  -- First the innermost type is completed, then those around it from the inside out.
  refine ⟨b, inner ++ outer, ?_⟩
  calc b.symbols
      = framesSpelled s.frames ++ a.symbols ++ outer.map Token.symbol := hb
    _ = framesSpelled s.frames ++ (s.place.spelled ++ inner.map Token.symbol) ++
          outer.map Token.symbol := by rw [ha]
    _ = s.spelled ++ (inner ++ outer).map Token.symbol := by simp [TypeStack.spelled]

/-- A declaration under way can be completed. -/
theorem Place.exists_completion (place : Place) :
    ∃ (d : Declaration) (rest : List Token), d.isPlain ∧
      d.symbols = place.spelled ++ rest.map Token.symbol := by
  cases place with
  | keyword =>
    exact ⟨.record .struct "x" none [], [tokenOf (.word "struct"), tokenOf (.word "x"),
      tokenOf (.mark .leftBrace), tokenOf (.mark .rightBrace)], rfl, rfl⟩
  | enumName =>
    exact ⟨.enum "x" (.named "x") [], [tokenOf (.word "x"), tokenOf (.mark .colon),
      tokenOf (.word "x"), tokenOf (.mark .leftBrace), tokenOf (.mark .rightBrace)], rfl, rfl⟩
  | enumColon n =>
    exact ⟨.enum n (.named "x") [], [tokenOf (.mark .colon), tokenOf (.word "x"),
      tokenOf (.mark .leftBrace), tokenOf (.mark .rightBrace)], rfl, rfl⟩
  | enumUnderlying n =>
    exact ⟨.enum n (.named "x") [], [tokenOf (.word "x"), tokenOf (.mark .leftBrace),
      tokenOf (.mark .rightBrace)], rfl, rfl⟩
  | enumOpen n u =>
    exact ⟨.enum n (.named u) [], [tokenOf (.mark .leftBrace), tokenOf (.mark .rightBrace)], rfl,
      rfl⟩
  | firstEnumerator n u =>
    exact ⟨.enum n (.named u) [], [tokenOf (.mark .rightBrace)], rfl, rfl⟩
  | nextEnumerator n u before =>
    refine ⟨.enum n (.named u) (before.reverse ++ ["x"]),
      [tokenOf (.word "x"), tokenOf (.mark .rightBrace)], rfl, ?_⟩
    rw [Declaration.symbols, enumeratorSymbols_concat]
    simp [Place.spelled, enumHeadSymbols, TypeExpr.symbols]
  | afterEnumerator n u before last =>
    refine ⟨.enum n (.named u) (before.reverse ++ [last]), [tokenOf (.mark .rightBrace)], rfl, ?_⟩
    rw [Declaration.symbols, enumeratorSymbols_concat]
    simp [Place.spelled, enumHeadSymbols, TypeExpr.symbols]
  | recordName form =>
    exact ⟨.record form "x" none [], [tokenOf (.word "x"), tokenOf (.mark .leftBrace),
      tokenOf (.mark .rightBrace)], rfl, rfl⟩
  | recordColon form n =>
    exact ⟨.record form n none [], [tokenOf (.mark .leftBrace), tokenOf (.mark .rightBrace)], rfl,
      rfl⟩
  | parent form n stack =>
    obtain ⟨a, rest, ha⟩ := stack.exists_completion
    refine ⟨.record form n (some a) [],
      rest ++ [tokenOf (.mark .leftBrace), tokenOf (.mark .rightBrace)], rfl, ?_⟩
    simp [Declaration.symbols, parentSymbols, ha, Place.spelled]
  | member head before =>
    refine ⟨.record head.form head.name head.parent before.reverse,
      [tokenOf (.mark .rightBrace)], rfl, ?_⟩
    simp [Declaration.symbols, Place.spelled, membersRead, RecordHead.symbols]
  | memberColon head before n =>
    refine ⟨.record head.form head.name head.parent (before.reverse ++ [⟨n, .named "x"⟩]),
      [tokenOf (.mark .colon), tokenOf (.word "x"), tokenOf (.mark .semicolon),
        tokenOf (.mark .rightBrace)], rfl, ?_⟩
    simp [Declaration.symbols, Place.spelled, membersRead, RecordHead.symbols, memberSymbols,
      TypeExpr.symbols]
  | memberType head before n stack =>
    obtain ⟨a, rest, ha⟩ := stack.exists_completion
    refine ⟨.record head.form head.name head.parent (before.reverse ++ [⟨n, a⟩]),
      rest ++ [tokenOf (.mark .semicolon), tokenOf (.mark .rightBrace)], rfl, ?_⟩
    simp [Declaration.symbols, Place.spelled, membersRead, RecordHead.symbols, memberSymbols, ha]

/-! ## Viability -/

/-- Tokens that have been read begin a program. -/
theorem viable_of_walk? {limit : Option Nat} {read : List Token} {s : Progress}
    (h : Progress.start.walk? limit read = some s) : Viable read := by
  obtain ⟨d, rest, hplain, hd⟩ := s.place.exists_completion
  have hdone := (Progress.walk?_fits (Progress.start_fits limit) h).1
  have hspelled := Progress.walk?_spelled h
  rw [Progress.start_spelled, List.nil_append] at hspelled
  refine ⟨rest, .ofList (s.done.reverse ++ [d]), ?_, ?_⟩
  · calc (read ++ rest).map Token.symbol
        = s.spelled ++ rest.map Token.symbol := by rw [List.map_append, hspelled]
      _ = s.done.reverse.flatMap Declaration.symbols ++ d.symbols := by
          rw [Progress.spelled, List.append_assoc, hd]
      _ = (Program.ofList (s.done.reverse ++ [d])).symbols := by simp [Program.symbols]
  · intro e he
    rw [Program.toList_ofList] at he
    rcases List.mem_append.mp he with he | he
    · exact (hdone e (List.mem_reverse.mp he)).1
    · rw [List.mem_singleton.mp he]
      exact hplain

/-- A program without limit is walked to its end. -/
theorem walk?_of_complete {ts : List Token} (h : Complete ts) :
    ∃ done, Progress.start.walk? none ts = some ⟨done, .keyword⟩ := by
  obtain ⟨p, hsymbols, hplain⟩ := h
  refine ⟨p.toList.reverse, walk?_of_symbols hsymbols fun d hd => ⟨hplain d hd, ?_⟩⟩
  intro a _ l hl
  contradiction

/-- A token that is refused for another reason than the limit does not go on with those before it in
any program. -/
theorem not_viable_of_halts {limit : Option Nat} {read : List Token} {s : Progress} {t : Token}
    (h : Progress.start.walk? limit read = some s) (ht : s.place.step? limit t = none)
    (hexp : s.place.expected limit ≠ .shallowerType) : ¬ Viable (read ++ [t]) := by
  rintro ⟨rest, hcomplete⟩
  obtain ⟨done, hwalk⟩ := walk?_of_complete hcomplete
  -- Without a limit the same tokens are read, and the same token is refused.
  have hread := Progress.walk?_looser (looser_none limit) h
  have hrefused := (Place.step?_refused (looser_none limit) ht hexp).1
  rw [List.append_assoc, Progress.walk?_append, hread, Option.bind_some, List.singleton_append,
    Progress.walk?_cons, Progress.step?, hrefused] at hwalk
  contradiction

/-- Tokens that lead into a declaration are no program. -/
theorem not_complete_of_walk? {limit : Option Nat} {read : List Token} {s : Progress}
    (h : Progress.start.walk? limit read = some s) (hplace : s.place ≠ .keyword) :
    ¬ Complete read := by
  intro hcomplete
  obtain ⟨done, hwalk⟩ := walk?_of_complete hcomplete
  rw [Progress.walk?_looser (looser_none limit) h] at hwalk
  cases hwalk
  exact hplace rfl

/-! ## Faults -/

/-- The number of tokens that are read under a limit before the end of the input or the token at
fault. -/
def readCountWithin (limit : Option Nat) (ts : List Token) : Nat :=
  ts.length - (runProgram limit (.endAfter ts) [] .keyword ts).2.length

/-- The number of tokens that are read before the end of the input or the token at fault. -/
def readCount (ts : List Token) : Nat :=
  ts.length - (Parser.ofTokens ts).program.2.rest.length

/-- What is left when reading stops is what has not been read, under any limit. -/
theorem readCountWithin_eq {limit : Option Nat} {read rest : List Token}
    {answer : Except ParseError (List Declaration)}
    (h : runProgram limit (.endAfter (read ++ rest)) [] .keyword (read ++ rest) = (answer, rest)) :
    readCountWithin limit (read ++ rest) = read.length := by
  rw [readCountWithin, h, List.length_append, Nat.add_sub_cancel]

/-- What is left when reading stops is what has not been read. -/
theorem readCount_eq {read rest : List Token} {answer : Except ParseError (List Declaration)}
    (h : runProgram (some maxTypeDepth) (.endAfter (read ++ rest)) [] .keyword (read ++ rest) =
      (answer, rest)) : readCount (read ++ rest) = read.length :=
  readCountWithin_eq h

/-- Where a walk halts, as many tokens have been read as it went over. -/
theorem readCountWithin_of_halts {limit : Option Nat} {read rest : List Token} {s : Progress}
    (hwalk : Progress.start.walk? limit read = some s) (hhalt : s.place.Halts limit rest) :
    readCountWithin limit (read ++ rest) = read.length := by
  rcases runProgram_of_halts (.endAfter (read ++ rest)) hwalk hhalt with ⟨-, -, hrun⟩ | ⟨-, hrun⟩
  · exact readCountWithin_eq hrun
  · exact readCountWithin_eq hrun

/-- A token without a place behind those read is at fault whatever stands behind it. -/
theorem runProgram_error_of_halts {limit : Option Nat} (stop : Token) {read : List Token}
    {s : Progress} {t : Token} (h : Progress.start.walk? limit read = some s)
    (ht : s.place.step? limit t = none) (hend : s.place = .keyword → t.kind ≠ .endOfInput)
    (tail : List Token) :
    (runProgram limit stop [] .keyword (read ++ t :: tail)).1 =
      .error ⟨t, s.place.expected limit⟩ := by
  have hwalk : runProgram limit stop [] .keyword (read ++ t :: tail) =
      runProgram limit stop s.done s.place (t :: tail) := runProgram_walk stop h (t :: tail)
  have hhalt : s.place.Halts limit (t :: tail) := by
    intro u hu
    cases hu
    exact ht
  rw [hwalk, runProgram_halt_error stop s.done hhalt fun hplace hrest => hend hplace (hrest t rfl)]
  rfl

/-- An error that is reported at the earliest possible token, the one behind the first `k`. -/
structure EarliestFault (ts : List Token) (k : Nat) (e : ParseError) : Prop where
  /-- The error is reported at the token behind the first `k`, and at one made up behind the last if
  there are no more. -/
  token : k ≤ ts.length ∧ e.token = ts[k]?.getD (.endAfter ts)
  /-- The first `k` tokens do not end the input, and begin a program. -/
  viable : (∀ t ∈ ts.take k, t.kind ≠ .endOfInput) ∧ Viable (ts.take k)
  /-- Whatever else stands behind the token at fault, the same error is reported. -/
  persists : k < ts.length → ∀ us, ts.take (k + 1) <+: us → parse us = .error e
  /-- If it is not the limit that the token breaks, and it does not end the input, no program begins
  with the tokens up to it. -/
  not_viable : e.diagnostic.help ≠ some "type nesting too deep" → e.token.kind ≠ .endOfInput →
    ¬ Viable (ts.take (k + 1))
  /-- If the token ends the input, those before it are no program. -/
  not_complete : e.token.kind = .endOfInput → ¬ Complete (ts.take k)

/-- The message about nesting is that of no other expectation. -/
theorem Expectation.message_eq_iff (x : Expectation) :
    x.message = "type nesting too deep" ↔ x = .shallowerType := by
  cases x <;> decide

/-- An error has the help about nesting exactly if it asks for fewer types. -/
theorem help_eq_tooDeep_iff {e : ParseError} :
    e.diagnostic.help = some "type nesting too deep" ↔ e.expected = .shallowerType := by
  rw [← e.expected.message_eq_iff]
  exact Option.some_inj

namespace EarliestFault

variable {read : List Token} {s : Progress}

/-- The end of the input is a fault, found at once, where it is missed behind the last token. -/
theorem of_end (h : Progress.start.walk? (some maxTypeDepth) read = some s)
    (hplace : s.place ≠ .keyword) :
    EarliestFault read read.length ⟨.endAfter read, s.place.expected (some maxTypeDepth)⟩ where
  token := by
    rw [List.getElem?_eq_none (Nat.le_refl _)]
    exact ⟨Nat.le_refl _, rfl⟩
  viable := by
    rw [List.take_length]
    exact ⟨Progress.walk?_kind_ne_endOfInput h, viable_of_walk? h⟩
  persists := fun hlt => absurd hlt (Nat.lt_irrefl _)
  not_viable := fun _ hkind => absurd rfl hkind
  not_complete := by
    intro _
    rw [List.take_length]
    exact not_complete_of_walk? h hplace

/-- A token without a place behind those read is a fault, found at once. -/
theorem of_token {t : Token} (h : Progress.start.walk? (some maxTypeDepth) read = some s)
    (ht : s.place.step? (some maxTypeDepth) t = none)
    (hend : s.place = .keyword → t.kind ≠ .endOfInput) (rest : List Token) :
    EarliestFault (read ++ t :: rest) read.length
      ⟨t, s.place.expected (some maxTypeDepth)⟩ where
  token := by
    rw [List.getElem?_append_right (Nat.le_refl _), Nat.sub_self, List.length_append]
    exact ⟨Nat.le_add_right _ _, rfl⟩
  viable := by
    rw [List.take_left]
    exact ⟨Progress.walk?_kind_ne_endOfInput h, viable_of_walk? h⟩
  persists := by
    intro _ us hus
    rw [List.take_length_add_append] at hus
    obtain ⟨tail, rfl⟩ := hus
    rw [parse, parseWithin, List.append_assoc]
    have herror := runProgram_error_of_halts (.endAfter (read ++ t :: tail)) h ht hend tail
    exact congrArg (Except.map Program.ofList) herror
  not_viable := by
    intro hhelp _
    rw [List.take_length_add_append]
    exact not_viable_of_halts h ht fun hexp => hhelp (help_eq_tooDeep_iff.mpr hexp)
  not_complete := by
    intro hkind
    rw [List.take_left]
    exact not_complete_of_walk? h fun hplace => hend hplace hkind

end EarliestFault

end Grammar

open Grammar

/-- An error is reported at the earliest possible token: what is read before it begins a program, and
no program, or none that nests so deep, goes on with it. -/
theorem parse_error_earliest {ts : List Token} {e : ParseError} (h : parse ts = .error e) :
    EarliestFault ts (readCount ts) e := by
  obtain ⟨read, rest, s, rfl, hwalk, hhalt, hcut⟩ :=
    runProgram_cut (some maxTypeDepth) (.endAfter ts) ts
  rcases hcut with ⟨hplace, hrest, hrun⟩ | ⟨hend, hrun⟩
  · rw [parse, parseWithin, hrun] at h
    contradiction
  · rw [parse, parseWithin, hrun] at h
    cases h
    rw [readCount_eq hrun]
    cases rest with
    | nil =>
      rw [List.append_nil]
      exact EarliestFault.of_end hwalk fun hplace => hend hplace fun t ht => by contradiction
    | cons t rest =>
      refine EarliestFault.of_token hwalk (hhalt t rfl) (fun hplace hkind => ?_) rest
      exact hend hplace fun u hu => by cases hu; exact hkind

/-- In `struct A { f: (x: L(int, )` the parenthesis stands where an argument is to begin. -/
theorem parse_error_earliest_missing_argument :
    let ts := [Symbol.word "struct", .word "A", .mark .leftBrace, .word "f", .mark .colon,
      .mark .leftParen, .word "x", .mark .colon, .word "L", .mark .leftParen, .word "int",
      .mark .comma, .mark .rightParen].map tokenOf
    parse ts = .error ⟨tokenOf (.mark .rightParen), .type⟩ ∧ readCount ts = 12 ∧
      EarliestFault ts (readCount ts) ⟨tokenOf (.mark .rightParen), .type⟩ :=
  ⟨rfl, rfl, parse_error_earliest rfl⟩

end Idl
