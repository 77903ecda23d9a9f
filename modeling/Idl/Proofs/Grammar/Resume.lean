import Mathlib.Order.Monotone.Basic
import Idl.Proofs.Grammar.Acceptance

/-!
# Reading on behind a program

A parser that has read a program, or has met a fault, can be called again. It then stands at the end of
the input or at the token at fault, with no type open, and reads what is ahead as if it were an input of
its own (`Parser.StandsIn.fresh`): the end that is made up for it is the same, since it is behind the last
token wherever the reading began (`Token.endAfter_drop`).

What one reading does is a cut of what is ahead into the tokens read and the rest (`Parser.Cut`,
`Parser.program_cut`), and every fact about many readings is carried along by it. The cursor moves on at
each of them or never again (`Parser.after_of_stuck`), so there are no more moves than tokens.
`parser_resumes` puts this together.
-/

namespace Idl

open Grammar

/-! ## Faults -/

/-- A fault of a reading of the tokens, at the one behind the first `k`. -/
structure FaultAt (ts : List Token) (k : Nat) (e : ParseError) : Prop where
  /-- The tokens are no program. -/
  fails : parse ts = .error e
  /-- The token behind the first `k` is named, and one made up behind the last if there are no more. -/
  token : k ≤ ts.length ∧ e.token = ts[k]?.getD (.endAfter ts)
  /-- None of the first `k` tokens is at fault: where fewer are given, it is only their end that may be. -/
  first : ∀ m ≤ k, ∀ e', parse (ts.take m) = .error e' → e'.token = .endAfter (ts.take m)

/-- At the end of the tokens nothing but that can be at fault. -/
theorem token_of_runProgram_nil {limit : Option Nat} {stop : Token} {done : List Declaration}
    {place : Place} {e : ParseError} (h : (runProgram limit stop done place []).1 = .error e) :
    e.token = stop := by
  unfold runProgram at h
  split at h
  · contradiction
  · cases h
    rfl
  · contradiction

/-- Tokens that were read are not at fault. -/
theorem token_of_walk? {read : List Token} {s : Progress}
    (h : Progress.start.walk? (some maxTypeDepth) read = some s) {e : ParseError}
    (he : parse read = .error e) : e.token = .endAfter read := by
  have hrun := runProgram_walk (.endAfter read) h []
  rw [List.append_nil] at hrun
  change runProgram _ _ [] .keyword read = _ at hrun
  rw [parse, parseWithin, hrun] at he
  cases hanswer : (runProgram (some maxTypeDepth) (.endAfter read) s.done s.place []).1 with
  | ok ds =>
    rw [hanswer] at he
    contradiction
  | error e' =>
    rw [hanswer] at he
    cases he
    exact token_of_runProgram_nil hanswer

/-- Where a walk stops in front of a token without a place, that token is at fault and none before it. -/
theorem FaultAt.of_walk? {read rest : List Token} {s : Progress}
    (h : Progress.start.walk? (some maxTypeDepth) read = some s) {e : ParseError}
    (hfails : parse (read ++ rest) = .error e)
    (htoken : e.token = rest.head?.getD (.endAfter (read ++ rest))) :
    FaultAt (read ++ rest) read.length e where
  fails := hfails
  token := by
    rw [List.getElem?_append_right (Nat.le_refl _), Nat.sub_self, ← List.head?_eq_getElem?]
    exact ⟨by simp, htoken⟩
  first := by
    intro m hm e' he'
    rw [List.take_append_of_le_length hm] at he' ⊢
    -- Fewer tokens are walked over as well.
    obtain ⟨s', hwalk⟩ := Progress.exists_walk?_take h m
    exact token_of_walk? hwalk he'

/-- The end of the tokens is in the same place wherever reading begins. -/
theorem Token.endAfter_drop {ts : List Token} {k : Nat} (h : k < ts.length) :
    endAfter (ts.drop k) = endAfter ts := by
  rw [endAfter, endAfter, List.getLast?_drop, if_neg (Nat.not_le_of_lt h)]

namespace Parser

/-! ## One reading -/

/-- What one reading does: the tokens ahead are cut into those read and the rest, where the parser stands
afterwards. Either the input is over there, or the token there is at fault. -/
inductive Cut (p : Parser) (read rest : List Token) : Except ParseError Program × Parser → Prop
  /-- The reading succeeds at the end of the input. -/
  | ended (program : Program) (hend : AtEnd rest) : Cut p read rest (.ok program, { p with rest })
  /-- The reading fails at the front of the rest. -/
  | fault (expected : Expectation) :
    Cut p read rest (.error ⟨rest.head?.getD p.stop, expected⟩, { p with rest })

/-- Every reading cuts the tokens ahead in two. -/
theorem program_cut (p : Parser) : ∃ read rest s, p.rest = read ++ rest ∧
    Progress.start.walk? p.room read = some s ∧ p.Cut read rest p.program := by
  obtain ⟨read, rest, s, hrest, hwalk, -, hcut⟩ := runProgram_cut p.room p.stop p.rest
  refine ⟨read, rest, s, hrest, hwalk, ?_⟩
  rcases hcut with ⟨-, hend, hrun⟩ | ⟨-, hrun⟩
  · rw [program, hrun]
    exact .ended _ hend
  · rw [program, hrun]
    exact .fault _

/-- A reading moves the parser along its tokens and changes nothing else. -/
theorem Cut.parser_eq {p : Parser} {read rest : List Token} {r : Except ParseError Program × Parser}
    (h : p.Cut read rest r) : r.2 = { p with rest } := by
  cases h <;> rfl

/-! ## Where a parser stands -/

/-- Whether a parser stands behind the first `k` of some tokens, between two programs: it has the others
ahead, and no type is open. -/
structure StandsIn (ts : List Token) (k : Nat) (p : Parser) : Prop where
  /-- The place is in the tokens. -/
  inside : k ≤ ts.length
  /-- What is ahead is the tokens from there on. -/
  rest : p.rest = ts.drop k
  /-- The end that is made up is that of all the tokens. -/
  stop : p.stop = .endAfter ts
  /-- No type is open. -/
  depth : p.depth = 0

namespace StandsIn

variable {ts : List Token} {k : Nat} {p : Parser}

/-- A parser stands behind the tokens that are not ahead of it. -/
theorem eq_sub (h : p.StandsIn ts k) : k = ts.length - p.rest.length := by
  have hinside := h.inside
  rw [h.rest, List.length_drop]
  omega

/-- Two parsers that stand in the same place are the same. -/
theorem unique {q : Parser} (hp : p.StandsIn ts k) (hq : q.StandsIn ts k) : p = q := by
  obtain ⟨rest, stop, depth⟩ := p
  obtain ⟨rest', stop', depth'⟩ := q
  obtain ⟨-, rfl, rfl, rfl⟩ := hp
  obtain ⟨-, rfl, rfl, rfl⟩ := hq
  rfl

/-- There is as much room for types as in an input of its own. -/
theorem room (h : p.StandsIn ts k) : p.room = some maxTypeDepth := by
  rw [Parser.room, h.depth, Nat.sub_zero]

/-- What is ahead is read as an input of its own. -/
theorem fresh (h : p.StandsIn ts k) : p.program.1 = parse (ts.drop k) := by
  have hprogram : p.program.1 =
      (runProgram (some maxTypeDepth) (.endAfter ts) [] .keyword (ts.drop k)).1.map .ofList := by
    rw [program, h.room, h.stop, h.rest]
  rw [hprogram, parse, parseWithin]
  -- At the end of the tokens there is nothing to read, and no end is made up. Anywhere else it is the
  -- same one.
  by_cases hlt : k < ts.length
  · rw [Token.endAfter_drop hlt]
  · rw [List.drop_eq_nil_of_le (Nat.le_of_not_lt hlt)]
    rfl

/-- A reading leads on by the tokens that it has read. -/
theorem program (h : p.StandsIn ts k) : ∃ read rest s, ts.drop k = read ++ rest ∧
    Progress.start.walk? (some maxTypeDepth) read = some s ∧ p.Cut read rest p.program ∧
    p.program.2.StandsIn ts (k + read.length) := by
  obtain ⟨read, rest, s, hrest, hwalk, hcut⟩ := p.program_cut
  rw [h.room] at hwalk
  rw [h.rest] at hrest
  refine ⟨read, rest, s, hrest, hwalk, hcut, ?_⟩
  have hlength := congrArg List.length hrest
  rw [List.length_drop, List.length_append] at hlength
  have hinside := h.inside
  rw [hcut.parser_eq]
  refine ⟨by omega, ?_, h.stop, h.depth⟩
  rw [← List.drop_drop, hrest, List.drop_left]

end StandsIn

/-! ## Reading again and again -/

/-- Where the parser over some tokens stands after some readings. -/
def after (ts : List Token) : Nat → Parser
  | 0 => .ofTokens ts
  | n + 1 => (after ts n).program.2

/-- What the next reading answers after some readings. -/
def nthProgram (ts : List Token) (n : Nat) : Except ParseError Program :=
  (after ts n).program.1

/-- The number of tokens behind which the parser stands after some readings. -/
def tokensRead (ts : List Token) (n : Nat) : Nat := ts.length - (after ts n).rest.length

section

variable (ts : List Token)

/-- After any number of readings the parser stands at a place of the tokens, between two programs. -/
theorem after_standsIn (n : Nat) : (after ts n).StandsIn ts (tokensRead ts n) := by
  suffices h : ∃ k, (after ts n).StandsIn ts k by
    obtain ⟨k, hk⟩ := h
    rw [hk.eq_sub] at hk
    exact hk
  induction n with
  | zero => exact ⟨0, Nat.zero_le _, rfl, rfl, rfl⟩
  | succ n ih =>
    obtain ⟨k, hk⟩ := ih
    obtain ⟨read, rest, s, -, -, -, hnext⟩ := hk.program
    exact ⟨k + read.length, hnext⟩

/-- Every reading cuts the tokens ahead in two, and moves the parser behind those read. -/
theorem exists_cut (n : Nat) : ∃ read rest s, ts.drop (tokensRead ts n) = read ++ rest ∧
    Progress.start.walk? (some maxTypeDepth) read = some s ∧
    (after ts n).Cut read rest (nthProgram ts n, after ts (n + 1)) ∧
    tokensRead ts (n + 1) = tokensRead ts n + read.length := by
  obtain ⟨read, rest, s, hrest, hwalk, hcut, hnext⟩ := (after_standsIn ts n).program
  exact ⟨read, rest, s, hrest, hwalk, hcut, hnext.eq_sub.symm⟩

/-- The cursor never moves back. -/
theorem tokensRead_mono : Monotone (tokensRead ts) := by
  apply monotone_nat_of_le_succ
  intro n
  obtain ⟨read, -, -, -, -, -, hmove⟩ := exists_cut ts n
  rw [hmove]
  exact Nat.le_add_right _ _

/-- No token that has been read ends the input. -/
theorem kind_of_mem_take (n : Nat) : ∀ t ∈ ts.take (tokensRead ts n), t.kind ≠ .endOfInput := by
  induction n with
  | zero => simp [tokensRead, after, Parser.ofTokens]
  | succ n ih =>
    obtain ⟨read, rest, s, hrest, hwalk, -, hmove⟩ := exists_cut ts n
    rw [hmove, List.take_add, hrest, List.take_left]
    intro t ht
    rcases List.mem_append.mp ht with ht | ht
    · exact ih t ht
    · exact Progress.walk?_kind_ne_endOfInput hwalk t ht

/-- A reading that succeeds leads to the end of the input. -/
theorem tokensRead_of_ok {n : Nat} {p : Program} (h : nthProgram ts n = .ok p) :
    tokensRead ts (n + 1) =
      tokensRead ts n + (beforeEnd (ts.drop (tokensRead ts n))).length := by
  obtain ⟨read, rest, s, hrest, hwalk, hcut, hmove⟩ := exists_cut ts n
  rw [h] at hcut
  generalize after ts (n + 1) = q at hcut
  cases hcut with
  | ended _ hend =>
    rw [hmove, hrest, beforeEnd_append (Progress.walk?_kind_ne_endOfInput hwalk) hend]

/-- A reading that fails leads to the token at fault. -/
theorem faultAt_of_error {n : Nat} {e : ParseError} (h : nthProgram ts n = .error e) :
    FaultAt (ts.drop (tokensRead ts n)) (tokensRead ts (n + 1) - tokensRead ts n) e ∧
      e.token = ts[tokensRead ts (n + 1)]?.getD (.endAfter ts) := by
  have hstands := after_standsIn ts n
  have hfails : parse (ts.drop (tokensRead ts n)) = .error e := hstands.fresh.symm.trans h
  -- There is no fault without a token ahead, so the end that is made up is that of what is ahead.
  have hlt : tokensRead ts n < ts.length := by
    by_contra hge
    rw [List.drop_eq_nil_of_le (Nat.le_of_not_lt hge)] at hfails
    contradiction
  have hend := Token.endAfter_drop hlt
  obtain ⟨read, rest, s, hrest, hwalk, hcut, hmove⟩ := exists_cut ts n
  have htoken : e.token = rest.head?.getD (.endAfter ts) := by
    rw [h] at hcut
    generalize after ts (n + 1) = q at hcut
    cases hcut with
    | fault => rw [hstands.stop]
  have hfault : FaultAt (read ++ rest) read.length e :=
    .of_walk? hwalk (hrest ▸ hfails) (by rw [← hrest, hend]; exact htoken)
  have hplace := hfault.token.2
  rw [← hrest] at hfault hplace
  rw [hend, List.getElem?_drop] at hplace
  rw [hmove, Nat.add_sub_cancel_left]
  exact ⟨hfault, hplace⟩

/-- Once a reading does not move the parser, no further one does. -/
theorem after_of_stuck {m n : Nat} (h : tokensRead ts (m + 1) = tokensRead ts m) (hle : m ≤ n) :
    after ts n = after ts m := by
  have hstay : after ts (m + 1) = after ts m := by
    have hnext := after_standsIn ts (m + 1)
    rw [h] at hnext
    exact hnext.unique (after_standsIn ts m)
  induction n, hle using Nat.le_induction with
  | base => rfl
  | succ n _ ih => rw [after, ih, ← after, hstay]

/-- The cursor has gone past a token for each reading that moved it. -/
theorem countP_moves_le (n : Nat) :
    (List.range n).countP (fun i => tokensRead ts (i + 1) ≠ tokensRead ts i) ≤ tokensRead ts n := by
  induction n with
  | zero => exact Nat.zero_le _
  | succ n ih =>
    have hstep : tokensRead ts n ≤ tokensRead ts (n + 1) := tokensRead_mono ts (Nat.le_succ n)
    rw [List.range_succ, List.countP_append, List.countP_singleton]
    by_cases hstay : tokensRead ts (n + 1) = tokensRead ts n
    · rw [if_neg (by simpa using hstay), hstay]
      exact ih
    · rw [if_pos (by simpa using hstay)]
      omega

/-- Reading programs from tokens again and again, the parser always stands at a place of them, between
two programs, and reads what is ahead as if it were an input of its own. It moves on to the end of the
input or to the token at fault, never past the end, and once it does not move every answer is the
last one. -/
structure Resumes : Prop where
  /-- The parser stands at a place of the tokens. -/
  stands : ∀ n, (after ts n).StandsIn ts (tokensRead ts n)
  /-- What is ahead is read as an input of its own. -/
  fresh : ∀ n, nthProgram ts n = parse (ts.drop (tokensRead ts n))
  /-- No type is open before a reading or after it. -/
  depth : ∀ n, (after ts n).depth = 0 ∧ (after ts n).program.2.depth = 0
  /-- After a success the parser stands at the first end of the input that was ahead, or behind the
  last token. -/
  at_end : ∀ n p, nthProgram ts n = .ok p →
    tokensRead ts (n + 1) = tokensRead ts n + (beforeEnd (ts.drop (tokensRead ts n))).length
  /-- After a failure it stands at the token at fault, or behind the last if that is made up. -/
  at_fault : ∀ n e, nthProgram ts n = .error e →
    FaultAt (ts.drop (tokensRead ts n)) (tokensRead ts (n + 1) - tokensRead ts n) e ∧
      e.token = ts[tokensRead ts (n + 1)]?.getD (.endAfter ts)
  /-- The cursor never moves back. -/
  forward : ∀ m n, m ≤ n → tokensRead ts m ≤ tokensRead ts n
  /-- The cursor never passes the end of the input. -/
  before_end : ∀ n, ∀ t ∈ ts.take (tokensRead ts n), t.kind ≠ .endOfInput
  /-- A reading that does not move the cursor answers as every later one does. -/
  final : ∀ m n, tokensRead ts (m + 1) = tokensRead ts m → m ≤ n →
    nthProgram ts n = nthProgram ts m
  /-- There are no more readings that move the cursor than tokens. -/
  few_moves : ∀ n, (List.range n).countP (fun i => tokensRead ts (i + 1) ≠ tokensRead ts i) ≤
    ts.length

end

end Parser

/-- Reading on from where a program ended or failed is reading the rest of the tokens afresh. -/
theorem parser_resumes (ts : List Token) : Parser.Resumes ts where
  stands := Parser.after_standsIn ts
  fresh n := (Parser.after_standsIn ts n).fresh
  depth n := ⟨(Parser.after_standsIn ts n).depth, (Parser.after_standsIn ts (n + 1)).depth⟩
  at_end _ _ h := Parser.tokensRead_of_ok ts h
  at_fault _ _ h := Parser.faultAt_of_error ts h
  forward _ _ hle := Parser.tokensRead_mono ts hle
  before_end := Parser.kind_of_mem_take ts
  final m n h hle := by rw [Parser.nthProgram, Parser.nthProgram, Parser.after_of_stuck ts h hle]
  few_moves n := (Parser.countP_moves_le ts n).trans (Parser.after_standsIn ts n).inside

/-- Where a name is followed by a keyword in place of a brace, reading goes on there and finds a struct. -/
example :
    let ts := [Symbol.word "struct", .word "A", .word "struct", .word "B", .mark .leftBrace,
      .mark .rightBrace].map tokenOf
    Parser.nthProgram ts 0 = .error ⟨tokenOf (.word "struct"), .recordOpen⟩ ∧
      Parser.nthProgram ts 1 = .ok (.ofList [.record .struct "B" none []]) ∧
      (List.range 4).map (Parser.tokensRead ts) = [0, 2, 6, 6] := by
  decide

end Idl
