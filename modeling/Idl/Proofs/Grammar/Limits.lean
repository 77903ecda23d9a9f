import Idl.Proofs.Grammar.Viability

/-!
# What a limit decides

Under another limit the same tokens are read in the same way, up to the first token where one limit is
reached and the other is not. Where a type is to begin, `Awaits` says which types are open around it, and a
limit is reached exactly where that many are open (`Place.Awaits.step?_eq_none`,
`Place.exists_awaits_of_expected`). Nothing else depends on it, so an answer that is not about the limit is
the same under every looser one (`runProgram_looser`), and no looser one halts earlier
(`readCountWithin_le`).

`limit_only_deepens` puts this together for a limit and a looser one, or none.
-/

namespace Idl

namespace Grammar

/-! ## Where a type is to begin -/

/-- Whether a type is to begin in front of the next token, if there is one, and which types are open
around it. A parenthesis right behind the one that opens arguments closes them, so that no type begins
there. -/
inductive Awaits (next : Option Token) : TypeStack → List Frame → Prop
  /-- Before a type. -/
  | start (frames : List Frame) : Awaits next ⟨frames, .start⟩ frames
  /-- Behind the parenthesis that opens arguments. -/
  | firstArgument (n : String) (frames : List Frame) (hnext : ∀ t ∈ next, t.kind ≠ .rightParen) :
    Awaits next ⟨frames, .firstArgument n⟩ (.argument n [] :: frames)

namespace Awaits

variable {next : Option Token} {s : TypeStack} {frames : List Frame}

/-- The next token is read as the first one of a type. -/
theorem step_eq {t : Token} (h : Awaits (some t) s frames) (limit : Option Nat) :
    s.step limit t = TypeStack.enter limit frames t := by
  cases h with
  | start => rfl
  | firstArgument n frames hnext => exact TypeStack.step_firstArgument_enter limit frames n (hnext t rfl)

/-- What is asked for is a type, or none if too many are open. -/
theorem expected_eq (h : Awaits next s frames) (limit : Option Nat) (outer : Expectation) :
    s.expected limit outer = TypeStack.expectedEntry limit frames.length := by
  cases h <;> rfl

/-- The next token is not read if too many types are open, whatever it is. -/
theorem step_eq_stuck {t : Token} (h : Awaits (some t) s frames) {limit : Option Nat}
    (hfull : limitReached limit frames.length = true) : s.step limit t = .stuck := by
  rw [h.step_eq, TypeStack.enter, if_pos hfull]

end Awaits

namespace TypeStack

/-- Behind a finished type, what is asked for is what ends the types around it, and never fewer types. -/
theorem expectedBehind_ne {outer : Expectation} (houter : outer ≠ .shallowerType) (frames : List Frame) :
    expectedBehind outer frames ≠ .shallowerType := by
  fun_induction expectedBehind outer frames with
  | case1 => exact houter
  | case2 => simp
  | case3 => simp
  | case4 params frames ih => exact ih

/-- Fewer types are asked for only where a type is to begin and as many are open as the limit says. -/
theorem exists_awaits_of_expected {l : Nat} {s : TypeStack} {outer : Expectation} {next : Option Token}
    (hfits : s.Fits (some l)) (houter : outer ≠ .shallowerType)
    (hstop : ∀ t ∈ next, ∀ s', s.step (some l) t ≠ .next s')
    (hexp : s.expected (some l) outer = .shallowerType) :
    ∃ frames, Awaits next s frames ∧ frames.length = l := by
  obtain ⟨frames, place⟩ := s
  have hdepth : frames.length + place.depth ≤ l := hfits.2 l rfl
  have hfull : ∀ n, expectedEntry (some l) n = .shallowerType → l ≤ n := by
    intro n hn
    unfold expectedEntry at hn
    split at hn
    · next hreached => exact of_decide_eq_true hreached
    · contradiction
  cases place with
  | start =>
    have hle := hfull _ hexp
    exact ⟨frames, .start frames, Nat.le_antisymm (Nat.le_trans (Nat.le_add_right _ _) hdepth) hle⟩
  | firstArgument n =>
    have hle := hfull _ hexp
    refine ⟨.argument n [] :: frames, .firstArgument n frames ?_, Nat.le_antisymm hdepth hle⟩
    intro t ht hkind
    exact hstop t ht _ (step_firstArgument_close (some l) frames n hkind)
  | name | afterParams | ended => exact absurd hexp (expectedBehind_ne houter frames)
  | firstParam | nextParam | paramColon => contradiction

end TypeStack

/-- Whether a type of the declaration under way is to begin in front of the next token, and which types are
open around it. -/
def Place.Awaits (next : Option Token) (place : Place) (frames : List Frame) : Prop :=
  ∃ stack ∈ place.stack?, Grammar.Awaits next stack frames

namespace Place

variable {next : Option Token} {place : Place} {frames : List Frame}

/-- The next token is not read if too many types are open, whatever it is. -/
theorem Awaits.step?_eq_none {t : Token} (h : place.Awaits (some t) frames) {limit : Option Nat}
    (hfull : limitReached limit frames.length = true) : place.step? limit t = none := by
  obtain ⟨stack, hstack, hawaits⟩ := h
  exact step?_eq_none_of_stuck hstack (hawaits.step_eq_stuck hfull)

/-- Which token is next does not matter, unless it closes an empty list. -/
theorem Awaits.of_next {next' : Option Token} (h : place.Awaits next frames)
    (hnext : ∀ t ∈ next', t.kind ≠ .rightParen) : place.Awaits next' frames := by
  obtain ⟨stack, hstack, hawaits⟩ := h
  refine ⟨stack, hstack, ?_⟩
  cases hawaits with
  | start => exact .start frames
  | firstArgument n frames => exact .firstArgument n frames hnext

/-- Fewer types are asked for if too many are open. -/
theorem Awaits.expected_eq (h : place.Awaits next frames) {limit : Option Nat}
    (hfull : limitReached limit frames.length = true) : place.expected limit = .shallowerType := by
  obtain ⟨stack, hstack, hawaits⟩ := h
  have hentry : TypeStack.expectedEntry limit frames.length = .shallowerType := if_pos hfull
  cases place with
  | parent form n s =>
    cases hstack
    exact (hawaits.expected_eq limit _).trans hentry
  | memberType head before n s =>
    cases hstack
    exact (hawaits.expected_eq limit _).trans hentry
  | _ => contradiction

/-- Where a walk halts and fewer types are asked for, a type is to begin and as many are open as the limit
says. -/
theorem exists_awaits_of_expected {l : Nat} {rest : List Token} (hfits : place.Fits (some l))
    (hhalt : place.Halts (some l) rest) (hexp : place.expected (some l) = .shallowerType) :
    ∃ frames, place.Awaits rest.head? frames ∧ frames.length = l := by
  have hstop : ∀ stack ∈ place.stack?, ∀ t ∈ rest.head?, ∀ s', stack.step (some l) t ≠ .next s' := by
    intro stack hstack t ht s' hstep
    have hsome := step?_isSome_of_next hstack hstep
    rw [hhalt t ht] at hsome
    contradiction
  cases place with
  | parent form n s =>
    obtain ⟨frames, hawaits, hlength⟩ :=
      TypeStack.exists_awaits_of_expected hfits (by decide) (hstop s rfl) hexp
    exact ⟨frames, ⟨s, rfl, hawaits⟩, hlength⟩
  | memberType head before n s =>
    obtain ⟨frames, hawaits, hlength⟩ :=
      TypeStack.exists_awaits_of_expected hfits.2 (by decide) (hstop s rfl) hexp
    exact ⟨frames, ⟨s, rfl, hawaits⟩, hlength⟩
  | _ => contradiction

end Place

/-! ## Two limits -/

/-- Where a limit leaves room for a type, a looser one does. -/
theorem TypeStack.expectedEntry_looser {limit limit' : Option Nat} (hlim : Looser limit limit') {n : Nat}
    (h : expectedEntry limit n ≠ .shallowerType) : expectedEntry limit' n = expectedEntry limit n := by
  cases hreached : limitReached limit n with
  | true => exact absurd (if_pos hreached) h
  | false => simp [expectedEntry, hreached, limitReached_looser hlim hreached]

/-- Where it is not the limit that speaks, the same is asked for under a looser one. -/
theorem Place.expected_looser {limit limit' : Option Nat} (hlim : Looser limit limit') {place : Place}
    (h : place.expected limit ≠ .shallowerType) : place.expected limit' = place.expected limit := by
  have hstack : ∀ (s : TypeStack) (outer : Expectation), s.expected limit outer ≠ .shallowerType →
      s.expected limit' outer = s.expected limit outer := by
    rintro ⟨frames, place⟩ outer hexp
    cases place with
    | start | firstArgument => exact TypeStack.expectedEntry_looser hlim hexp
    | _ => rfl
  cases place with
  | parent form n s => exact hstack s _ h
  | memberType head before n s => exact hstack s _ h
  | _ => rfl

/-- Where a walk halts, no other walk over the same tokens under the same limit goes further. -/
theorem Progress.length_le_of_halts {limit : Option Nat} {s s₁ s₂ : Progress}
    {read₁ rest₁ read₂ rest₂ : List Token} (hts : read₁ ++ rest₁ = read₂ ++ rest₂)
    (hwalk₁ : s.walk? limit read₁ = some s₁) (hwalk₂ : s.walk? limit read₂ = some s₂)
    (hhalt : s₂.place.Halts limit rest₂) : read₁.length ≤ read₂.length := by
  rcases List.append_eq_append_iff.mp hts with ⟨more, rfl, -⟩ | ⟨more, rfl, hrest⟩
  · rw [List.length_append]
    exact Nat.le_add_right _ _
  · cases more with
    | nil => exact Nat.le_of_eq (congrArg List.length (List.append_nil read₂))
    | cons t more =>
      -- The longer walk would read the token that the other one halts at.
      rw [Progress.walk?_append, hwalk₂, Option.bind_some, Progress.walk?_cons, Progress.step?,
        hhalt t (by rw [hrest]; rfl)] at hwalk₁
      contradiction

end Grammar

open Grammar

/-- Whether an answer is an error that asks for fewer types. -/
def AsksShallower {α : Type} (answer : Except ParseError α) : Prop :=
  ∃ e, answer = .error e ∧ e.expected = .shallowerType

/-- An answer that does not ask for fewer types is the same under a looser limit, and so is what is left. -/
theorem runProgram_looser {limit limit' : Option Nat} (hlim : Looser limit limit') (stop : Token)
    {ts : List Token} (h : ¬ AsksShallower (runProgram limit stop [] .keyword ts).1) :
    runProgram limit' stop [] .keyword ts = runProgram limit stop [] .keyword ts := by
  obtain ⟨read, rest, s, rfl, hwalk, hhalt, hcut⟩ := runProgram_cut limit stop ts
  have hwalk' := Progress.walk?_looser hlim hwalk
  have hrun' : runProgram limit' stop [] .keyword (read ++ rest) =
      runProgram limit' stop s.done s.place rest := runProgram_walk stop hwalk' rest
  rcases hcut with ⟨hplace, hend, hrun⟩ | ⟨hend, hrun⟩
  · rw [hrun', hrun, hplace, runProgram_halt_ok limit' stop s.done hend]
  · have hexp : s.place.expected limit ≠ .shallowerType := by
      intro hexp
      rw [hrun] at h
      exact h ⟨_, rfl, hexp⟩
    have hhalt' : s.place.Halts limit' rest := fun t ht => (Place.step?_refused hlim (hhalt t ht) hexp).1
    rw [hrun', hrun, runProgram_halt_error stop s.done hhalt' hend, Place.expected_looser hlim hexp]

/-- No looser limit halts earlier. -/
theorem readCountWithin_le {limit limit' : Option Nat} (hlim : Looser limit limit') (ts : List Token) :
    readCountWithin limit ts ≤ readCountWithin limit' ts := by
  obtain ⟨read, rest, s, hts, hwalk, hhalt⟩ := Progress.start.exists_halt limit ts
  obtain ⟨read', rest', s', hts', hwalk', hhalt'⟩ := Progress.start.exists_halt limit' ts
  have hread : readCountWithin limit ts = read.length := hts ▸ readCountWithin_of_halts hwalk hhalt
  have hread' : readCountWithin limit' ts = read'.length :=
    hts' ▸ readCountWithin_of_halts hwalk' hhalt'
  rw [hread, hread']
  exact Progress.length_le_of_halts (hts.symm.trans hts') (Progress.walk?_looser hlim hwalk) hwalk' hhalt'

/-! ## Types that nest too deep -/

/-- Whether nesting is found to be too deep for a limit at the token behind the first `k`. -/
def TooDeepAt (l : Nat) (ts : List Token) (k : Nat) : Prop :=
  ∃ e, parseWithin (some l) ts = .error e ∧ e.diagnostic.help = some "type nesting too deep" ∧
    readCountWithin (some l) ts = k ∧ e.token = ts[k]?.getD (.endAfter ts)

/-- Whether a type is to begin behind the first `k` tokens inside `n` open ones, if these are read without a
limit. -/
def TypeDueAt (ts : List Token) (k n : Nat) : Prop :=
  ∃ s frames, Progress.start.walk? none (ts.take k) = some s ∧ s.place.Awaits ts[k]? frames ∧
    frames.length = n

/-- Where nesting is too deep, the tokens in front are walked over, as many types are open as the limit
says, and one more is to begin. -/
theorem TooDeepAt.exists_walk {l k : Nat} {ts : List Token} (h : TooDeepAt l ts k) :
    ∃ s frames, Progress.start.walk? (some l) (ts.take k) = some s ∧ s.place.Awaits ts[k]? frames ∧
      frames.length = l := by
  obtain ⟨e, herror, hhelp, rfl, -⟩ := h
  obtain ⟨read, rest, s, rfl, hwalk, hhalt, hcut⟩ := runProgram_cut (some l) (.endAfter ts) ts
  rcases hcut with ⟨-, -, hrun⟩ | ⟨-, hrun⟩
  · rw [parseWithin, hrun] at herror
    contradiction
  · rw [parseWithin, hrun] at herror
    cases herror
    have hfits := Progress.walk?_fits (Progress.start_fits (some l)) hwalk
    obtain ⟨frames, hawaits, hlength⟩ :=
      Place.exists_awaits_of_expected hfits.2 hhalt (help_eq_tooDeep_iff.mp hhelp)
    rw [readCountWithin_of_halts hwalk hhalt, List.take_left,
      List.getElem?_append_right (Nat.le_refl _), Nat.sub_self, ← List.head?_eq_getElem?]
    exact ⟨s, frames, hwalk, hawaits, hlength⟩

/-- Where as many types are open as the limit says and one more is to begin, nesting is too deep, if the
tokens in front are walked over. -/
theorem tooDeepAt_of_walk? {l k : Nat} {ts : List Token} {s : Progress} {frames : List Frame}
    (hk : k ≤ ts.length) (hwalk : Progress.start.walk? (some l) (ts.take k) = some s)
    (hawaits : s.place.Awaits ts[k]? frames) (hlength : frames.length = l) : TooDeepAt l ts k := by
  have hfull : limitReached (some l) frames.length = true := decide_eq_true (Nat.le_of_eq hlength.symm)
  have hhead : ts[k]? = (ts.drop k).head? := (List.head?_drop).symm
  have hhalt : s.place.Halts (some l) (ts.drop k) := by
    intro t ht
    rw [hhead, Option.mem_def.mp ht] at hawaits
    exact hawaits.step?_eq_none hfull
  have hplace : s.place ≠ .keyword := by
    intro hplace
    obtain ⟨stack, hstack, -⟩ := hawaits
    rw [hplace] at hstack
    contradiction
  have hcount := readCountWithin_of_halts hwalk hhalt
  rw [List.take_append_drop, List.length_take_of_le hk] at hcount
  rcases runProgram_of_halts (.endAfter ts) hwalk hhalt with ⟨hkeyword, -, -⟩ | ⟨-, hrun⟩
  · exact absurd hkeyword hplace
  · rw [List.take_append_drop] at hrun
    refine ⟨_, by rw [parseWithin, hrun]; rfl, ?_, hcount, by rw [hhead]⟩
    exact help_eq_tooDeep_iff.mpr (hawaits.expected_eq hfull)

/-- Nesting is too deep at one of the tokens, or at their end. -/
theorem TooDeepAt.le_length {l k : Nat} {ts : List Token} (h : TooDeepAt l ts k) : k ≤ ts.length := by
  obtain ⟨-, -, -, rfl, -⟩ := h
  exact Nat.sub_le _ _

/-- Nesting is too deep in one place only. -/
theorem TooDeepAt.unique {l j k : Nat} {ts : List Token} (hj : TooDeepAt l ts j) (hk : TooDeepAt l ts k) :
    j = k := by
  obtain ⟨-, -, -, rfl, -⟩ := hj
  obtain ⟨-, -, -, rfl, -⟩ := hk
  rfl

/-- Where nesting is too deep, one more type is to begin, and in front of it there is no other place where
one is to begin inside as many. -/
theorem TooDeepAt.first_typeDueAt {l k : Nat} {ts : List Token} (h : TooDeepAt l ts k) :
    TypeDueAt ts k l ∧ ∀ j < k, ¬ TypeDueAt ts j l := by
  obtain ⟨s, frames, hwalk, hawaits, hlength⟩ := h.exists_walk
  have hnone := Progress.walk?_looser (looser_none _) hwalk
  refine ⟨⟨s, frames, hnone, hawaits, hlength⟩, ?_⟩
  rintro j hj ⟨s₁, frames₁, hwalk₁, hawaits₁, hlength₁⟩
  -- The same tokens lead to the same place under the limit, where nesting would be too deep already.
  obtain ⟨s₂, hwalk₂⟩ := Progress.exists_walk?_take hwalk j
  rw [List.take_take, Nat.min_eq_left (Nat.le_of_lt hj)] at hwalk₂
  cases (Progress.walk?_looser (looser_none _) hwalk₂).symm.trans hwalk₁
  have hinside : j ≤ ts.length := Nat.le_trans (Nat.le_of_lt hj) h.le_length
  have hdeep := tooDeepAt_of_walk? hinside hwalk₂ hawaits₁ hlength₁
  exact absurd (hdeep.unique h) (Nat.ne_of_lt hj)

/-- Where a walk under a limit halts, and a walk without one goes on, nesting is too deep. -/
theorem tooDeepAt_of_halts {l : Nat} {read rest : List Token} {t : Token} {s s' : Progress}
    (hwalk : Progress.start.walk? (some l) read = some s) (hhalt : s.place.Halts (some l) (t :: rest))
    (hnone : Progress.start.walk? none (read ++ [t]) = some s') :
    TooDeepAt l (read ++ t :: rest) read.length := by
  have hstep : s.place.step? none t ≠ none := by
    intro hstep
    rw [Progress.walk?_append, Progress.walk?_looser (looser_none _) hwalk, Option.bind_some,
      Progress.walk?_cons, Progress.step?, hstep] at hnone
    contradiction
  have hexp : s.place.expected (some l) = .shallowerType := by
    apply Decidable.byContradiction
    intro hexp
    exact hstep (Place.step?_refused (looser_none _) (hhalt t rfl) hexp).1
  have hfits := (Progress.walk?_fits (Progress.start_fits (some l)) hwalk).2
  obtain ⟨frames, hawaits, hlength⟩ := Place.exists_awaits_of_expected hfits hhalt hexp
  refine tooDeepAt_of_walk? (s := s) (by simp) ?_ ?_ hlength
  · rw [List.take_left]
    exact hwalk
  · rw [List.getElem?_append_right (Nat.le_refl _), Nat.sub_self]
    exact hawaits

/-- The places where a type is to begin are in the tokens or just behind them. -/
theorem TypeDueAt.of_length_lt {ts : List Token} {k n : Nat} (h : TypeDueAt ts k n)
    (hk : ts.length < k) : TypeDueAt ts ts.length n := by
  obtain ⟨s, frames, hwalk, hawaits, hlength⟩ := h
  rw [List.take_of_length_le (Nat.le_of_lt hk)] at hwalk
  rw [List.getElem?_eq_none (Nat.le_of_lt hk)] at hawaits
  refine ⟨s, frames, ?_, ?_, hlength⟩
  · rw [List.take_length]
    exact hwalk
  · rw [List.getElem?_eq_none (Nat.le_refl _)]
    exact hawaits

/-- The first place where one more type is to begin inside as many as the limit says is where nesting is too
deep. -/
theorem tooDeepAt_of_first {l k : Nat} {ts : List Token} (hdue : TypeDueAt ts k l)
    (hfirst : ∀ j < k, ¬ TypeDueAt ts j l) : TooDeepAt l ts k := by
  have hinside : k ≤ ts.length :=
    Nat.le_of_not_lt fun hout => hfirst _ hout (hdue.of_length_lt hout)
  obtain ⟨s, frames, hwalk, hawaits, hlength⟩ := hdue
  obtain ⟨read, rest, s', hts, hwalk', hhalt⟩ := Progress.start.exists_halt (some l) ts
  by_cases hk : k ≤ read.length
  -- The limit lets the walk come to the place.
  · have htake : ts.take k = read.take k := by rw [hts, List.take_append_of_le_length hk]
    obtain ⟨s₁, hwalk₁⟩ := Progress.exists_walk?_take hwalk' k
    rw [← htake] at hwalk₁
    cases (Progress.walk?_looser (looser_none _) hwalk₁).symm.trans hwalk
    exact tooDeepAt_of_walk? hinside hwalk₁ hawaits hlength
  -- It halts before, where the walk without it goes on, so there was such a place before.
  · cases rest with
    | nil =>
      rw [hts, List.append_nil] at hinside
      exact absurd hinside hk
    | cons t rest =>
      have hfront : (ts.take k).take (read.length + 1) = read ++ [t] := by
        have hlt : read.length + 1 ≤ k := Nat.lt_of_not_le hk
        rw [List.take_take, Nat.min_eq_left hlt, hts, List.take_length_add_append]
        rfl
      obtain ⟨s₁, hwalk₁⟩ := Progress.exists_walk?_take hwalk (read.length + 1)
      rw [hfront] at hwalk₁
      have hdeep := tooDeepAt_of_halts hwalk' hhalt hwalk₁
      rw [← hts] at hdeep
      exact absurd hdeep.first_typeDueAt.1 (hfirst _ (Nat.lt_of_not_le hk))

/-- What a limit and a looser one, or none, make of the same tokens. -/
structure LimitOnlyDeepens (l : Nat) (limit : Option Nat) (ts : List Token) : Prop where
  /-- An answer that does not find nesting too deep is the answer under the looser limit, too. -/
  same : (∀ e, parseWithin (some l) ts = .error e →
      e.diagnostic.help ≠ some "type nesting too deep") →
    parseWithin limit ts = parseWithin (some l) ts
  /-- Where nesting is too deep, the looser limit finds a program that nests deeper than the limit, or fails
  no earlier. -/
  later : ∀ k, TooDeepAt l ts k →
    (∃ p, parseWithin limit ts = .ok p ∧ ∃ d ∈ p.toList, ∃ a ∈ d.types, l < a.depth) ∨
      ∃ e, parseWithin limit ts = .error e ∧ k ≤ readCountWithin limit ts
  /-- Nesting is too deep exactly at the first token where as many types are open as the limit says and one
  more is to begin. -/
  place : ∀ k, TooDeepAt l ts k ↔ TypeDueAt ts k l ∧ ∀ j < k, ¬ TypeDueAt ts j l
  /-- It does not matter which token that is, and whether there is one at all, but for the parenthesis that
  closes an empty list. -/
  whatever : ∀ k, TooDeepAt l ts k → ∀ us : List Token, us.take k = ts.take k →
    (∀ t ∈ us[k]?, t.kind ≠ .rightParen) → TooDeepAt l us k

/-- A larger limit is looser, and so is none. -/
theorem looser_of_lt {l : Nat} {limit : Option Nat} (h : ∀ m ∈ limit, l < m) :
    Looser (some l) limit := fun _ hn m hm => Nat.le_trans (hn l rfl) (Nat.le_of_lt (h m hm))

/-- An answer that does not find nesting too deep is the answer under a looser limit, too. -/
theorem parseWithin_looser {limit limit' : Option Nat} (hlim : Looser limit limit') {ts : List Token}
    (h : ∀ e, parseWithin limit ts = .error e → e.diagnostic.help ≠ some "type nesting too deep") :
    parseWithin limit' ts = parseWithin limit ts := by
  have hasks : ¬ AsksShallower (runProgram limit (.endAfter ts) [] .keyword ts).1 := by
    rintro ⟨e, he, hexp⟩
    refine h e ?_ (help_eq_tooDeep_iff.mpr hexp)
    rw [parseWithin, he]
    rfl
  rw [parseWithin, runProgram_looser hlim _ hasks, ← parseWithin]

/-- A program that a limit does not let through has a type that nests deeper. -/
theorem exists_deeper_of_error {l : Nat} {limit : Option Nat} {ts : List Token} {e : ParseError}
    {p : Program} (herror : parseWithin (some l) ts = .error e) (hp : parseWithin limit ts = .ok p) :
    ∃ d ∈ p.toList, ∃ a ∈ d.types, l < a.depth := by
  apply Decidable.byContradiction
  intro hnone
  obtain ⟨hsymbols, hfits⟩ := spelled_of_parseWithin hp
  have hok : parseWithin (some l) ts = .ok p := by
    refine parseWithin_of_spelled hsymbols fun d hd => ⟨(hfits d hd).1, fun a ha m hm => ?_⟩
    cases hm
    exact Nat.le_of_not_lt fun hlt => hnone ⟨d, hd, a, ha, hlt⟩
  rw [herror] at hok
  contradiction

/-- A limit replaces answers by errors about nesting and does nothing else, and it does so in the one place
where as many types are open as it says and one more is to begin. -/
theorem limit_only_deepens {l : Nat} {limit : Option Nat} (hlim : ∀ m ∈ limit, l < m)
    (ts : List Token) : LimitOnlyDeepens l limit ts where
  same := parseWithin_looser (looser_of_lt hlim)
  later := by
    intro k h
    have hle := readCountWithin_le (looser_of_lt hlim) ts
    obtain ⟨e, herror, -, rfl, -⟩ := h
    cases hanswer : parseWithin limit ts with
    | ok p => exact .inl ⟨p, rfl, exists_deeper_of_error herror hanswer⟩
    | error e' => exact .inr ⟨e', rfl, hle⟩
  place k := ⟨TooDeepAt.first_typeDueAt, fun h => tooDeepAt_of_first h.1 h.2⟩
  whatever := by
    intro k h us htake hnext
    obtain ⟨s, frames, hwalk, hawaits, hlength⟩ := h.exists_walk
    have hinside : k ≤ us.length := by
      have hcount := congrArg List.length htake
      rw [List.length_take, List.length_take, Nat.min_eq_left h.le_length] at hcount
      omega
    exact tooDeepAt_of_walk? hinside (htake ▸ hwalk) (hawaits.of_next hnext) hlength

/-- With one level, an empty list of arguments is read and an argument is too deep; with two, there is
nothing amiss. -/
theorem limit_only_deepens_argument :
    let ts := [Symbol.word "struct", .word "A", .mark .leftBrace, .word "f", .mark .colon, .word "L",
      .mark .leftParen, .mark .rightParen, .mark .semicolon, .word "g", .mark .colon, .word "L",
      .mark .leftParen, .word "int", .mark .rightParen, .mark .semicolon, .mark .rightBrace].map tokenOf
    (∀ m ∈ some 2, 1 < m) ∧ LimitOnlyDeepens 1 (some 2) ts ∧ TooDeepAt 1 ts 13 ∧
      parseWithin (some 2) ts = .ok (.ofList [.record .struct "A" none
        [⟨"f", .generic "L" []⟩, ⟨"g", .generic "L" [.named "int"]⟩]]) := by
  intro ts
  have hlim : ∀ m ∈ some 2, 1 < m := by decide
  exact ⟨hlim, limit_only_deepens hlim ts, ⟨_, rfl, rfl, rfl, rfl⟩, rfl⟩

end Idl
