import Idl.Proofs.Grammar.Viability

/-!
# What the help is good for

The help of an error names a kind of token, and a token of that kind repairs the error: put where reading
failed, it is read, whatever stands behind it, and what fails then fails further on (`help_repairs`).

The help is a text, and `Names` says which tokens such a text is about. It is the wording of what the place
asks for (`Expectation.asks_of_names`), and every place goes on by what it asks for: a type under way by a
name or by what closes the innermost list around it, or else it is over and the token is what the
declaration asks for (`TypeStack.step_of_asks`, `Place.step?_of_asks`). The tokens in front lead to that
place again, since a walk depends on nothing else.
-/

namespace Idl

namespace Grammar

/-! ## What is asked for -/

/-- Whether a token is of the kind that a help names. -/
inductive Names (help : String) (t : Token) : Prop
  /-- The help lists the keywords, and the token is one of them. -/
  | keyword (hhelp : help = "expected 'enum', 'struct' or 'interface'") (hkind : t.kind = .identifier)
    (htext : t.text ∈ ["enum", "struct", "interface"])
  /-- The help asks for a type, and the token is a name. -/
  | type (hhelp : help = "expected a type") (hkind : t.kind = .identifier)
  /-- The help quotes or describes the kind of the token, and then says where it is missing. -/
  | kind (place : String) (hhelp : help = s!"expected {t.kind.describe} {place}")

namespace Expectation

/-- The kind of token that is asked for. -/
def kind? : Expectation → Option TokenKind
  | keyword | enumName | underlying | enumerator | recordName | memberName | type | paramName =>
    some .identifier
  | enumColon | memberColon | paramColon => some .colon
  | enumOpen | recordOpen => some .leftBrace
  | enumClose => some .rightBrace
  | memberEnd => some .semicolon
  | argumentsClose | paramsClose => some .rightParen
  | shallowerType => none

/-- Whether a token is what is asked for. -/
def Asks (x : Expectation) (t : Token) : Prop :=
  x.kind? = some t.kind ∧ (x = .keyword → t.text ∈ ["enum", "struct", "interface"])

/-- The first two characters that a message has behind its first word. -/
def lead (message : String) : List Char := (message.toList.drop 9).take 2

/-- A message that describes a kind leads with the kind. -/
theorem lead_kindMessage (kind : TokenKind) (place : String) :
    lead (kindMessage kind place) = kind.describe.toList.take 2 := by
  unfold lead kindMessage
  simp only [String.toList_append, List.append_assoc]
  cases kind <;> rfl

/-- Two characters are enough to tell the kinds apart. -/
theorem kindMessage_inj {kind kind' : TokenKind} {place place' : String}
    (h : kindMessage kind place = kindMessage kind' place') : kind = kind' := by
  have hlead := congrArg lead h
  rw [lead_kindMessage, lead_kindMessage] at hlead
  revert hlead
  cases kind <;> cases kind' <;> decide

/-- A message describes a kind only if a token of this kind is asked for, and not a keyword. -/
theorem kind?_of_message {x : Expectation} {kind : TokenKind} {place : String}
    (h : x.message = kindMessage kind place) : x.kind? = some kind ∧ x ≠ .keyword := by
  have hlead := congrArg lead h
  rw [lead_kindMessage] at hlead
  cases x with
  | keyword | type | shallowerType =>
    revert hlead
    cases kind <;> decide
  | _ => exact ⟨congrArg some (kindMessage_inj h), nofun⟩

/-- Only the keywords are asked for by naming them. -/
theorem message_eq_keywords_iff (x : Expectation) :
    x.message = "expected 'enum', 'struct' or 'interface'" ↔ x = .keyword := by
  cases x <;> decide

/-- Only a type is asked for by that name. -/
theorem message_eq_type_iff (x : Expectation) : x.message = "expected a type" ↔ x = .type := by
  cases x <;> decide

/-- A token that the message names is what is asked for. -/
theorem asks_of_names {x : Expectation} {t : Token} (h : Names x.message t) : x.Asks t := by
  cases h with
  | keyword hhelp hkind htext =>
    obtain rfl := x.message_eq_keywords_iff.mp hhelp
    exact ⟨by rw [hkind]; rfl, fun _ => htext⟩
  | type hhelp hkind =>
    obtain rfl := x.message_eq_type_iff.mp hhelp
    exact ⟨by rw [hkind]; rfl, fun h => by contradiction⟩
  | kind place hhelp =>
    obtain ⟨hkind, hkeyword⟩ := kind?_of_message hhelp
    exact ⟨hkind, fun h => absurd h hkeyword⟩

/-- Every message but that about nesting names a token. -/
theorem exists_names {x : Expectation} (h : x ≠ .shallowerType) : ∃ t, Names x.message t := by
  have hkind : ∀ (kind : TokenKind) (place : String), x.message = kindMessage kind place →
      ∃ t, Names x.message t :=
    fun kind place hmessage => ⟨⟨kind, "", .start⟩, .kind place hmessage⟩
  cases x with
  | keyword => exact ⟨tokenOf (.word "enum"), .keyword rfl rfl (by decide)⟩
  | type => exact ⟨tokenOf (.word "x"), .type rfl rfl⟩
  | shallowerType => contradiction
  | _ => exact hkind _ _ rfl

end Expectation

/-! ## Places go on by what they ask for -/

namespace TypeStack

/-- A type begins with what is asked for where it is to begin. -/
theorem enter_of_asks {limit : Option Nat} {frames : List Frame} {t : Token}
    (h : (expectedEntry limit frames.length).Asks t) : ∃ s, enter limit frames t = .next s := by
  unfold expectedEntry at h
  unfold enter
  cases hreached : limitReached limit frames.length with
  | true =>
    rw [if_pos hreached] at h
    cases h.1
  | false =>
    rw [hreached] at h
    have hkind : t.kind = .identifier := (Option.some.inj h.1).symm
    rw [hkind]
    exact ⟨_, rfl⟩

/-- Behind a finished type, what is asked for ends the list around it, or stands behind the whole type. -/
theorem leave_of_asks {outer : Expectation} {t : Token} {frames : List Frame} (a : TypeExpr)
    (h : (expectedBehind outer frames).Asks t) :
    (∃ s, leave frames a t = .next s) ∨ outer.Asks t ∧ ∃ b, leave frames a t = .over b := by
  induction frames generalizing a with
  | nil => exact .inr ⟨h, a, rfl⟩
  | cons frame frames ih =>
    cases frame with
    | argument n before =>
      have hkind : t.kind = .rightParen := (Option.some.inj h.1).symm
      simp only [leave, hkind]
      exact .inl ⟨_, rfl⟩
    | param before n =>
      have hkind : t.kind = .rightParen := (Option.some.inj h.1).symm
      simp only [leave, hkind]
      exact .inl ⟨_, rfl⟩
    | result params => exact ih _ h

/-- A type under way goes on by what it asks for, unless it is over and that is asked for behind it. -/
theorem step_of_asks {limit : Option Nat} {outer : Expectation} {s : TypeStack} {t : Token}
    (h : (s.expected limit outer).Asks t) :
    (∃ s', s.step limit t = .next s') ∨ outer.Asks t ∧ ∃ a, s.step limit t = .over a := by
  obtain ⟨frames, place⟩ := s
  cases place with
  | start => exact .inl (enter_of_asks h)
  | name n =>
    by_cases hopen : t.kind = .leftParen
    · exact .inl ⟨_, step_name_open limit frames n hopen⟩
    · rw [step_name_leave limit frames n hopen]
      exact leave_of_asks _ h
  | firstArgument n =>
    by_cases hclose : t.kind = .rightParen
    · exact .inl ⟨_, step_firstArgument_close limit frames n hclose⟩
    · rw [step_firstArgument_enter limit frames n hclose]
      exact .inl (enter_of_asks h)
  | firstParam =>
    have hkind : t.kind = .identifier := (Option.some.inj h.1).symm
    simp only [step, hkind]
    exact .inl ⟨_, rfl⟩
  | nextParam before =>
    have hkind : t.kind = .identifier := (Option.some.inj h.1).symm
    simp only [step, hkind]
    exact .inl ⟨_, rfl⟩
  | paramColon before n =>
    have hkind : t.kind = .colon := (Option.some.inj h.1).symm
    simp only [step, hkind]
    exact .inl ⟨_, rfl⟩
  | afterParams params =>
    by_cases harrow : t.kind = .arrow
    · exact .inl ⟨_, step_afterParams_arrow limit frames params harrow⟩
    · rw [step_afterParams_leave limit frames params harrow]
      exact leave_of_asks _ h
  | ended a => exact leave_of_asks a h

end TypeStack

namespace Place

/-- A keyword is one of the three words. -/
theorem isSome_ofKeyword? {word : String} (h : word ∈ ["enum", "struct", "interface"]) :
    (ofKeyword? word).isSome := by
  simp only [List.mem_cons, List.not_mem_nil, or_false] at h
  rcases h with rfl | rfl | rfl <;> decide

/-- A declaration under way goes on by what it asks for. -/
theorem step?_of_asks {limit : Option Nat} {place : Place} {t : Token}
    (h : (place.expected limit).Asks t) : (place.step? limit t).isSome := by
  have hkind : ∀ kind, (place.expected limit).kind? = some kind → t.kind = kind := by
    intro kind hexpected
    exact Option.some.inj (h.1.symm.trans hexpected)
  cases place with
  | keyword =>
    have hword := isSome_ofKeyword? (h.2 rfl)
    simpa [step?, hkind _ rfl] using hword
  -- In a type: it goes on, or it is over, and then its declaration asks for one mark.
  | parent form n stack =>
    rcases TypeStack.step_of_asks h with ⟨s, hstep⟩ | ⟨hasks, a, hstep⟩
    · exact step?_isSome_of_next rfl hstep
    · have hopen : t.kind = .leftBrace := (Option.some.inj hasks.1).symm
      simp [step?, hstep, openMembers?, hopen]
  | memberType head before n stack =>
    rcases TypeStack.step_of_asks h with ⟨s, hstep⟩ | ⟨hasks, a, hstep⟩
    · exact step?_isSome_of_next rfl hstep
    · have hend : t.kind = .semicolon := (Option.some.inj hasks.1).symm
      simp [step?, hstep, endMember?, hend]
  | recordColon form n => simp [step?, openMembers?, hkind _ rfl]
  | _ => simp [step?, hkind _ rfl]

end Place

end Grammar

open Grammar

/-! ## Readings that fail -/

/-- A reading of tokens that fails at the one behind the first `k`. -/
structure FailsAt (ts : List Token) (k : Nat) (e : ParseError) : Prop where
  /-- The tokens are no program. -/
  fails : parse ts = .error e
  /-- The first `k` tokens are read. -/
  read : readCount ts = k
  /-- The token behind them is at fault, and one made up behind the last if there are no more. -/
  token : e.token = ts[k]?.getD (.endAfter ts)

/-- Where a reading fails, the tokens in front have been walked over, and the one behind them is at fault
for not being what is asked for there. -/
theorem walk?_of_error {ts : List Token} {e : ParseError} (h : parse ts = .error e) :
    ∃ s, Progress.start.walk? (some maxTypeDepth) (ts.take (readCount ts)) = some s ∧
      readCount ts ≤ ts.length ∧
      e = ⟨ts[readCount ts]?.getD (.endAfter ts), s.place.expected (some maxTypeDepth)⟩ := by
  obtain ⟨read, rest, s, rfl, hwalk, -, hcut⟩ := runProgram_cut (some maxTypeDepth) (.endAfter ts) ts
  rcases hcut with ⟨-, -, hrun⟩ | ⟨-, hrun⟩
  · rw [parse, parseWithin, hrun] at h
    contradiction
  · rw [parse, parseWithin, hrun] at h
    cases h
    rw [readCount_eq hrun, List.take_left, List.getElem?_append_right (Nat.le_refl _), Nat.sub_self,
      ← List.head?_eq_getElem?, List.length_append]
    exact ⟨s, hwalk, Nat.le_add_right _ _, rfl⟩

/-- A reading that fails does so behind the tokens that it reads. -/
theorem failsAt_of_error {ts : List Token} {e : ParseError} (h : parse ts = .error e) :
    FailsAt ts (readCount ts) e := by
  obtain ⟨s, -, -, he⟩ := walk?_of_error h
  exact ⟨h, rfl, congrArg ParseError.token he⟩

/-- Tokens that can be walked over are read, whatever stands behind them. -/
theorem length_le_readCount {front : List Token} {s : Progress}
    (h : Progress.start.walk? (some maxTypeDepth) front = some s) (rest : List Token) :
    front.length ≤ readCount (front ++ rest) := by
  -- The walk goes on over some more tokens, and the reading stops where it halts.
  obtain ⟨more, tail, s', rfl, hmore, hhalt⟩ := s.exists_halt (some maxTypeDepth) rest
  have hwalk : Progress.start.walk? (some maxTypeDepth) (front ++ more) = some s' := by
    rw [Progress.walk?_append, h]
    exact hmore
  have hcount : readCount (front ++ more ++ tail) = (front ++ more).length :=
    readCountWithin_of_halts hwalk hhalt
  rw [← List.append_assoc, hcount, List.length_append]
  exact Nat.le_add_right _ _

/-- The help of an error names the token that repairs it. -/
structure HelpRepairs (ts : List Token) (e : ParseError) : Prop where
  /-- The error is that of the token behind those read. -/
  failsAt : FailsAt ts (readCount ts) e
  /-- Unless it is about nesting, the help names some token. -/
  names : e.diagnostic.help ≠ some "type nesting too deep" →
    ∃ help ∈ e.diagnostic.help, ∃ x, Names help x
  /-- Put behind the tokens read, a token that the help names is read too, whatever else follows: there is
  a program then, or a fault further on. -/
  repairs : ∀ help ∈ e.diagnostic.help, ∀ x, Names help x → ∀ rest,
    (∃ p, parse (ts.take (readCount ts) ++ x :: rest) = .ok p) ∨
      ∃ k e', readCount ts < k ∧ FailsAt (ts.take (readCount ts) ++ x :: rest) k e'

/-- What the help of an error names repairs it. -/
theorem help_repairs {ts : List Token} {e : ParseError} (h : parse ts = .error e) :
    HelpRepairs ts e := by
  obtain ⟨s, hwalk, hle, he⟩ := walk?_of_error h
  have hexpected : e.expected = s.place.expected (some maxTypeDepth) := congrArg ParseError.expected he
  refine ⟨failsAt_of_error h, ?_, ?_⟩
  · intro hhelp
    exact ⟨_, rfl, Expectation.exists_names fun hdeep => hhelp (help_eq_tooDeep_iff.mpr hdeep)⟩
  · intro help hhelp x hx rest
    obtain rfl : e.expected.message = help := Option.some.inj hhelp
    have hasks := Expectation.asks_of_names hx
    rw [hexpected] at hasks
    -- The same tokens lead to the same place, and from there the token is read.
    obtain ⟨step, hstep⟩ := Option.isSome_iff_exists.mp (Place.step?_of_asks hasks)
    have hread : ∃ s', Progress.start.walk? (some maxTypeDepth) (ts.take (readCount ts) ++ [x]) =
        some s' := by
      rw [Progress.walk?_append, hwalk, Option.bind_some, Progress.walk?_cons, Progress.step?, hstep]
      cases step <;> exact ⟨_, rfl⟩
    obtain ⟨s', hread⟩ := hread
    have hlength := length_le_readCount hread rest
    rw [List.append_assoc, List.singleton_append, List.length_append, List.length_take_of_le hle]
      at hlength
    cases hparse : parse (ts.take (readCount ts) ++ x :: rest) with
    | ok p => exact .inl ⟨p, rfl⟩
    | error e' => exact .inr ⟨_, e', hlength, failsAt_of_error hparse⟩

/-- In an enumeration without a colon the help asks for one; behind it the next fault is the brace in place
of the underlying type. -/
theorem help_repairs_missing_colon :
    let ts := [Symbol.word "enum", .word "E", .mark .leftBrace, .word "A", .mark .rightBrace].map tokenOf
    let colon := tokenOf (.mark .colon)
    let brace := tokenOf (.mark .leftBrace)
    parse ts = .error ⟨brace, .enumColon⟩ ∧ HelpRepairs ts ⟨brace, .enumColon⟩ ∧
      FailsAt ts 2 ⟨brace, .enumColon⟩ ∧ Names "expected ':' after enum name" colon ∧
      FailsAt (ts.take 2 ++ colon :: ts.drop 2) 3 ⟨brace, .underlying⟩ :=
  ⟨rfl, help_repairs rfl, ⟨rfl, rfl, rfl⟩, .kind "after enum name" rfl, ⟨rfl, rfl, rfl⟩⟩

end Idl
