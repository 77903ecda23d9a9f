import Idl.Parser
import Idl.Proofs.Grammar.Spelling

/-!
# How deep types may nest

A limit bounds how many types are open at once, and so how deep the types of a program nest. The
bound is carried by the places of the grammar: `TypeStack.Fits` counts the types around each part
that has been read. Every step keeps it (`TypeStack.step_fits`, `Place.step?_fits`), so a declaration
read to its end fits the limit, and stands on a bare name if it is an enumeration.

The limit decides nothing else. A step either begins a type or is the same under every limit
(`TypeStack.step_entry_or_same`), so what one limit lets through every looser limit does too
(`Place.step?_looser`), and what is refused for another reason than the limit is refused by all of
them (`Place.step?_refused`).
-/

namespace Idl

/-! ## Limits -/

/-- Whether `n` levels are within a limit. -/
def Within (limit : Option Nat) (n : Nat) : Prop := ∀ l ∈ limit, n ≤ l

/-- Fewer levels are within a limit, too. -/
theorem Within.mono {limit : Option Nat} {m n : Nat} (h : Within limit m) (hle : n ≤ m) :
    Within limit n := fun l hl => Nat.le_trans hle (h l hl)

/-- The greater of two counts is within a limit if both are. -/
theorem Within.max {limit : Option Nat} {m n : Nat} (hm : Within limit m) (hn : Within limit n) :
    Within limit (max m n) := fun l hl => Nat.max_le.mpr ⟨hm l hl, hn l hl⟩

/-- A limit that is not reached has room for a level more. -/
theorem limitReached_eq_false_iff {limit : Option Nat} {n : Nat} :
    Grammar.limitReached limit n = false ↔ Within limit (n + 1) := by
  cases limit with
  | none =>
    have hwithin : Within none (n + 1) := by
      intro l hl
      contradiction
    exact iff_of_true rfl hwithin
  | some l =>
    have hwithin : Within (some l) (n + 1) ↔ n + 1 ≤ l := by simp [Within]
    have hreached : Grammar.limitReached (some l) n = decide (l ≤ n) := rfl
    rw [hwithin, hreached, decide_eq_false_iff_not]
    omega

/-- Whether a limit lets through all that another one does. -/
def Looser (limit limit' : Option Nat) : Prop := ∀ n, Within limit n → Within limit' n

/-- No limit is looser than any limit. -/
theorem looser_none (limit : Option Nat) : Looser limit none := by
  intro n _ l hl
  contradiction

namespace TypeExpr

/-- The deepest of two lists of types laid end to end is the deeper one's. -/
theorem listDepth_append (as bs : List TypeExpr) :
    listDepth (as ++ bs) = max (listDepth as) (listDepth bs) := by
  induction as with
  | nil => simp [listDepth]
  | cons a as ih => rw [List.cons_append, listDepth, listDepth, ih, Nat.max_assoc]

/-- The order of types does not matter to their depth. -/
theorem listDepth_reverse (as : List TypeExpr) : listDepth as.reverse = listDepth as := by
  induction as with
  | nil => rfl
  | cons a as ih =>
    rw [List.reverse_cons, listDepth_append, ih, listDepth, listDepth, listDepth, Nat.max_zero,
      Nat.max_comm]

/-- The deepest of two lists of parameters laid end to end is the deeper one's. -/
theorem paramsDepth_append (ps qs : List Param) :
    paramsDepth (ps ++ qs) = max (paramsDepth ps) (paramsDepth qs) := by
  induction ps with
  | nil => simp [paramsDepth]
  | cons p ps ih => rw [List.cons_append, paramsDepth, paramsDepth, ih, Nat.max_assoc]

/-- The order of parameters does not matter to their depth. -/
theorem paramsDepth_reverse (ps : List Param) : paramsDepth ps.reverse = paramsDepth ps := by
  induction ps with
  | nil => rfl
  | cons p ps ih =>
    rw [List.reverse_cons, paramsDepth_append, ih, paramsDepth, paramsDepth, paramsDepth,
      Nat.max_zero, Nat.max_comm]

end TypeExpr

namespace Declaration

/-- Whether a declaration is no enumeration over anything but a bare name. -/
def isPlain : Declaration → Bool
  | enum _ (.named _) _ => true
  | enum _ _ _ => false
  | record _ _ _ _ => true

/-- The parent and the types of the members of a record. -/
def types : Declaration → List TypeExpr
  | enum _ _ _ => []
  | record _ _ parent members => parent.toList ++ members.map (·.type)

/-- Whether the types of a declaration are within a limit. -/
def Fits (limit : Option Nat) (d : Declaration) : Prop := ∀ a ∈ d.types, Within limit a.depth

end Declaration

namespace Grammar

open TypeExpr

/-! ## Types under way -/

/-- The depth of the deepest finished part of an open type. -/
def Frame.depth : Frame → Nat
  | argument _ before => listDepth before
  | param before _ => paramsDepth before
  | result params => paramsDepth params

/-- Whether the finished parts of the types around a place are within a limit, each counted from the
outermost type. -/
def FramesFit (limit : Option Nat) : List Frame → Prop
  | [] => True
  | frame :: frames => Within limit (frames.length + 1 + frame.depth) ∧ FramesFit limit frames

/-- How many levels the innermost type has for certain. -/
def TypePlace.depth : TypePlace → Nat
  | start => 0
  | name _ | firstArgument _ | firstParam => 1
  | nextParam before | paramColon before _ => paramsDepth before + 1
  | afterParams params => paramsDepth params + 1
  | ended type => type.depth

/-- Whether what has been read of a type is within a limit. -/
def TypeStack.Fits (limit : Option Nat) (s : TypeStack) : Prop :=
  FramesFit limit s.frames ∧ Within limit (s.frames.length + s.place.depth)

/-- Whether the outcome of a step is within a limit. -/
def TypeStep.Fits (limit : Option Nat) : TypeStep → Prop
  | .next stack => stack.Fits limit
  | .over type => Within limit type.depth
  | .stuck => True

namespace TypeStack

/-- A type that may begin is within the limit. -/
theorem enter_fits {limit : Option Nat} {frames : List Frame} (hframes : FramesFit limit frames)
    (t : Token) : (enter limit frames t).Fits limit := by
  fun_cases enter limit frames t with
  | case1 => trivial
  | case2 hroom => exact ⟨hframes, limitReached_eq_false_iff.mp (by simpa using hroom)⟩
  | case3 hroom => exact ⟨hframes, limitReached_eq_false_iff.mp (by simpa using hroom)⟩
  | case4 => trivial

/-- A finished type within the limit leaves what is around it within the limit. -/
theorem leave_fits {limit : Option Nat} {frames : List Frame} {type : TypeExpr} {t : Token}
    (hframes : FramesFit limit frames) (htype : Within limit (frames.length + type.depth)) :
    (leave frames type t).Fits limit := by
  fun_induction leave frames type t with
  | case1 => simpa [TypeStep.Fits] using htype
  | case2 name before frames type t =>
    obtain ⟨hbefore, hframes⟩ := hframes
    refine ⟨⟨(hbefore.max htype).mono ?_, hframes⟩, hbefore.mono ?_⟩
    · simp only [Frame.depth, listDepth, List.length_cons]
      omega
    · simp only [TypePlace.depth, List.length_cons]
      omega
  | case3 name before frames type t =>
    obtain ⟨hbefore, hframes⟩ := hframes
    refine ⟨hframes, (hbefore.max htype).mono ?_⟩
    simp only [Frame.depth, TypePlace.depth, TypeExpr.depth, listDepth_reverse, listDepth,
      List.length_cons]
    omega
  | case4 => trivial
  | case5 before name frames type t =>
    obtain ⟨hbefore, hframes⟩ := hframes
    refine ⟨hframes, (hbefore.max htype).mono ?_⟩
    simp only [Frame.depth, TypePlace.depth, paramsDepth, List.length_cons]
    omega
  | case6 before name frames type t =>
    obtain ⟨hbefore, hframes⟩ := hframes
    refine ⟨hframes, (hbefore.max htype).mono ?_⟩
    simp only [Frame.depth, TypePlace.depth, paramsDepth_reverse, paramsDepth, List.length_cons]
    omega
  | case7 => trivial
  | case8 params frames type t ih =>
    -- The function ends together with its result, so it is its own depth that is asked about next.
    obtain ⟨hparams, hframes⟩ := hframes
    apply ih hframes
    refine (hparams.max htype).mono ?_
    simp only [Frame.depth, TypeExpr.depth, List.length_cons]
    omega

/-- A step keeps a type under way within the limit. -/
theorem step_fits {limit : Option Nat} {s : TypeStack} (hs : s.Fits limit) (t : Token) :
    (s.step limit t).Fits limit := by
  obtain ⟨hframes, hplace⟩ := hs
  fun_cases step limit s t with
  | case1 => exact enter_fits hframes t
  | case2 n _ h =>
    rw [h] at hplace
    exact ⟨hframes, hplace⟩
  | case3 n h =>
    rw [h] at hplace
    exact leave_fits hframes hplace
  | case4 n _ h =>
    rw [h] at hplace
    exact ⟨hframes, hplace⟩
  | case5 n h =>
    rw [h] at hplace
    have hnew : FramesFit limit (.argument n [] :: s.frames) := ⟨hplace, hframes⟩
    exact enter_fits hnew t
  | case6 _ h =>
    rw [h] at hplace
    exact ⟨hframes, hplace⟩
  | case7 _ h =>
    rw [h] at hplace
    exact ⟨hframes, hplace⟩
  | case8 => trivial
  | case9 before _ h =>
    rw [h] at hplace
    exact ⟨hframes, hplace⟩
  | case10 => trivial
  | case11 before n _ h =>
    -- The function becomes a frame: what is known of it is split between the frame and the level
    -- that the type inside it begins at.
    rw [h] at hplace
    refine ⟨⟨hplace.mono ?_, hframes⟩, hplace.mono ?_⟩
    · simp only [Frame.depth, TypePlace.depth]
      omega
    · simp only [TypePlace.depth, List.length_cons]
      omega
  | case12 => trivial
  | case13 params _ h =>
    rw [h] at hplace
    refine ⟨⟨hplace.mono ?_, hframes⟩, hplace.mono ?_⟩
    · simp only [Frame.depth, TypePlace.depth]
      omega
    · simp only [TypePlace.depth, List.length_cons]
      omega
  | case14 params h =>
    rw [h] at hplace
    exact leave_fits hframes hplace
  | case15 type h =>
    rw [h] at hplace
    exact leave_fits hframes hplace

/-- A type that goes on stays within the limit. -/
theorem next_fits {limit : Option Nat} {s next : TypeStack} {t : Token} (hs : s.Fits limit)
    (h : s.step limit t = .next next) : next.Fits limit := by
  have hstep := step_fits hs t
  rw [h] at hstep
  exact hstep

/-- A type that is over is within the limit. -/
theorem over_fits {limit : Option Nat} {s : TypeStack} {t : Token} {type : TypeExpr}
    (hs : s.Fits limit) (h : s.step limit t = .over type) : Within limit type.depth := by
  have hstep := step_fits hs t
  rw [h] at hstep
  exact hstep

/-- A type that is yet to begin fits every limit. -/
theorem start_fits (limit : Option Nat) : start.Fits limit :=
  ⟨trivial, fun _ _ => Nat.zero_le _⟩

/-- A step begins a type inside some frames, or it is the same under every limit and so is what is
asked for if the token is not read. -/
theorem step_entry_or_same (s : TypeStack) (t : Token) :
    (∃ frames, ∀ limit, s.step limit t = enter limit frames t ∧
      ∀ outer, s.expected limit outer = expectedEntry limit frames.length) ∨
    (∀ limit limit', s.step limit t = s.step limit' t ∧ ((∀ next, s.step limit t ≠ .next next) →
      ∀ outer, s.expected limit outer = s.expected limit' outer)) := by
  obtain ⟨frames, place⟩ := s
  cases place with
  | start => exact .inl ⟨frames, fun _ => ⟨rfl, fun _ => rfl⟩⟩
  | name n =>
    right
    intro limit limit'
    refine ⟨?_, fun _ _ => rfl⟩
    by_cases hkind : t.kind = .leftParen
    · rw [step_name_open _ _ _ hkind, step_name_open _ _ _ hkind]
    · rw [step_name_leave _ _ _ hkind, step_name_leave _ _ _ hkind]
  | firstArgument n =>
    by_cases hkind : t.kind = .rightParen
    · right
      intro limit limit'
      rw [step_firstArgument_close _ _ _ hkind, step_firstArgument_close _ _ _ hkind]
      exact ⟨rfl, fun h => absurd rfl (h _)⟩
    · left
      exact ⟨.argument n [] :: frames, fun limit =>
        ⟨step_firstArgument_enter limit frames n hkind, fun _ => rfl⟩⟩
  | firstParam | nextParam | paramColon =>
    right
    intro limit limit'
    refine ⟨?_, fun _ _ => rfl⟩
    cases hkind : t.kind <;> simp only [step, hkind]
  | afterParams params =>
    right
    intro limit limit'
    refine ⟨?_, fun _ _ => rfl⟩
    by_cases hkind : t.kind = .arrow
    · rw [step_afterParams_arrow _ _ _ hkind, step_afterParams_arrow _ _ _ hkind]
    · rw [step_afterParams_leave _ _ _ hkind, step_afterParams_leave _ _ _ hkind]
  | ended type => exact .inr fun _ _ => ⟨rfl, fun _ _ => rfl⟩

/-- A limit that is reached is reached by every limit that is no looser. -/
theorem limitReached_looser {limit limit' : Option Nat} (hlim : Looser limit limit') {n : Nat}
    (h : limitReached limit n = false) : limitReached limit' n = false :=
  limitReached_eq_false_iff.mpr (hlim _ (limitReached_eq_false_iff.mp h))

/-- A step that a limit lets through is the same under a looser one. -/
theorem step_looser {limit limit' : Option Nat} (hlim : Looser limit limit') {s : TypeStack}
    {t : Token} (h : s.step limit t ≠ .stuck) : s.step limit' t = s.step limit t := by
  rcases s.step_entry_or_same t with ⟨frames, hentry⟩ | hsame
  · rw [(hentry limit).1] at h ⊢
    rw [(hentry limit').1]
    cases hreached : limitReached limit frames.length with
    | true => simp [enter, hreached] at h
    | false => simp [enter, hreached, limitReached_looser hlim hreached]
  · exact (hsame limit' limit).1

/-- A token that is not read, for another reason than the limit, is not read under a looser one
either, and the same is asked for in its place. -/
theorem step_refused {limit limit' : Option Nat} (hlim : Looser limit limit') {s : TypeStack}
    {t : Token} {outer : Expectation} (h : ∀ next, s.step limit t ≠ .next next)
    (hexp : s.expected limit outer ≠ .shallowerType) :
    s.step limit' t = s.step limit t ∧ s.expected limit' outer = s.expected limit outer := by
  rcases s.step_entry_or_same t with ⟨frames, hentry⟩ | hsame
  -- Where a type begins, the limit is either the reason given or not reached at all.
  · obtain ⟨hstep, hwant⟩ := hentry limit
    obtain ⟨hstep', hwant'⟩ := hentry limit'
    rw [hwant] at hexp ⊢
    rw [hwant', hstep', hstep]
    cases hreached : limitReached limit frames.length with
    | true => simp [expectedEntry, hreached] at hexp
    | false => simp [enter, expectedEntry, hreached, limitReached_looser hlim hreached]
  · obtain ⟨hstep, hwant⟩ := hsame limit limit'
    exact ⟨hstep.symm, (hwant h outer).symm⟩

end TypeStack

/-! ## Declarations under way -/

/-- Whether the parent of a record and members of it are within a limit. -/
def MembersFit (limit : Option Nat) (head : RecordHead) (before : List Member) : Prop :=
  (∀ a ∈ head.parent, Within limit a.depth) ∧ ∀ m ∈ before, Within limit m.type.depth

/-- Whether what has been read of a declaration is within a limit. -/
def Place.Fits (limit : Option Nat) : Place → Prop
  | parent _ _ stack => stack.Fits limit
  | member head before | memberColon head before _ => MembersFit limit head before
  | memberType head before _ stack => MembersFit limit head before ∧ stack.Fits limit
  | _ => True

/-- Whether the outcome of a step is within a limit; a declaration that ends is plain as well. -/
def Step.Fits (limit : Option Nat) : Step → Prop
  | .next place => place.Fits limit
  | .ended d => d.isPlain ∧ d.Fits limit

namespace Place

/-- A keyword leads to a place where nothing has been read that could nest. -/
theorem ofKeyword?_fits (limit : Option Nat) {word : String} {place : Place}
    (h : ofKeyword? word = some place) : place.Fits limit := by
  unfold ofKeyword? at h
  split at h
  · cases h
    trivial
  · obtain ⟨form, -, rfl⟩ := Option.map_eq_some_iff.mp h
    trivial

/-- The members of a record begin within the limit if its parent is. -/
theorem openMembers?_fits {limit : Option Nat} {head : RecordHead} {t : Token} {step : Step}
    (hparent : ∀ a ∈ head.parent, Within limit a.depth) (h : openMembers? head t = some step) :
    step.Fits limit := by
  unfold openMembers? at h
  split at h
  · cases h
    exact ⟨hparent, by simp⟩
  · contradiction

/-- A member within the limit leaves the record within it. -/
theorem endMember?_fits {limit : Option Nat} {head : RecordHead} {before : List Member}
    {m : Member} {t : Token} {step : Step} (hbefore : MembersFit limit head before)
    (hm : Within limit m.type.depth) (h : endMember? head before m t = some step) :
    step.Fits limit := by
  unfold endMember? at h
  split at h
  · cases h
    refine ⟨hbefore.1, ?_⟩
    intro m' hm'
    rcases List.mem_cons.mp hm' with rfl | hm'
    · exact hm
    · exact hbefore.2 m' hm'
  · contradiction

/-- The types of a record are its parent and those of its members, in whatever order these were
read. -/
theorem record_fits {limit : Option Nat} {head : RecordHead} {before : List Member}
    (h : MembersFit limit head before) :
    (Declaration.record head.form head.name head.parent before.reverse).Fits limit := by
  intro a ha
  rcases List.mem_append.mp ha with ha | ha
  · exact h.1 a (Option.mem_toList.mp ha)
  · obtain ⟨m, hm, rfl⟩ := List.mem_map.mp ha
    exact h.2 m (List.mem_reverse.mp hm)

/-- A step keeps a declaration under way within the limit. -/
theorem step?_fits {limit : Option Nat} {place : Place} {t : Token} {step : Step}
    (hplace : place.Fits limit) (h : place.step? limit t = some step) : step.Fits limit := by
  revert h
  fun_cases step? limit place t with
  | case1 =>
    intro h
    obtain ⟨next, hnext, rfl⟩ := Option.map_eq_some_iff.mp h
    exact ofKeyword?_fits limit hnext
  | case6 | case10 =>
    rintro ⟨⟩
    exact ⟨rfl, fun a ha => by contradiction⟩
  | case12 =>
    rintro ⟨⟩
    exact TypeStack.start_fits limit
  | case13 form n =>
    intro h
    exact openMembers?_fits (by simp) h
  | case14 form n stack next hnext =>
    rintro ⟨⟩
    exact TypeStack.next_fits hplace hnext
  | case15 form n stack type hover =>
    intro h
    have htype := TypeStack.over_fits hplace hover
    exact openMembers?_fits (by simpa using htype) h
  | case17 head before =>
    rintro ⟨⟩
    exact ⟨rfl, record_fits hplace⟩
  | case18 =>
    rintro ⟨⟩
    exact hplace
  | case19 =>
    rintro ⟨⟩
    exact ⟨hplace, TypeStack.start_fits limit⟩
  | case20 head before n stack next hnext =>
    rintro ⟨⟩
    obtain ⟨hmembers, hstack⟩ := hplace
    exact ⟨hmembers, TypeStack.next_fits hstack hnext⟩
  | case21 head before n stack type hover =>
    intro h
    obtain ⟨hmembers, hstack⟩ := hplace
    exact endMember?_fits hmembers (TypeStack.over_fits hstack hover) h
  | case16 | case22 | case23 => rintro ⟨⟩
  | _ =>
    rintro ⟨⟩
    trivial

/-- The type under way in a declaration. -/
def stack? : Place → Option TypeStack
  | parent _ _ stack | memberType _ _ _ stack => some stack
  | _ => none

/-- The limit matters to a declaration only where it matters to the type under way in it. -/
theorem step?_eq_of_stack? {limit limit' : Option Nat} {place : Place} {t : Token}
    (h : ∀ stack ∈ place.stack?, stack.step limit' t = stack.step limit t) :
    place.step? limit' t = place.step? limit t := by
  cases place with
  | parent form n stack => rw [step?, step?, h stack rfl]
  | memberType head before n stack => rw [step?, step?, h stack rfl]
  | _ => cases hkind : t.kind <;> simp only [step?, hkind]

/-- A declaration goes on wherever the type under way in it does. -/
theorem step?_isSome_of_next {limit : Option Nat} {place : Place} {t : Token} {stack : TypeStack}
    (hstack : stack ∈ place.stack?) {next : TypeStack} (h : stack.step limit t = .next next) :
    (place.step? limit t).isSome := by
  cases place with
  | parent form n s =>
    cases hstack
    simp [step?, h]
  | memberType head before n s =>
    cases hstack
    simp [step?, h]
  | _ => contradiction

/-- A declaration does not go on where the type under way in it is stuck. -/
theorem step?_eq_none_of_stuck {limit : Option Nat} {place : Place} {t : Token} {stack : TypeStack}
    (hstack : stack ∈ place.stack?) (h : stack.step limit t = .stuck) :
    place.step? limit t = none := by
  cases place with
  | parent form n s =>
    cases hstack
    simp [step?, h]
  | memberType head before n s =>
    cases hstack
    simp [step?, h]
  | _ => contradiction

/-- A step that a limit lets through is the same under a looser one. -/
theorem step?_looser {limit limit' : Option Nat} (hlim : Looser limit limit') {place : Place}
    {t : Token} {step : Step} (h : place.step? limit t = some step) :
    place.step? limit' t = some step := by
  rw [← h]
  apply step?_eq_of_stack?
  intro stack hstack
  apply TypeStack.step_looser hlim
  intro hstuck
  rw [step?_eq_none_of_stuck hstack hstuck] at h
  contradiction

/-- A token that is refused for another reason than the limit is refused under a looser one, and the
same is asked for in its place. -/
theorem step?_refused {limit limit' : Option Nat} (hlim : Looser limit limit') {place : Place}
    {t : Token} (h : place.step? limit t = none) (hexp : place.expected limit ≠ .shallowerType) :
    place.step? limit' t = none ∧ place.expected limit' = place.expected limit := by
  have hnext : ∀ stack ∈ place.stack?, ∀ next, stack.step limit t ≠ .next next := by
    intro stack hstack next hstep
    have hsome := step?_isSome_of_next hstack hstep
    rw [h] at hsome
    contradiction
  constructor
  · rw [← h]
    apply step?_eq_of_stack?
    intro stack hstack
    cases place with
    | parent form n s =>
      cases hstack
      exact (TypeStack.step_refused hlim (hnext _ rfl) hexp).1
    | memberType head before n s =>
      cases hstack
      exact (TypeStack.step_refused hlim (hnext _ rfl) hexp).1
    | _ => contradiction
  · cases place with
    | parent form n s => exact (TypeStack.step_refused hlim (hnext s rfl) hexp).2
    | memberType head before n s => exact (TypeStack.step_refused hlim (hnext s rfl) hexp).2
    | _ => rfl

end Place

end Grammar

end Idl
