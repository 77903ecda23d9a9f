import Idl.Proofs.Grammar.Descent

/-!
# The cursor and the depth

Whatever tokens there are and wherever a parser stands among them, reading a type or a declaration leaves the
depth as it was, goes forward only, and not beyond the first token that ends the input. A success is a token
further on at least; a fault is that of the token where the parser has stopped. And at no point are more than
256 types open, so that at most 256 calls that read the expression of a type are under way at once
(`reading_disciplined`).

The counters belong to reading by recursive descent, which reads what the parser reads.
-/

namespace Idl

open Grammar

namespace Descent

/-! ## Progress -/

section Moves

variable {s : Descent} {α : Type}

/-- Whether something has been read if there was no fault. -/
def Outcome.Moves (o : Outcome s α) : Prop := ∀ a, o.answer = .ok a → o.read ≠ []

/-- After a fault, nothing is asked for. -/
theorem Outcome.moves_fail (s : Descent) (expected : Expectation) :
    (Outcome.fail s expected : Outcome s α).Moves := nofun

/-- A token that is read is something. -/
theorem moves_ifToken {kind : TokenKind} {hkind : kind ≠ .endOfInput}
    {f : (t : Token) → (s' : Descent) → s'.depth = s.depth → s'.rest.length < s.rest.length → Outcome s' α}
    {otherwise : Outcome s α} (h : otherwise.Moves) : (s.ifToken kind hkind f otherwise).Moves := by
  rw [ifToken]
  split
  · exact h
  · split
    · exact fun _ _ => List.cons_ne_nil _ _
    · exact h

/-- So is a token that is asked for. -/
theorem moves_expect {kind : TokenKind} {hkind : kind ≠ .endOfInput} {expected : Expectation}
    {f : (t : Token) → (s' : Descent) → s'.depth = s.depth → s'.rest.length < s.rest.length → Outcome s' α} :
    (s.expect kind hkind expected f).Moves :=
  moves_ifToken (Outcome.moves_fail s expected)

end Moves

/-- A type is a token at least. -/
theorem moves_type (s : Descent) : s.type.Moves := by
  rw [type]
  split
  · have hexpr : (typeExpr (fun s' _ => type s') s.enter rfl).Moves := moves_ifToken moves_expect
    exact hexpr
  · exact Outcome.moves_fail s _

/-- A declaration is a token at least. -/
theorem moves_declaration (s : Descent) : s.declaration.Moves := by
  rw [declaration]
  split
  · exact moves_expect
  · split
    · exact moves_expect
    · exact Outcome.moves_fail s _

end Descent

/-! ## Discipline -/

/-- The parser that stands behind the first `k` of the tokens, so many types being open around it. -/
def Parser.standing (ts : List Token) (k depth : Nat) : Parser := ⟨ts.drop k, .endAfter ts, depth⟩

/-- What a function does that reads a part of a program from the tokens, and how it comes by it. -/
structure Disciplined {α : Type} (ts : List Token) (k depth : Nat) (result : Except ParseError α × Parser)
    (o : Descent.Outcome (.start (.standing ts k depth)) α) : Prop where
  /-- The result is what recursive descent returns. -/
  agrees : result = (o.answer, o.final.toParser)
  /-- The parser stands somewhere behind the same tokens, at the same depth: not before where it stood, and
  not behind the first token there that ends the input, or the last token if there is none. It stands further
  on after a success, and at the token at fault otherwise. -/
  cursor : ∃ q, result.2 = .standing ts q depth ∧ k ≤ q ∧
    q ≤ k + (ts.drop k).findIdx (·.kind = .endOfInput) ∧ (∀ a, result.1 = .ok a → k < q) ∧
    ∀ e, result.1 = .error e → e.token = ts[q]?.getD (.endAfter ts)
  /-- The depth has never been greater than it may be. -/
  deepest_le : o.final.deepest ≤ 256
  /-- All calls that read the expression of a type have returned. -/
  active_eq : o.final.active = 0
  /-- There have been no more of them at once than there was room for. -/
  mostActive_le : o.final.mostActive ≤ 256 - depth

/-- Functions that are put together from others are disciplined, if they read something when they succeed. -/
theorem Descent.disciplined_of_moves {α : Type} {ts : List Token} {k depth : Nat}
    (hdepth : depth ≤ maxTypeDepth) {result : Except ParseError α × Parser}
    {o : Descent.Outcome (.start (.standing ts k depth)) α} (hresult : (o.answer, o.final.toParser) = result)
    (hmoves : o.Moves) : Disciplined ts k depth result o := by
  subst hresult
  have hsplit : ts.drop k = o.read ++ o.final.rest := o.advances.rest_eq
  have hrest : o.final.rest = ts.drop (k + o.read.length) := by
    rw [← List.drop_drop, hsplit, List.drop_left]
  refine {
    agrees := rfl
    cursor := ⟨k + o.read.length, ?_, Nat.le_add_right _ _, ?_, fun a ha => ?_, fun e he => ?_⟩
    deepest_le := ?_
    active_eq := o.advances.active_eq
    mostActive_le := ?_ }
  · rw [o.advances.toParser_eq, hrest]
    rfl
  · -- No token that was read ends the input.
    have hnone : ¬ ∃ t ∈ o.read, decide (t.kind = .endOfInput) = true := by
      rintro ⟨t, ht, hkind⟩
      exact o.advances.no_end t ht (of_decide_eq_true hkind)
    rw [hsplit, List.findIdx_append, if_neg (mt List.findIdx_lt_length.mp hnone)]
    omega
  · have hpos := List.length_pos_iff.mpr (hmoves a ha)
    omega
  · have hstop : o.final.stop = .endAfter ts := o.advances.stop_eq
    rw [o.error_at e he, Descent.current, hrest, List.head?_drop, hstop]
  · have hle : o.final.deepest ≤ max depth 256 := o.advances.deepest_le
    exact Nat.le_trans hle (Nat.max_le.mpr ⟨hdepth, Nat.le_refl _⟩)
  · have hle : o.final.mostActive ≤ max 0 (0 + (256 - depth)) := o.advances.mostActive_le
    omega

/-- Types and declarations are read in a disciplined way, from any tokens and from any place among them. -/
theorem reading_disciplined (ts : List Token) (k depth : Nat) (hdepth : depth ≤ 256) :
    Disciplined ts k depth (Parser.standing ts k depth).typeExpr (Descent.start (.standing ts k depth)).type ∧
      Disciplined ts k depth (Parser.standing ts k depth).declaration
        (Descent.start (.standing ts k depth)).declaration :=
  ⟨Descent.disciplined_of_moves hdepth (Descent.type_eq _) (Descent.moves_type _),
    Descent.disciplined_of_moves hdepth (Descent.declaration_eq _) (Descent.moves_declaration _)⟩

/-- A type is refused inside one that was itself the last that could be opened. -/
theorem reading_disciplined_last_level :
    let ts : List Token := [⟨.identifier, "L", ⟨0, 0⟩⟩, ⟨.leftParen, "(", ⟨1, 1⟩⟩, ⟨.identifier, "x", ⟨2, 2⟩⟩]
    255 ≤ 256 ∧
      (Parser.standing ts 0 255).typeExpr =
        (.error ⟨⟨.identifier, "x", ⟨2, 2⟩⟩, .shallowerType⟩, .standing ts 2 255) ∧
      Disciplined ts 0 255 (Parser.standing ts 0 255).typeExpr (Descent.start (.standing ts 0 255)).type ∧
      Disciplined ts 0 255 (Parser.standing ts 0 255).declaration
        (Descent.start (.standing ts 0 255)).declaration :=
  ⟨by decide, rfl, reading_disciplined _ 0 255 (by decide)⟩

end Idl
