import Idl.Json.Writer

/-!
# Tokens read back

The text of a token is read as the token, whatever follows it, and so is a layout: its tokens in
order, with the blanks between them passed over (`tokens?_layout`).

Numbers are left out, and with them the strings that have no text. What is written here without them
is `Exact`.
-/

namespace Idl.Json

/-! ## Strings -/

/-- The part that the written form of a character is read as. -/
def partOf (c : Char) : StringPart :=
  if c.toNat < 0x20 ∧ c ∉ ['\x08', '\x0c', '\n', '\r', '\t'] then .unit c.toNat else .char c

/-- The digits of a numeric escape are those of the control character it stands for. -/
theorem unit?_digits : ∀ n < 0x20,
    unit? '0' '0' (Nat.digitChar (n / 16)) (Nat.digitChar (n % 16)) = some n := by decide

/-- A character is read from its written form. -/
theorem stringParts?_escape (done : List StringPart) (c : Char) (rest : List Char) :
    stringParts? done (escape c ++ rest) = stringParts? (partOf c :: done) rest := by
  unfold escape
  split
  case h_8 hquote hbackslash h₁ h₂ h₃ h₄ h₅ =>
    have hshort : c ∉ ['\x08', '\x0c', '\n', '\r', '\t'] := by
      simp only [List.mem_cons, List.not_mem_nil, or_false, not_or]
      exact ⟨h₁, h₂, h₃, h₄, h₅⟩
    split
    case isTrue hcontrol =>
      have hpart : partOf c = .unit c.toNat := if_pos ⟨hcontrol, hshort⟩
      rw [hpart]
      simp only [List.cons_append, List.nil_append]
      rw [stringParts?, unit?_digits _ hcontrol]
    case isFalse hcontrol =>
      have hpart : partOf c = .char c := if_neg fun h => hcontrol h.1
      have hraw : ¬(decide (c.toNat < 0x20) || decide (c = '\\')) = true := by
        simpa [hcontrol] using hbackslash
      rw [hpart]
      show stringParts? done (c :: rest) = _
      rw [stringParts?, if_neg hraw]
      · exact hquote
      · exact fun _ _ _ _ _ h _ => hbackslash h
      · exact fun _ _ h _ => hbackslash h
  -- The characters that are written as a backslash and a letter.
  all_goals rfl

/-- A text is read from its characters as they are written. -/
theorem stringParts?_escapes (cs : List Char) (done : List StringPart) (rest : List Char) :
    stringParts? done (cs.flatMap escape ++ rest) =
      stringParts? ((cs.map partOf).reverse ++ done) rest := by
  induction cs generalizing done with
  | nil => rfl
  | cons c cs ih =>
    rw [List.flatMap_cons, List.append_assoc, stringParts?_escape, ih, List.map_cons,
      List.reverse_cons, List.append_assoc]
    rfl

/-- A unit below the space is a character by itself. -/
theorem textOfParts?_control {u : Nat} (h : u < 0x20) (parts : List StringPart) :
    textOfParts? (.unit u :: parts) = (textOfParts? parts).map (.ofNat u :: ·) := by
  -- Halves of surrogate pairs are far above, so the unit is not joined with what follows.
  have hhigh : isHighHalf u = false := by simp [isHighHalf]; omega
  have hlow : isLowHalf u = false := by simp [isLowHalf]; omega
  match parts with
  | [] | .char _ :: _ | .unit _ :: _ => simp [textOfParts?, hhigh, hlow]

/-- The parts that a text is read as make it up. -/
theorem textOfParts?_map (cs : List Char) : textOfParts? (cs.map partOf) = some cs := by
  induction cs with
  | nil => rfl
  | cons c cs ih =>
    rw [List.map_cons, partOf]
    split
    case isTrue h => rw [textOfParts?_control h.1, ih, Char.ofNat_toNat]; rfl
    case isFalse => rw [textOfParts?, ih]; rfl

/-! ## Tokens -/

/-- Whether a token is no number and, if it is a string, has a text. -/
def Token.Exact : Token → Prop
  | number _ | string none => False
  | _ => True

/-- A token is read from its text. -/
theorem token?_text {t : Token} (h : t.Exact) (rest : List Char) :
    token? (t.text.toList ++ rest) = some (t, rest) := by
  cases t with
  | number n => contradiction
  | bool b => cases b <;> rfl
  | string text =>
    cases text with
    | none => contradiction
    | some s =>
      have hquote : (Token.string (some s)).text.toList ++ rest =
          '"' :: (s.toList.flatMap escape ++ '"' :: rest) := by
        simp [Token.text, quote, String.toList_ofList]
      have hparts : stringParts? [] (s.toList.flatMap escape ++ '"' :: rest) =
          some (s.toList.map partOf, rest) := by
        rw [stringParts?_escapes, stringParts?, List.append_nil, List.reverse_reverse]
      rw [hquote, token?, hparts, Option.map_some]
      show some (Token.string ((textOfParts? (s.toList.map partOf)).map .ofList), rest) = _
      rw [textOfParts?_map, Option.map_some, String.ofList_toList]
  | _ => rfl

/-- The text of a token does not start with a blank. -/
theorem Token.text_eq_cons {t : Token} (h : t.Exact) :
    ∃ c cs, t.text.toList = c :: cs ∧ isBlank c = false := by
  cases t with
  | number n => contradiction
  | bool b => cases b <;> exact ⟨_, _, rfl, rfl⟩
  | string text =>
    cases text with
    | none => contradiction
    | some s => exact ⟨'"', _, String.toList_ofList, rfl⟩
  | _ => exact ⟨_, _, rfl, rfl⟩

/-- The text of a token in front of a text is its first token. -/
theorem tokens?_text {t : Token} (h : t.Exact) (done : List Token) (rest : List Char) :
    tokens? done (t.text.toList ++ rest) = tokens? (t :: done) rest := by
  obtain ⟨c, cs, htext, hblank⟩ := Token.text_eq_cons h
  have htoken : token? (c :: (cs ++ rest)) = some (t, rest) := by
    rw [← List.cons_append, ← htext]
    exact token?_text h rest
  rw [htext, List.cons_append, tokens?, if_neg (by simp [hblank])]
  split
  case h_1 hnone => simp [htoken] at hnone
  case h_2 hsome =>
    rw [htoken] at hsome
    cases hsome
    rfl

/-- Blanks in front of a text are passed over. -/
theorem tokens?_blanks {bs : List Char} (h : ∀ b ∈ bs, isBlank b = true) (done : List Token)
    (rest : List Char) : tokens? done (bs ++ rest) = tokens? done rest := by
  induction bs with
  | nil => rfl
  | cons b bs ih =>
    rw [List.cons_append, tokens?, if_pos (h b List.mem_cons_self)]
    exact ih fun b' hb' => h b' (List.mem_cons_of_mem b hb')

/-! ## Layouts -/

/-- The token that an element of a pretty form is. -/
def Layout.token? : Layout → Option Token
  | token t => some t
  | line _ | space => none

/-- The tokens of a layout. -/
def layoutTokens (elements : List Layout) : List Token := elements.filterMap Layout.token?

/-- An element that is no token is written in blanks. -/
theorem Layout.text_blank {x : Layout} (h : x.token? = none) :
    ∀ b ∈ x.text.toList, isBlank b = true := by
  cases x with
  | token t => contradiction
  | space =>
    intro b hb
    obtain rfl : b = ' ' := List.mem_singleton.mp hb
    rfl
  | line level =>
    intro b hb
    rw [Layout.text, String.toList_ofList, List.mem_cons, List.mem_replicate] at hb
    obtain rfl | ⟨-, rfl⟩ := hb <;> rfl

/-- The tokens of a layout are read from its text. -/
theorem tokens?_layout (elements : List Layout) (h : ∀ t ∈ layoutTokens elements, t.Exact)
    (done : List Token) :
    tokens? done (elements.flatMap fun x => x.text.toList) =
      some (done.reverse ++ layoutTokens elements) := by
  induction elements generalizing done with
  | nil => simp [tokens?, layoutTokens]
  | cons x xs ih =>
    rw [List.flatMap_cons]
    cases hx : x.token? with
    | none =>
      have htokens : layoutTokens (x :: xs) = layoutTokens xs := List.filterMap_cons_none hx
      rw [tokens?_blanks (Layout.text_blank hx), ih (htokens ▸ h), htokens]
    | some t =>
      have htokens : layoutTokens (x :: xs) = t :: layoutTokens xs := List.filterMap_cons_some hx
      obtain rfl : x = .token t := by cases x <;> cases hx; rfl
      rw [htokens] at h ⊢
      show tokens? done (t.text.toList ++ _) = _
      rw [tokens?_text (h t List.mem_cons_self), ih fun t' ht' => h t' (List.mem_cons_of_mem t ht')]
      simp

/-- A layout of nothing but tokens has the tokens it is made of. -/
theorem layoutTokens_map (ts : List Token) : layoutTokens (ts.map .token) = ts := by
  induction ts with
  | nil => rfl
  | cons t ts ih => exact congrArg (t :: ·) ih

end Idl.Json
