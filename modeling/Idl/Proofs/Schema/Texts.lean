import Mathlib.Data.List.Basic
import Idl.Proofs.Schema.RoundTrip

/-!
# Two texts of one document

The pretty text of a value is its compact text with blanks put in, all of them outside the string literals.
Where the literals are is found out by a reader who knows nothing but quotes and backslashes (`marked`). Names
may hold both, so it has to be seen that their escaped forms never end a literal (`shows_escape`).

What is known of a piece of text is what it `Shows`: which text is left without its blanks, and that every
character is in its place. This goes from the tokens, and from the blanks between them, to the whole of a
text (`shows_layout`). Both texts of a value have the same tokens, so `texts_one_document` is all about
blanks.
-/

namespace Idl

namespace Json

/-! ## Literals -/

/-- A place in a text, as far as string literals go. -/
inductive LiteralPlace
  /-- In no literal. -/
  | outside
  /-- Between the quotes of a literal. -/
  | inside
  /-- In a literal, behind a backslash. -/
  | escaped
deriving DecidableEq

/-- The place behind a character. -/
def LiteralPlace.next : LiteralPlace → Char → LiteralPlace
  | outside, c => if c = '"' then inside else outside
  | inside, c => if c = '"' then outside else if c = '\\' then escaped else inside
  | escaped, _ => inside

/-- The place behind some characters. -/
def LiteralPlace.after (place : LiteralPlace) (cs : List Char) : LiteralPlace := cs.foldl next place

/-- The characters of a text, each with the place in front of it. -/
def marked : LiteralPlace → List Char → List (LiteralPlace × Char)
  | _, [] => []
  | place, c :: cs => (place, c) :: marked (place.next c) cs

/-- The characters that are left when the blanks outside all literals are deleted. -/
def shown (place : LiteralPlace) (cs : List Char) : List Char :=
  ((marked place cs).filter fun x => x.1 ≠ .outside || !isBlank x.2).map Prod.snd

/-- A text without the blanks outside its string literals. -/
def withoutBlanks (text : String) : String := .ofList (shown .outside text.toList)

/-- A quote behind a backslash does not end a literal, and the blank behind it is not deleted. -/
example : withoutBlanks "[ \"a \\\" b\" ]" = "[\"a \\\" b\"]" := by decide +kernel

/-- Whether a character is in its place: in a literal it is no control character, and elsewhere it is a space,
a line break or a visible character of ASCII. -/
def InPlace (x : LiteralPlace × Char) : Prop :=
  (x.1 ≠ .outside → 0x20 ≤ x.2.toNat) ∧
    (x.1 = .outside → x.2 = ' ' ∨ x.2 = '\n' ∨ 0x20 < x.2.toNat ∧ x.2.toNat < 0x7f)

/-- Texts laid end to end are marked one after the other. -/
theorem marked_append (place : LiteralPlace) (cs ds : List Char) :
    marked place (cs ++ ds) = marked place cs ++ marked (place.after cs) ds := by
  induction cs generalizing place with
  | nil => rfl
  | cons c cs ih => exact congrArg ((place, c) :: ·) (ih (place.next c))

/-! ## Pieces of text -/

/-- Whether a piece of text that begins and ends at given places shows a given text without its blanks, and
all of its characters are in their places. -/
structure Shows (start stop : LiteralPlace) (cs ds : List Char) : Prop where
  /-- The piece ends at the place given. -/
  after : start.after cs = stop
  /-- Without its blanks it is the text given. -/
  shown : shown start cs = ds
  /-- Its characters are in their places. -/
  inPlace : ∀ x ∈ marked start cs, InPlace x

instance (start stop : LiteralPlace) (cs ds : List Char) : Decidable (Shows start stop cs ds) :=
  have : DecidablePred InPlace := fun _ => inferInstanceAs (Decidable (_ ∧ _))
  decidable_of_iff
    (start.after cs = stop ∧ shown start cs = ds ∧ ∀ x ∈ marked start cs, InPlace x)
    ⟨fun ⟨h₁, h₂, h₃⟩ => ⟨h₁, h₂, h₃⟩, fun ⟨h₁, h₂, h₃⟩ => ⟨h₁, h₂, h₃⟩⟩

namespace Shows

variable {p q r : LiteralPlace} {cs cs' ds ds' : List Char}

/-- Nothing shows nothing. -/
theorem nil (p : LiteralPlace) : Shows p p [] [] := ⟨rfl, rfl, by simp [marked]⟩

/-- A piece behind another one shows its text behind that of the other. -/
theorem append (h : Shows p q cs ds) (h' : Shows q r cs' ds') : Shows p r (cs ++ cs') (ds ++ ds') where
  after := by
    rw [← h'.after, ← h.after]
    exact List.foldl_append
  shown := by
    rw [← h.shown, ← h'.shown, Json.shown, marked_append, h.after, List.filter_append, List.map_append]
    rfl
  inPlace := by
    rw [marked_append, h.after]
    exact List.forall_mem_append.mpr ⟨h.inPlace, h'.inPlace⟩

/-- Pieces laid end to end show what each of them shows. -/
theorem flatMap {α : Type} {f g : α → List Char} {xs : List α} (h : ∀ x ∈ xs, Shows p p (f x) (g x)) :
    Shows p p (xs.flatMap f) (xs.flatMap g) := by
  induction xs with
  | nil => exact nil p
  | cons x xs ih =>
    obtain ⟨hx, hxs⟩ := List.forall_mem_cons.mp h
    rw [List.flatMap_cons, List.flatMap_cons]
    exact hx.append (ih hxs)

end Shows

/-- The numeric escape of a control character stays in its literal. -/
theorem shows_numericEscape : ∀ n < 0x20,
    let cs := ['\\', 'u', '0', '0', Nat.digitChar (n / 16), Nat.digitChar (n % 16)]
    Shows .inside .inside cs cs := by
  decide

/-- A character of a string stays in its literal as it is written, and nothing of it is deleted. -/
theorem shows_escape (c : Char) : Shows .inside .inside (escape c) (escape c) := by
  unfold escape
  split
  case h_8 hquote hbackslash _ _ _ _ _ =>
    split
    case isTrue hcontrol => exact shows_numericEscape _ hcontrol
    case isFalse hcontrol =>
      have hnext : LiteralPlace.inside.next c = .inside := by
        rw [LiteralPlace.next, if_neg hquote, if_neg hbackslash]
      refine ⟨hnext, rfl, ?_⟩
      exact List.forall_mem_singleton.mpr ⟨fun _ => Nat.le_of_not_lt hcontrol, nofun⟩
  -- The characters that are written as a backslash and a letter.
  all_goals decide

/-- A string is one literal. -/
theorem shows_quote (s : String) : Shows .outside .outside (quote s).toList (quote s).toList := by
  have hopen : Shows .outside .inside ['"'] ['"'] := by decide
  have hclose : Shows .inside .outside ['"'] ['"'] := by decide
  have hescapes := Shows.flatMap fun (c : Char) (_ : c ∈ s.toList) => shows_escape c
  rw [quote, String.toList_ofList]
  exact hopen.append (hescapes.append hclose)

/-- The text of a token has no blanks outside its literals. -/
theorem shows_token {t : Token} (h : t.Exact) : Shows .outside .outside t.text.toList t.text.toList := by
  cases t with
  | number n => contradiction
  | bool b => cases b <;> decide
  | string text =>
    cases text with
    | none => contradiction
    | some s => exact shows_quote s
  | _ => decide

/-- Spaces and line breaks outside all literals show nothing. -/
theorem shows_blanks {cs : List Char} (h : ∀ c ∈ cs, c = ' ' ∨ c = '\n') :
    Shows .outside .outside cs [] := by
  induction cs with
  | nil => exact .nil _
  | cons c cs ih =>
    obtain ⟨hc, hcs⟩ := List.forall_mem_cons.mp h
    have hblank : Shows .outside .outside [c] [] := by rcases hc with rfl | rfl <;> decide
    exact hblank.append (ih hcs)

/-- An element of a layout shows its token, if it is one. -/
theorem shows_element (x : Layout) (h : ∀ t ∈ x.token?, t.Exact) :
    Shows .outside .outside x.text.toList ((x.token?.toList).flatMap (·.text.toList)) := by
  cases x with
  | token t =>
    have htext : (Layout.token t).token?.toList.flatMap (·.text.toList) = t.text.toList := by
      simp [Layout.token?]
    rw [htext]
    exact shows_token (h t rfl)
  | space => decide
  | line level =>
    apply shows_blanks
    intro c hc
    rw [Layout.text, String.toList_ofList, List.mem_cons, List.mem_replicate] at hc
    exact hc.symm.imp_left And.right

/-- A layout shows the texts of its tokens. -/
theorem shows_layout {elements : List Layout} (h : ∀ t ∈ layoutTokens elements, t.Exact) :
    Shows .outside .outside (elements.flatMap fun x => x.text.toList)
      ((layoutTokens elements).flatMap (·.text.toList)) := by
  have htokens : (layoutTokens elements).flatMap (·.text.toList) =
      elements.flatMap fun x => x.token?.toList.flatMap (·.text.toList) := by
    rw [layoutTokens, List.filterMap_eq_flatMap_toList, List.flatMap_assoc]
  rw [htokens]
  refine Shows.flatMap fun x hx => shows_element x fun t ht => h t ?_
  exact List.mem_filterMap.mpr ⟨x, hx, ht⟩

namespace Value

/-- The compact form of a value is the texts of its tokens. -/
theorem toList_compact (v : Value) : v.compact.toList = (v.tokens []).flatMap (·.text.toList) := by
  rw [compact, String.toList_join, List.flatMap_map]

/-- The pretty form of an exact document shows the compact one. -/
theorem Exact.shows_pretty {v : Value} (h : v.Exact) :
    Shows .outside .outside v.pretty.toList v.compact.toList := by
  have htokens : layoutTokens (v.layout 0 []) = v.tokens [] := layoutTokens_layout v 0 []
  have hshows := shows_layout (htokens ▸ h.tokens [] (by simp))
  rw [pretty, String.toList_join, List.flatMap_map, toList_compact, ← htokens]
  exact hshows

/-- The compact form of an exact document has no blanks outside its literals. -/
theorem Exact.shows_compact {v : Value} (h : v.Exact) :
    Shows .outside .outside v.compact.toList v.compact.toList := by
  rw [toList_compact]
  exact Shows.flatMap fun t ht => shows_token (h.tokens [] (by simp) t ht)

end Value

end Json

open Json (marked InPlace withoutBlanks)

/-- Whether the two texts of every value are one document. -/
structure Schema.OneDocument {α : Type} (s : Schema α) : Prop where
  /-- The pretty text without the blanks outside its literals is the compact one. -/
  withoutBlanks_pretty : ∀ a, withoutBlanks (s.pretty a) = s.compact a
  /-- No character of either text is out of place; so there are no raw control characters in literals, and
  outside them there are no other blanks than spaces and line breaks. -/
  inPlace : ∀ a, ∀ text ∈ [s.compact a, s.pretty a], ∀ x ∈ marked .outside text.toList, InPlace x

namespace Schema

/-- The two texts of a value are one document if its form is exact. -/
theorem oneDocument_of_exact {α : Type} {s : Schema α} (h : ∀ a, (s.encode a).Exact) : s.OneDocument where
  withoutBlanks_pretty a := by
    have hshown := (h a).shows_pretty.shown
    rw [withoutBlanks, pretty, hshown, String.ofList_toList]
    rfl
  inPlace a := List.forall_mem_cons.mpr
    ⟨(h a).shows_compact.inPlace, List.forall_mem_singleton.mpr (h a).shows_pretty.inPlace⟩

/-- The pretty and the compact text of a type, a parameter, a member, a declaration or a program are one
document, whatever its names are and however deep it nests. -/
theorem texts_one_document :
    type.OneDocument ∧ param.OneDocument ∧ member.OneDocument ∧ declaration.OneDocument ∧
      program.OneDocument := by
  refine ⟨?_, ?_, ?_, ?_, ?_⟩
  · exact oneDocument_of_exact fun a => (kept_type a false).exact
  · exact oneDocument_of_exact fun p => (kept_binding rfl (by decide) (kept_type p.type false)).exact
  · exact oneDocument_of_exact fun m => (kept_binding rfl (by decide) (kept_type m.type false)).exact
  · exact oneDocument_of_exact fun d => (kept_declaration d).exact
  · exact oneDocument_of_exact fun p => (kept_program p).exact

end Schema

end Idl
