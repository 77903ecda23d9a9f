import Idl.Blank
import Idl.Json.Value

/-!
# The tokens of JSON

A JSON text is tokens with blanks between them. Strings and numbers are read strictly: no raw
control character, no unknown escape, no superfluous zero, no fraction or exponent without digits.

A string is read in two steps. `stringParts?` takes it apart into characters and the 16-bit units of
its numeric escapes; `textOfParts?` puts the units together, pair by pair where they are halves of
surrogate pairs. A string that is left with half a pair is still a token, but has no text.
-/

namespace Idl.Json

/-- A token of a JSON text. -/
inductive Token
  | openArray
  | closeArray
  | openObject
  | closeObject
  | comma
  | colon
  | null
  | bool (b : Bool)
  | number (n : Number)
  /-- A string, with its text if it has one. -/
  | string (text : Option String)
deriving DecidableEq

/-! ## Strings -/

/-- A part of a string literal. -/
inductive StringPart
  /-- A character, as such or behind a backslash. -/
  | char (c : Char)
  /-- A unit of 16 bits, written as four hexadecimal digits. -/
  | unit (u : Nat)
deriving DecidableEq

/-- The value of a hexadecimal digit. -/
def hexValue? (c : Char) : Option Nat :=
  if c.isDigit then some (c.toNat - '0'.toNat)
  else if 'a' ≤ c && c ≤ 'f' then some (c.toNat - 'a'.toNat + 10)
  else if 'A' ≤ c && c ≤ 'F' then some (c.toNat - 'A'.toNat + 10)
  else none

/-- The unit that four hexadecimal digits write. -/
def unit? (a b c d : Char) : Option Nat := do
  let a ← hexValue? a
  let b ← hexValue? b
  let c ← hexValue? c
  let d ← hexValue? d
  return ((a * 16 + b) * 16 + c) * 16 + d

/-- The character that a letter behind a backslash stands for. -/
def unescape? : Char → Option Char
  | '"' => some '"'
  | '\\' => some '\\'
  | '/' => some '/'
  | 'b' => some '\x08'
  | 'f' => some '\x0c'
  | 'n' => some '\n'
  | 'r' => some '\r'
  | 't' => some '\t'
  | _ => none

/-- The parts of a string up to its closing quote, after those already `done` (last one first), and
the text behind the quote. -/
def stringParts? (done : List StringPart) : List Char → Option (List StringPart × List Char)
  | [] => none
  | '"' :: rest => some (done.reverse, rest)
  | '\\' :: 'u' :: a :: b :: c :: d :: rest =>
    match unit? a b c d with
    | some u => stringParts? (.unit u :: done) rest
    | none => none
  | '\\' :: c :: rest =>
    match unescape? c with
    | some c => stringParts? (.char c :: done) rest
    | none => none
  | c :: rest => if c.toNat < 0x20 || c = '\\' then none else stringParts? (.char c :: done) rest

/-- Whether a unit is the first half of a surrogate pair. -/
def isHighHalf (u : Nat) : Bool := 0xd800 ≤ u && u < 0xdc00

/-- Whether a unit is the second half of a surrogate pair. -/
def isLowHalf (u : Nat) : Bool := 0xdc00 ≤ u && u < 0xe000

/-- The character that a surrogate pair stands for. -/
def joinHalves (high low : Nat) : Char :=
  .ofNat (0x10000 + (high - 0xd800) * 0x400 + (low - 0xdc00))

/-- The text that the parts of a string make up, unless half a surrogate pair is among them. -/
def textOfParts? : List StringPart → Option (List Char)
  | [] => some []
  | .char c :: parts => (textOfParts? parts).map (c :: ·)
  | .unit u :: parts =>
    if isHighHalf u then
      match parts with
      | .unit v :: parts =>
        if isLowHalf v then (textOfParts? parts).map (joinHalves u v :: ·) else none
      | _ => none
    else if isLowHalf u then none
    else (textOfParts? parts).map (.ofNat u :: ·)

/-! ## Numbers -/

/-- The number that decimal digits write. -/
def ofDigits (ds : List Char) : Nat := ds.foldl (fun n d => n * 10 + (d.toNat - '0'.toNat)) 0

/-- One decimal digit or more in front of a text, and the text behind them. -/
def digits? (cs : List Char) : Option (List Char × List Char) :=
  match cs.takeWhile Char.isDigit with
  | [] => none
  | ds => some (ds, cs.dropWhile Char.isDigit)

/-- The digits of a fraction in front of a text, none if there is no point, and the text behind. -/
def fraction? : List Char → Option (List Char × List Char)
  | '.' :: rest => digits? rest
  | rest => some ([], rest)

/-- The exponent in front of a text, if there is one, and the text behind. -/
def exponent? : List Char → Option (Option Int × List Char)
  | c :: rest =>
    if c = 'e' || c = 'E' then
      match rest with
      | '-' :: rest => (digits? rest).map fun (ds, rest) => (some (-ofDigits ds), rest)
      | '+' :: rest => (digits? rest).map fun (ds, rest) => (some (ofDigits ds), rest)
      | rest => (digits? rest).map fun (ds, rest) => (some (ofDigits ds), rest)
    else some (none, c :: rest)
  | [] => some (none, [])

/-- A number without a sign in front of a text, and the text behind. -/
def unsigned? (negative : Bool) (cs : List Char) : Option (Number × List Char) := do
  let (whole, rest) ← digits? cs
  -- A zero in front of further digits is superfluous.
  if whole.head? = some '0' && whole.length > 1 then none
  else
    let (fraction, rest) ← fraction? rest
    let (exponent, rest) ← exponent? rest
    return (
      { negative
        digits := ofDigits (whole ++ fraction)
        exponent := exponent.getD 0 - fraction.length
        plain := fraction.isEmpty && exponent.isNone },
      rest)

/-- A number in front of a text, and the text behind. -/
def number? : List Char → Option (Number × List Char)
  | '-' :: rest => unsigned? true rest
  | rest => unsigned? false rest

/-! ## Texts -/

/-- The token in front of a text, and the text behind. -/
def token? : List Char → Option (Token × List Char)
  | '[' :: rest => some (.openArray, rest)
  | ']' :: rest => some (.closeArray, rest)
  | '{' :: rest => some (.openObject, rest)
  | '}' :: rest => some (.closeObject, rest)
  | ',' :: rest => some (.comma, rest)
  | ':' :: rest => some (.colon, rest)
  | 'n' :: 'u' :: 'l' :: 'l' :: rest => some (.null, rest)
  | 't' :: 'r' :: 'u' :: 'e' :: rest => some (.bool true, rest)
  | 'f' :: 'a' :: 'l' :: 's' :: 'e' :: rest => some (.bool false, rest)
  | '"' :: rest =>
    (stringParts? [] rest).map fun (parts, rest) =>
      (.string ((textOfParts? parts).map .ofList), rest)
  | rest => (number? rest).map fun (n, rest) => (.number n, rest)

/-- What is left behind a string is no longer than what was read. -/
theorem stringParts?_length {done parts : List StringPart} {cs rest : List Char}
    (h : stringParts? done cs = some (parts, rest)) : rest.length ≤ cs.length := by
  fun_induction stringParts? done cs with
  | case1 => simp at h
  | case2 => simp at h; simp [h]
  | case3 _ _ _ _ _ _ _ _ ih => have := ih h; simp only [List.length_cons]; omega
  | case4 => simp at h
  | case5 _ _ _ _ _ _ ih => have := ih h; simp only [List.length_cons]; omega
  | case6 => simp at h
  | case7 => simp at h
  | case8 _ _ _ _ _ _ _ ih => have := ih h; simp only [List.length_cons]; omega

/-- What is left behind digits is shorter than what was read. -/
theorem digits?_length {cs ds rest : List Char} (h : digits? cs = some (ds, rest)) :
    rest.length < cs.length := by
  have key := congrArg List.length (List.takeWhile_append_dropWhile (p := Char.isDigit) (l := cs))
  unfold digits? at h
  split at h
  · simp at h
  · rename_i hne
    simp at h
    obtain ⟨rfl, rfl⟩ := h
    have := List.length_pos_iff.mpr hne
    rw [List.length_append] at key
    omega

/-- What is left behind a fraction is no longer than what was read. -/
theorem fraction?_length {cs ds rest : List Char} (h : fraction? cs = some (ds, rest)) :
    rest.length ≤ cs.length := by
  unfold fraction? at h
  split at h
  · have := digits?_length h; simp only [List.length_cons]; omega
  · simp at h; simp [h]

/-- What is left behind an exponent is no longer than what was read. -/
theorem exponent?_length {cs rest : List Char} {e : Option Int}
    (h : exponent? cs = some (e, rest)) : rest.length ≤ cs.length := by
  unfold exponent? at h
  split at h
  · split at h
    · split at h <;>
      · obtain ⟨⟨ds, rest'⟩, hd, heq⟩ := Option.map_eq_some_iff.mp h
        have := digits?_length hd
        simp only [Prod.mk.injEq] at heq
        simp only [← heq.2, List.length_cons]
        omega
    · simp at h; simp [← h.2]
  · simp at h; simp [h]

/-- What is left behind a number is shorter than what was read. -/
theorem number?_length {cs rest : List Char} {n : Number} (h : number? cs = some (n, rest)) :
    rest.length < cs.length := by
  have key : ∀ {negative cs}, unsigned? negative cs = some (n, rest) →
      rest.length < cs.length := by
    intro negative cs h
    obtain ⟨⟨whole, r₁⟩, h₁, h⟩ := Option.bind_eq_some_iff.mp h
    simp only at h
    split at h
    · simp at h
    · obtain ⟨⟨fraction, r₂⟩, h₂, h⟩ := Option.bind_eq_some_iff.mp h
      obtain ⟨⟨exponent, r₃⟩, h₃, h⟩ := Option.bind_eq_some_iff.mp h
      have := digits?_length h₁
      have : r₂.length ≤ r₁.length := fraction?_length h₂
      have : r₃.length ≤ r₂.length := exponent?_length h₃
      simp only [pure, Option.some.injEq, Prod.mk.injEq] at h
      simp only [← h.2]
      omega
  unfold number? at h
  split at h
  · have := key h; simp only [List.length_cons]; omega
  · exact key h

/-- What is left behind a token is shorter than what was read. -/
theorem token?_length {cs rest : List Char} {t : Token} (h : token? cs = some (t, rest)) :
    rest.length < cs.length := by
  unfold token? at h
  split at h
  case h_10 =>
    obtain ⟨⟨parts, rest'⟩, hs, heq⟩ := Option.map_eq_some_iff.mp h
    have := stringParts?_length hs
    simp only [Prod.mk.injEq] at heq
    simp only [← heq.2, List.length_cons]
    omega
  case h_11 =>
    obtain ⟨⟨n, rest'⟩, hn, heq⟩ := Option.map_eq_some_iff.mp h
    simp only [Prod.mk.injEq] at heq
    simp only [← heq.2, number?_length hn]
  all_goals
    simp only [Option.some.injEq, Prod.mk.injEq] at h
    simp only [← h.2, List.length_cons]
    omega

/-- The tokens of a text, after those already `done` (last one first). -/
def tokens? (done : List Token) (cs : List Char) : Option (List Token) :=
  match cs with
  | [] => some done.reverse
  | c :: rest =>
    if isBlank c then tokens? done rest
    else
      match _h : token? (c :: rest) with
      | none => none
      | some (t, rest) => tokens? (t :: done) rest
termination_by cs.length
decreasing_by
  · simp
  · exact token?_length _h

end Idl.Json
