/-!
# Positions in a source text

A place in a text is counted twice over: in characters, for messages, and in UTF-8 bytes, for the
spans that an editor underlines. Both counts are additive, so the position of a place in `s ++ t` is
the length of `s` plus its position in `t` (`Position.ofChars_append`).

No text is so long that a count of it does not fit in 64 bits. A token that was not read from a text can be
said to stand anywhere, though, and a place that is worked out from it may not fit (`Position.wrap`).
-/

namespace Idl

/-- A place in a text, as the length of what stands before it. -/
structure Position where
  /-- The number of characters before the place. -/
  chars : Nat
  /-- The number of UTF-8 bytes before the place. -/
  bytes : Nat
deriving DecidableEq, Inhabited

namespace Position

/-- The front of a text. -/
def start : Position := ⟨0, 0⟩

instance : Add Position := ⟨fun p q => ⟨p.chars + q.chars, p.bytes + q.bytes⟩⟩

/-- The place one character further on. -/
def next (p : Position) (c : Char) : Position := ⟨p.chars + 1, p.bytes + c.utf8Size⟩

/-- The place at the end of a text, given as its characters. -/
def ofChars (cs : List Char) : Position := ⟨cs.length, cs.foldr (fun c n => c.utf8Size + n) 0⟩

/-- The place at the end of a text. -/
def ofString (s : String) : Position := ofChars s.toList

/-- The place in counts of 64 bits: one that is too large begins again at zero. Arithmetic that is checked for
overflow does not come to such a place, but stops. -/
def wrap (p : Position) : Position := ⟨p.chars % UInt64.size, p.bytes % UInt64.size⟩

@[simp] theorem chars_add (p q : Position) : (p + q).chars = p.chars + q.chars := rfl

@[simp] theorem bytes_add (p q : Position) : (p + q).bytes = p.bytes + q.bytes := rfl

@[simp] theorem chars_wrap (p : Position) : p.wrap.chars = p.chars % UInt64.size := rfl

@[simp] theorem bytes_wrap (p : Position) : p.wrap.bytes = p.bytes % UInt64.size := rfl

/-- Two positions with the same counts are the same. -/
@[ext] theorem ext {p q : Position} (hc : p.chars = q.chars) (hb : p.bytes = q.bytes) : p = q := by
  cases p; cases q; simp_all

@[simp] theorem add_start (p : Position) : p + start = p := rfl

@[simp] theorem start_add (p : Position) : start + p = p := by
  ext <;> simp [start]

/-- Lengths of texts laid end to end add up in any grouping. -/
theorem add_assoc (p q r : Position) : p + q + r = p + (q + r) := by
  ext <;> simp [Nat.add_assoc]

@[simp] theorem ofChars_nil : ofChars [] = start := rfl

/-- A character lengthens a text by itself. -/
theorem ofChars_cons (c : Char) (cs : List Char) : ofChars (c :: cs) = start.next c + ofChars cs := by
  ext <;> simp [ofChars, next, start, Nat.add_comm]

/-- The length of a text is the sum of its parts'. -/
theorem ofChars_append (s t : List Char) : ofChars (s ++ t) = ofChars s + ofChars t := by
  induction s with
  | nil => rw [ofChars_nil, start_add, List.nil_append]
  | cons c s ih => rw [List.cons_append, ofChars_cons, ih, ofChars_cons, add_assoc]

/-- The bytes of a text are those of its UTF-8 form. -/
theorem bytes_ofChars (cs : List Char) : (ofChars cs).bytes = (String.ofList cs).utf8ByteSize := by
  induction cs with
  | nil => rfl
  | cons c cs ih =>
    rw [ofChars_cons, bytes_add, ih, String.ofList_cons, String.utf8ByteSize_append,
      String.utf8ByteSize_singleton]
    exact congrArg (· + (String.ofList cs).utf8ByteSize) (Nat.zero_add c.utf8Size)

/-- The end of a text is behind all of its characters. -/
@[simp] theorem chars_ofString (s : String) : (ofString s).chars = s.length := String.length_toList

/-- The end of a text is behind all of its bytes. -/
@[simp] theorem bytes_ofString (s : String) : (ofString s).bytes = s.utf8ByteSize := by
  rw [ofString, bytes_ofChars, String.ofList_toList]

/-- Going on by one character adds that character's length. -/
theorem next_eq_add (p : Position) (c : Char) : p.next c = p + ofChars [c] := by
  ext <;> simp [ofChars, next]

end Position

/-- A stretch of a text, in UTF-8 bytes. -/
structure Span where
  /-- The number of bytes before the stretch. -/
  start : Nat
  /-- The number of bytes in it. -/
  length : Nat
deriving DecidableEq, Inhabited

end Idl
