/-!
# Sinks with limited room

A sink takes in text piece by piece and may have room for a limited number of characters only. Of a
piece that does not fit it keeps what does, and the writing fails there; it takes nothing more
afterwards, but a blank piece can always be written. So a sink holds the front part, as long as its
room, of all that was ever written to it.
-/

namespace Idl

/-- Something that takes in text. -/
structure Sink where
  /-- What has been taken in. -/
  text : String := ""
  /-- How many more characters there is room for, if the room is limited. -/
  room : Option Nat := none
deriving DecidableEq

namespace Sink

/-- Writes a piece, and says whether it fitted. -/
def write (s : Sink) (piece : String) : Bool × Sink :=
  match s.room with
  | none => (true, { s with text := s.text ++ piece })
  | some room =>
    if piece.length ≤ room then (true, ⟨s.text ++ piece, some (room - piece.length)⟩)
    else (false, ⟨s.text ++ .ofList (piece.toList.take room), some 0⟩)

/-- Writes pieces up to the first that does not fit, and says whether all of them did. -/
def writeAll (s : Sink) : List String → Bool × Sink
  | [] => (true, s)
  | piece :: pieces =>
    match s.write piece with
    | (true, s) => s.writeAll pieces
    | (false, s) => (false, s)

end Sink

end Idl
