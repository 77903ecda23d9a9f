import Idl.Printer
import Idl.Sink

/-!
# Printing into a sink

A printer writes a type, a declaration or a program into a sink as it walks over it. The first piece that
does not fit ends the walk: nothing of the node is written afterwards.
-/

namespace Idl

/-- What writes into a sink, up to the first piece that does not fit. -/
abbrev Printing := ExceptT Unit (StateM Sink)

/-- Writes a piece, and gives up if it does not fit. -/
def writePiece (piece : String) : Printing Unit := fun s =>
  match s.write piece with
  | (true, s) => (.ok (), s)
  | (false, s) => (.error (), s)

namespace TypeExpr

mutual

/-- Prints a type. -/
def print : TypeExpr → Printing Unit
  | named n => writePiece n
  | generic n as => do
    writePiece n
    writePiece "("
    printList as
    writePiece ")"
  | function ps none => do
    writePiece "("
    printParams ps
    writePiece ")"
  | function ps (some r) => do
    writePiece "("
    printParams ps
    writePiece ")"
    writePiece " -> "
    r.print

/-- Prints a list of types with commas between them. -/
def printList : List TypeExpr → Printing Unit
  | [] => pure ()
  | [a] => a.print
  | a :: b :: as => do
    a.print
    writePiece ", "
    printList (b :: as)

/-- Prints a list of parameters with commas between them. -/
def printParams : List Param → Printing Unit
  | [] => pure ()
  | [⟨n, a⟩] => do
    writePiece n
    writePiece ": "
    a.print
  | ⟨n, a⟩ :: p :: ps => do
    writePiece n
    writePiece ": "
    a.print
    writePiece ", "
    printParams (p :: ps)

end

end TypeExpr

namespace Declaration

/-- Prints the lines of an enumeration. -/
def printEnumerators : List String → Printing Unit
  | [] => pure ()
  | [n] => do
    writePiece indent
    writePiece n
    writePiece "\n"
  | n :: m :: ns => do
    writePiece indent
    writePiece n
    writePiece ","
    writePiece "\n"
    printEnumerators (m :: ns)

/-- Prints the lines of a record. -/
def printMembers : List Member → Printing Unit
  | [] => pure ()
  | ⟨n, a⟩ :: ms => do
    writePiece indent
    writePiece n
    writePiece ": "
    a.print
    writePiece ";\n"
    printMembers ms

/-- Prints a parent clause. -/
def printParent : Option TypeExpr → Printing Unit
  | none => pure ()
  | some a => do
    writePiece " : "
    a.print

/-- Prints a declaration. -/
def print : Declaration → Printing Unit
  | enum n u ns => do
    writePiece "enum "
    writePiece n
    writePiece " : "
    u.print
    writePiece " \x7b\n"
    printEnumerators ns
    writePiece "\x7d"
  | record form n parent members => do
    writePiece form.keyword
    writePiece " "
    writePiece n
    printParent parent
    writePiece " \x7b\n"
    printMembers members
    writePiece "\x7d"

end Declaration

namespace Program

/-- Prints a list of declarations with a line break between any two. -/
def printList : List Declaration → Printing Unit
  | [] => pure ()
  | [d] => d.print
  | d :: e :: ds => do
    d.print
    writePiece "\n"
    printList (e :: ds)

/-- Prints a program. -/
def print (p : Program) : Printing Unit := printList p.toList

end Program

/-- What a printer prints. -/
inductive Printable
  /-- A type. -/
  | type (a : TypeExpr)
  /-- A declaration. -/
  | declaration (d : Declaration)
  /-- A program. -/
  | program (p : Program)

namespace Printable

/-- Prints a node. -/
def print : Printable → Printing Unit
  | type a => a.print
  | declaration d => d.print
  | program p => p.print

/-- The pieces of a node's text. -/
def pieces : Printable → List String
  | type a => a.pieces []
  | declaration d => d.pieces []
  | program p => p.pieces

/-- The canonical text of a node. -/
def text : Printable → String
  | type a => a.text
  | declaration d => d.text
  | program p => p.text

end Printable

namespace Sink

/-- Prints a node into a sink, and says whether all of it was written. -/
def print (s : Sink) (x : Printable) : Bool × Sink :=
  match x.print.run.run s with
  | (.ok (), s) => (true, s)
  | (.error (), s) => (false, s)

/-- Prints nodes into a sink one after the other, whether they fit or not: the answer of each step, and the
sink it leaves. -/
def printEach (s : Sink) : List Printable → List (Bool × Sink)
  | [] => []
  | x :: xs => s.print x :: (s.print x).2.printEach xs

end Sink

end Idl
