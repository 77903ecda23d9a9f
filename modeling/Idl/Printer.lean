import Idl.Program

/-!
# Canonical text

Every type, declaration and program has one canonical text, which depends on nothing but its value:

```text
enum Color : int {
    Red,
    Green
}
interface Shape : Drawable {
    area: (scale: float) -> List(float);
}
```

A text is put together from pieces, in order. Each `pieces` function takes the pieces that come
after its own, so that a text of any nesting is laid out in one pass.
-/

namespace Idl

namespace TypeExpr

mutual

/-- The pieces of a type's text, in front of those that follow it. -/
def pieces : TypeExpr → List String → List String
  | named n, after => n :: after
  | generic n as, after => n :: "(" :: listPieces as (")" :: after)
  | function ps none, after => "(" :: paramsPieces ps (")" :: after)
  | function ps (some r), after => "(" :: paramsPieces ps (")" :: " -> " :: r.pieces after)

/-- The pieces of a list of types with commas between them, in front of those that follow. -/
def listPieces : List TypeExpr → List String → List String
  | [], after => after
  | [a], after => a.pieces after
  | a :: b :: as, after => a.pieces (", " :: listPieces (b :: as) after)

/-- The pieces of a list of parameters with commas between them, in front of those that follow. -/
def paramsPieces : List Param → List String → List String
  | [], after => after
  | [⟨n, a⟩], after => n :: ": " :: a.pieces after
  | ⟨n, a⟩ :: p :: ps, after => n :: ": " :: a.pieces (", " :: paramsPieces (p :: ps) after)

end

/-- The canonical text of a type. -/
def text (a : TypeExpr) : String := .join (a.pieces [])

end TypeExpr

namespace Declaration

/-- What each line inside a declaration begins with. -/
def indent : String := "    "

/-- The pieces of the lines of an enumeration, in front of those that follow: a comma ends every
line but the last. -/
def enumeratorPieces : List String → List String → List String
  | [], after => after
  | [n], after => indent :: n :: "\n" :: after
  | n :: m :: ns, after => indent :: n :: "," :: "\n" :: enumeratorPieces (m :: ns) after

/-- The pieces of the lines of a record, in front of those that follow: a semicolon ends every
line. -/
def memberPieces : List Member → List String → List String
  | [], after => after
  | ⟨n, a⟩ :: ms, after => indent :: n :: ": " :: a.pieces (";\n" :: memberPieces ms after)

/-- The pieces of a parent clause, in front of those that follow. -/
def parentPieces : Option TypeExpr → List String → List String
  | none, after => after
  | some p, after => " : " :: p.pieces after

/-- The pieces of a declaration's text, in front of those that follow it. -/
def pieces : Declaration → List String → List String
  | enum n u ns, after =>
    "enum " :: n :: " : " :: u.pieces (" \x7b\n" :: enumeratorPieces ns ("\x7d" :: after))
  | record form n parent members, after =>
    form.keyword :: " " :: n ::
      parentPieces parent (" \x7b\n" :: memberPieces members ("\x7d" :: after))

/-- The canonical text of a declaration. -/
def text (d : Declaration) : String := .join (d.pieces [])

end Declaration

namespace Program

/-- The pieces of a list of declarations, with a line break between any two. -/
def listPieces : List Declaration → List String
  | [] => []
  | [d] => d.pieces []
  | d :: e :: ds => d.pieces ("\n" :: listPieces (e :: ds))

/-- The pieces of a program's text. -/
def pieces (p : Program) : List String := listPieces p.toList

/-- The canonical text of a program: that of its declarations, with a line break between any
two. -/
def text (p : Program) : String := .join p.pieces

end Program

end Idl
