/-!
# Blanks

The four characters that may stand between the tokens of a source text or of a JSON document.
-/

namespace Idl

/-- Whether a character is blank: a space, a tab, a carriage return or a line feed. -/
def isBlank (c : Char) : Bool := c = ' ' || c = '\t' || c = '\r' || c = '\n'

end Idl
