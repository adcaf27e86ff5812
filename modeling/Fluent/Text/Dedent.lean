import Fluent.Text.Space

/-!
# Indentation

`dedent` leaves out the blank lines of a text and takes from the others the indentation that they
share. Indentation is counted in characters.
-/

namespace Fluent.Text

/-- Whether a line holds nothing but white space. -/
def isBlankLine (line : List Char) : Bool := line.all isWhiteSpace

/-- The number of white-space characters at the start of a line. -/
def indentation (line : List Char) : Nat := (line.takeWhile isWhiteSpace).length

/-- The indentation that all lines share. -/
def sharedIndentation (lines : List (List Char)) : Nat := (lines.map indentation).min?.getD 0

/-- The lines that are not blank, without the indentation they share. -/
def dedentLines (lines : List (List Char)) : List (List Char) :=
  let kept := lines.filter fun line => !isBlankLine line
  kept.map (List.drop (sharedIndentation kept))

/-- The lines of a text; a line feed stands between two of them. -/
def lines (text : List Char) : List (List Char) := pieces (· == '\n') text

/-- The text of lines, with a line feed between two of them. -/
def ofLines (lines : List (List Char)) : List Char := List.intercalate ['\n'] lines

/-- The text without blank lines and shared indentation. -/
def dedent (text : String) : String := String.ofList (ofLines (dedentLines (lines text.toList)))

end Fluent.Text
