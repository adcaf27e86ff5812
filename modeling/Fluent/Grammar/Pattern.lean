import Fluent.Grammar.Token

/-!
# Patterns as they are read

A pattern starts on the line of its name and goes on over the indented lines after it, blank lines
between them included. It ends in front of a line that is not indented by a space, or of an indented
line that starts with a closing brace, a bracket, a star or a point. `placeable` reads a placeable,
its opening brace included.
-/

namespace Fluent.Grammar

open Fluent.Grammar.Parser Fluent.Text.Reader

/-- The text after its leading blank lines. `lineStart` is where the line being looked at starts. -/
def dropBlankLinesFrom (lineStart : List Char) : List Char → List Char
  | ' ' :: rest => dropBlankLinesFrom lineStart rest
  | '\t' :: rest => dropBlankLinesFrom lineStart rest
  | '\n' :: rest => dropBlankLinesFrom rest rest
  | '\r' :: '\n' :: rest => dropBlankLinesFrom rest rest
  | _ => lineStart

/-- The text after its leading blank lines, which hold spaces and tabs only. -/
def dropBlankLines (text : List Char) : List Char := dropBlankLinesFrom text text

/-- Reads the blank lines in front. -/
def blankLines : Parser (List Char) := do
  let text ← get
  let rest := dropBlankLines text
  set rest
  return text.take (text.length - rest.length)

/-- A part of a pattern read so far: its closed parts and the text after them. -/
structure Draft where
  parts : List Element
  buffer : List Char

namespace Draft

/-- Nothing has been read yet. -/
def empty : Draft := ⟨[], []⟩

/-- Whether nothing has been read yet. -/
def isEmpty (draft : Draft) : Bool := draft.parts.isEmpty && draft.buffer.isEmpty

/-- The draft with more text at its end. -/
def push (draft : Draft) (text : List Char) : Draft :=
  { draft with buffer := draft.buffer ++ text }

/-- The draft with its text closed as a part of its own, unless it is empty. -/
def close (draft : Draft) : Draft :=
  if draft.buffer.isEmpty then draft
  else { parts := draft.parts ++ [.text (String.ofList draft.buffer)], buffer := [] }

/-- The draft with a placeable at its end. -/
def place (draft : Draft) (expression : Expression) : Draft :=
  { parts := draft.close.parts ++ [.placeable expression], buffer := [] }

/-- The number of placeables read so far. -/
def placeables (draft : Draft) : Nat := draft.parts.countP Element.isPlaceable

/-- The pattern that was read, without the blank text at its end; none if nothing was read. -/
def finish (draft : Draft) : Option Pattern :=
  let text := Text.dropEndWhile Text.isBlank draft.buffer
  if draft.isEmpty then none
  else if draft.parts.isEmpty then some (.text (String.ofList text))
  else if text.isEmpty then some (.elements draft.parts)
  else some (.elements (draft.parts ++ [.text (String.ofList text)]))

end Draft

/-- A character that stands for itself in a pattern, on its line. -/
def isPatternChar (c : Char) : Bool := c != '\n' && c != '\\' && c != '{'

/-- The text of a line without the carriage return that belongs to its end. -/
def withoutReturn (line : List Char) : List Char :=
  if line.getLast? = some '\r' then line.dropLast else line

/-- A character that ends a pattern when an indented line starts with it. -/
def endsPattern (c : Char) : Bool := c == '}' || c == '[' || c == '*' || c == '.'

/-- Goes on to the next line of a pattern, if there is one: blank lines stay in the text, the
indentation does not. -/
def nextLine (draft : Draft) : Parser (Round Draft) := do
  advance
  let blank ← blankLines
  if (← peek) = some ' ' then
    let lineStart ← get
    skipInlineBlank
    if (← peek).any endsPattern then
      set lineStart
      return .done draft
    else
      let draft := draft.push (blank.filter (· != '\r'))
      return .again (if draft.isEmpty then draft else draft.push ['\n'])
  else return .done draft

/-- Reads a pattern up to and over its next line end, escape or placeable. -/
def patternRound (placeable : Parser Expression) (draft : Draft) : Parser (Round Draft) := do
  let run ← takeWhile isPatternChar
  match ← peek with
  | none => return .done (draft.push run)
  | some '\n' => nextLine (draft.push (withoutReturn run))
  | some '\\' =>
    let c ← escape ['{', '\\']
    return .again (draft.push (run ++ [c]))
  | some _ =>
    let draft := draft.push run
    if mostPlaceables ≤ draft.placeables then fail .tooManyPlaceables
    else return .again (draft.place (← placeable))

/-- Reads a pattern part by part. -/
def patternParts (placeable : Parser Expression) : Parser (Option Pattern) := do
  return (← iterate (patternRound placeable) .empty).finish

/-- Reads a pattern; none if there is nothing to read. A first line without placeables and escapes
that no further line continues is taken as it is. -/
def pattern (placeable : Parser Expression) : Parser (Option Pattern) := do
  let start ← get
  let line := start.takeWhile (· != '\n')
  let text := Text.dropEndWhile Text.isBlank line
  let next := dropBlankLines ((start.dropWhile (· != '\n')).drop 1)
  let continuation := next.dropWhile Text.isInlineBlank
  if text.any fun c => c == '{' || c == '\\' then patternParts placeable
  else if next.head? ≠ some ' ' ∨ continuation.head? = some '.' then
    set next
    return if line.isEmpty then none else some (.text (String.ofList text))
  else
    set (if text.isEmpty then continuation else start)
    patternParts placeable

end Fluent.Grammar
