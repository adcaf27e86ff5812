import Fluent.Cursor.Token
import Fluent.Grammar.Pattern

/-!
# Patterns by their bytes

A pattern as a cursor reads it. Its text is taken run by run, each between the offset at which the
run starts and the one at which a line end, an escape or a placeable stops it.
-/

namespace Fluent.Cursor

open Grammar (Draft isPatternChar withoutReturn endsPattern mostPlaceables)
open Text.Reader (Round)

/-- Passes over a blank line, unless the cursor is in front of another one. -/
def blankLineRound (_ : Unit) : Cursor (Round Unit) := do
  let lineStart ← get
  skipInlineBlank
  match ← peek, ← peekSecond with
  | some '\r', some '\n' =>
    advance 2
    return .again ()
  | some '\n', _ =>
    advance 1
    return .again ()
  | _, _ =>
    moveTo lineStart
    return .done ()

/-- Passes over the blank lines in front. -/
def skipBlankLines : Cursor Unit := iterate blankLineRound ()

/-- The draft with the run that starts at an offset at its end. -/
def pushRun (draft : Draft) (runStart : Nat) : Cursor Draft :=
  return draft.push (← slice runStart (← get))

/-- Goes on to the next line of a pattern, if there is one. -/
def nextLine (draft : Draft) : Cursor (Round Draft) := do
  advance 1
  let blankStart ← get
  skipBlankLines
  let blankEnd ← get
  if (← peek) = some ' ' then
    skipInlineBlank
    if (← peek).any endsPattern then
      moveTo blankEnd
      return .done (← pushRun draft blankEnd)
    else
      let draft := draft.push ((← slice blankStart blankEnd).filter (· != '\r'))
      return .again (if draft.isEmpty then draft else draft.push ['\n'])
  else return .done (← pushRun draft blankEnd)

/-- Reads a pattern up to and over its next line end, escape or placeable. -/
def patternRound (placeable : Cursor Expression) (draft : Draft) : Cursor (Round Draft) := do
  let runStart ← get
  skipWhile isPatternChar
  match ← peek with
  | none => return .done (← pushRun draft runStart)
  | some '\n' => nextLine (draft.push (withoutReturn (← slice runStart (← get))))
  | some '\\' =>
    let draft ← pushRun draft runStart
    return .again (draft.push [← escape ['{', '\\']])
  | some _ =>
    let draft ← pushRun draft runStart
    if mostPlaceables ≤ draft.placeables then fail .tooManyPlaceables
    else return .again (draft.place (← placeable))

/-- Reads a pattern part by part. -/
def patternParts (placeable : Cursor Expression) : Cursor (Option Pattern) := do
  return (← iterate (patternRound placeable) .empty).finish

/-- The text between two offsets without the blank text at its end, unless they are one. -/
def firstLine? (start stop : Nat) : Cursor (Option (List Char)) := do
  if start ≠ stop then return some (Text.dropEndWhile Text.isBlank (← slice start stop))
  else return none

/-- Reads a pattern; none if there is nothing to read. A first line without placeables and escapes
that no further line continues is taken as it is. -/
def pattern (placeable : Cursor Expression) : Cursor (Option Pattern) := do
  let start ← get
  let lineEnd := (← findNewline start).getD (← size)
  let line? ← firstLine? start lineEnd
  let plain := line?.map fun line => Pattern.text (String.ofList line)
  if (line?.getD []).any fun c => c == '{' || c == '\\' then patternParts placeable
  else
    moveTo (min (lineEnd + 1) (← size))
    skipBlankLines
    let next ← get
    if (← peek) = some ' ' then
      skipInlineBlank
      if (← peek) = some '.' then
        moveTo next
        return plain
      else
        if line?.any fun line => !line.isEmpty then
          moveTo start
          patternParts placeable
        else patternParts placeable
    else return plain

end Fluent.Cursor
