import Fluent.Cursor.Placeable
import Fluent.Grammar.Resource

/-!
# Resources by their bytes

A whole resource as a cursor reads it. Behind an entry that fails, the search for the next one goes
on by bytes, from an offset that need not be a boundary.
-/

namespace Fluent.Cursor

open Grammar (ParseError Resource deepestNesting)
open Text.Reader (Round)

/-- Reads the placeables of an entry. -/
def entryPlaceable : Cursor Expression := placeable deepestNesting

/-- Reads the name of an attribute, its pattern and the blank lines after it. -/
def patternByName : Cursor (String × Pattern) := do
  let name ← identifier
  skipInlineBlank
  expect '='
  skipInlineBlank
  match ← pattern entryPlaceable with
  | none => fail .attributeWithoutValue
  | some value =>
    skipBlankLines
    return (name, value)

/-- Reads an attribute, the point of which is next. -/
def namedPattern : Cursor (String × Pattern) := do
  advance 1
  patternByName

/-- Reads one more attribute and the blank lines after it, unless the attributes end here. -/
def attributeRound (attributes : Table Pattern) : Cursor (Round (Table Pattern)) := do
  if (← peek) = some ' ' then
    skipInlineBlank
    if (← peek) = some '.' then
      let read ← namedPattern
      return .again (attributes.insert read.1 read.2)
    else return .done attributes
  else return .done attributes

/-- Reads the attributes of an entry, if there are any. Indentation is passed over even when no
attribute follows it. -/
def attributes? : Cursor (Option (Table Pattern)) := do
  if (← peek) = some ' ' then
    let lineStart ← get
    skipInlineBlank
    if (← peek) = some '.' then
      moveTo lineStart
      return some (← iterate attributeRound ∅)
    else return none
  else return none

/-- Reads the id of an entry and the equals sign behind it. -/
def messageHead : Cursor String := do
  let id ← entryIdentifier
  skipInlineBlank
  expect '='
  skipInlineBlank
  return id

/-- Reads what follows the value of an entry. -/
def messageTail (id : String) (value : Option Pattern) : Cursor (String × Entry) := do
  if EntryKind.ofId id = .term ∧ value.isNone then fail .termWithoutValue
  else
    match value, ← attributes? with
    | some (.text text), none => return (id, .text text)
    | none, none => fail .messageWithoutValue
    | value, attributes => return (id, .node value attributes)

/-- Reads a message or a term and its id. -/
def message : Cursor (String × Entry) := do
  let id ← messageHead
  messageTail id (← pattern entryPlaceable)

/-- Goes over to the next line of a comment, if the line that ends at the given offset is followed
by one. -/
def commentRound (lineEnd : Option Nat) : Cursor (Round (Option Nat)) := do
  match lineEnd with
  | none => return .done none
  | some stop =>
    if (← byteAt (stop + 1)) = some '#' ∧
        (← byteAt (stop + 2)).any fun byte => byte == ' ' || byte == '#' then
      moveTo (stop + 3)
      return .again (← findNewline (stop + 3))
    else return .done (some stop)

/-- Passes over the comment in front. -/
def skipComment : Cursor Unit := do
  match ← iterate commentRound (← findNewline (← get)) with
  | some stop => moveTo (stop + 1)
  | none => moveTo (← size)

/-- Whether a comment starts here: a number sign and a space, another number sign or a line end. -/
def startsComment : Cursor Bool := do
  match ← peek, ← peekSecond with
  | some '#', some byte => return byte == ' ' || byte == '#' || byte == '\n'
  | _, _ => return false

/-- Whether the cursor is at the start of a line. -/
def atLineStart : Cursor Bool := do
  let offset ← get
  if offset ≠ 0 then return (← byteBefore offset) == '\n' else return true

/-- Reads an entry or passes over a comment. Either has to stand at the start of a line. -/
def entry : Cursor (Option (String × Entry)) := do
  if ← atLineStart then
    if ← startsComment then
      skipComment
      return none
    else return some (← message)
  else fail .expectedEntryStart

/-- Goes over to the next line, unless an entry may start at the cursor. -/
def entryStartRound (_ : Unit) : Cursor (Round Unit) := do
  let start ← get
  if (start = 0 ∨ (← byteAt (start - 1)) = some '\n') ∧
      (← byteAt start).any fun byte => byte.isAlpha || byte == '-' then
    return .done ()
  else
    match ← findNewline start with
    | some stop =>
      moveTo (stop + 1)
      return .again ()
    | none =>
      moveTo (← size)
      return .done ()

/-- Goes over to where the next entry may start behind one that fails. -/
def skipToEntryStart (entryStart : Nat) : Cursor Unit := do
  moveTo (min (max (← get) (entryStart + 1)) (← size))
  iterate entryStartRound ()

/-- A resource with what is found at one more entry: nothing at a comment, else the entry or the
error of the entry. -/
def addFound (read : Resource) : Option (String × Entry) ⊕ ParseError → Resource
  | .inl none => read
  | .inl (some (id, entry)) => { read with entries := read.entries.insert id entry }
  | .inr error => { read with errors := read.errors ++ [error] }

/-- Reads an entry or a comment and the blank text after it. -/
def resourceRound (read : Resource) : Cursor (Round Resource) := do
  let start ← get
  if start < (← size) then
    let found ← recover (Sum.inl <$> entry) fun error => do
      skipToEntryStart start
      return .inr error
    skipBlank
    return .again (addFound read found)
  else return .done read

/-- Reads a resource. -/
def parse : Cursor Resource := do
  skipBlank
  iterate resourceRound ⟨∅, []⟩

end Fluent.Cursor
