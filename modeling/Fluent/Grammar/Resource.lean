import Fluent.Grammar.Placeable
import Fluent.Message.Entry

/-!
# Resources as they are read

A resource is a text of entries and comments. An entry that breaks a rule is left out and reported;
reading goes on at the next line that starts with a letter or a hyphen. What was read is kept as a
list of items in the order of the text; of two entries with one id the later is kept.
-/

namespace Fluent.Grammar

open Fluent.Grammar.Parser Fluent.Text.Reader

/-- The reader of the placeables of an entry. -/
def entryPlaceable : Parser Expression := placeable deepestNesting

/-- Reads one more attribute and the blank lines after it, unless the attributes end here. -/
def attributeRound (attributes : Table Pattern) : Parser (Round (Table Pattern)) := do
  if (← peek) = some ' ' then
    skipInlineBlank
    if (← peek) = some '.' then
      advance
      let name ← identifier
      skipInlineBlank
      expect '='
      skipInlineBlank
      match ← pattern entryPlaceable with
      | none => fail .attributeWithoutValue
      | some value =>
        set (dropBlankLines (← get))
        return .again (attributes.insert name value)
    else return .done attributes
  else return .done attributes

/-- Reads the attributes of an entry, if there are any. Indentation is passed over even when no
attribute follows it. -/
def attributes? : Parser (Option (Table Pattern)) := do
  if (← peek) = some ' ' then
    let lineStart ← get
    skipInlineBlank
    if (← peek) = some '.' then
      set lineStart
      return some (← iterate attributeRound ∅)
    else return none
  else return none

/-- Reads a message or a term and its id. -/
def message : Parser (String × Entry) := do
  let id ← entryIdentifier
  skipInlineBlank
  expect '='
  skipInlineBlank
  let value ← pattern entryPlaceable
  if EntryKind.ofId id = .term ∧ value.isNone then fail .termWithoutValue
  else
    match value, ← attributes? with
    | some (.text text), none => return (id, .text text)
    | none, none => fail .messageWithoutValue
    | value, attributes => return (id, .node value attributes)

/-- Whether a comment starts here: a number sign and a space, another number sign or a line end. -/
def startsComment : List Char → Bool
  | '#' :: c :: _ => c == ' ' || c == '#' || c == '\n'
  | _ => false

/-- The text after the comment in front of it. The comment goes on over the next line if that one
starts with a number sign and a space or another number sign. -/
def dropComment : List Char → List Char
  | '\n' :: '#' :: ' ' :: rest => dropComment rest
  | '\n' :: '#' :: '#' :: rest => dropComment rest
  | '\n' :: rest => rest
  | _ :: rest => dropComment rest
  | [] => []

/-- Reads an entry or passes over a comment. Either has to stand at the start of a line. -/
def entryOrComment (lineStart : Bool) : Parser (Option (String × Entry)) := do
  if lineStart then
    let text ← get
    if startsComment text then
      set (dropComment text)
      return none
    else return some (← message)
  else fail .expectedEntryStart

/-- Whether the rest of a text is at the start of a line, when the text itself is as told. -/
def atLineStart (lineStart : Bool) (text rest : List Char) : Bool :=
  match (text.take (text.length - rest.length)).getLast? with
  | none => lineStart
  | some c => c == '\n'

/-- The rest of a text from the next place where an entry may start: a letter or a hyphen at the
start of a line. -/
def nextEntry (lineStart : Bool) : List Char → List Char
  | [] => []
  | c :: rest =>
    if lineStart && (c.isAlpha || c == '-') then c :: rest else nextEntry (c == '\n') rest

/-- Where reading goes on after an entry that starts at `text` and failed at `stop`: at the next
place for an entry at or after `stop`, and after the first character of the entry. -/
def resume (text stop : List Char) : List Char :=
  let stop := if stop.length < text.length then stop else text.drop 1
  nextEntry (atLineStart false text stop) stop

/-- What is found in a resource. -/
inductive Item where
  | entry (id : String) (entry : Entry)
  | failure (failure : Failure)

/-- The entries and failures of a text, in order. -/
def items (lineStart : Bool) (text : List Char) : List Item :=
  let start := text.dropWhile Text.isBlank
  let lineStart := atLineStart lineStart text start
  if start.isEmpty then []
  else
    let (found, rest) := match (entryOrComment lineStart).run start with
      | .ok (none, rest) => ([], rest)
      | .ok (some (id, entry), rest) => ([Item.entry id entry], rest)
      | .error failure => ([Item.failure failure], resume start failure.rest)
    if rest.length < text.length then found ++ items (atLineStart lineStart start rest) rest
    else found
termination_by text.length

/-- The place of a failure in the text that it belongs to. Its line and its column are counted
without a bound, so they are 32-bit counts only as long as both are below `2 ^ 32`. -/
def Failure.locate (source : List Char) (failure : Failure) : ParseError :=
  let before := source.take (source.length - failure.rest.length)
  { fault := failure.fault
    offset := (String.ofList before).utf8ByteSize
    line := before.count '\n' + 1
    column := (before.reverse.takeWhile (· != '\n')).length + 1 }

/-- The entries of a text by id, and the errors of the entries that were left out, in order. -/
structure Resource where
  entries : Table Entry
  errors : List ParseError

/-- The resource of the items found in a text. -/
def Resource.ofItems (source : List Char) (found : List Item) : Resource where
  entries := found.foldl (fun entries item =>
    match item with
    | .entry id entry => entries.insert id entry
    | .failure _ => entries) ∅
  errors := found.filterMap fun item =>
    match item with
    | .entry _ _ => none
    | .failure failure => some (failure.locate source)

/-- Reads a resource. -/
def Resource.parse (source : String) : Resource :=
  .ofItems source.toList (items true source.toList)

end Fluent.Grammar
