import Fluent.Cursor.Pattern
import Fluent.Grammar.Placeable

/-!
# Placeables by their bytes

Placeables and the expressions in them as a cursor reads them. The inline expression of a placeable
is looked for again from behind the brace where no variant list is found.
-/

namespace Fluent.Cursor

open Grammar (isNamedValue isFunctionName isTermAttribute selectorFault?)
open Text.Reader (Round)

/-- The next byte, or the one after it if that is a hyphen. -/
def leadByte : Cursor (Option Char) := do
  let first ← peek
  if first = some '-' then peekSecond else return first

/-- Reads a variable, a reference to an entry, a number or a quoted string. -/
def literal : Cursor Expression := do
  let first ← peek
  if first = some '$' then
    advance 1
    return .variableRef (← identifier)
  else
    let lead ← leadByte
    if lead.any Char.isAlpha then return .entryRef (← entryIdentifier)
    else if lead.any Char.isDigit then return .number (← number)
    else if first = some '"' then return .string (← string)
    else fail .expectedLiteral

/-- Reads an argument of a call: an expression, or a name, a colon and a string or number. -/
def argument (expression : Cursor Expression) : Cursor Argument := do
  match ← expression with
  | .entryRef name =>
    skipInlineBlank
    if (← peek) = some ':' then
      advance 1
      skipBlank
      let value ← expression
      if isNamedValue value then return .named name value
      else fail .expectedNamedArgumentValue
    else return .positional (.entryRef name)
  | value => return .positional value

/-- Reads what follows an argument: the end of the arguments, or a comma. -/
def argumentEnd (arguments : List Argument) : Cursor (Round (List Argument)) := do
  skipBlank
  match ← peek with
  | some ')' => return .done arguments
  | some ',' =>
    advance 1
    return .again arguments
  | _ => fail .expectedCallSeparator

/-- Reads one more argument and the comma after it, unless the arguments end here. -/
def argumentRound (expression : Cursor Expression) (arguments : List Argument) :
    Cursor (Round (List Argument)) := do
  if (← get) < (← size) then
    skipBlank
    if (← peek) = some ')' then return .done arguments
    else argumentEnd (arguments ++ [← argument expression])
  else return .done arguments

/-- Reads what follows a reference to an entry: the name of an attribute, the key of a variant, the
arguments of a function, or nothing. -/
def referenceTail (expression : Cursor Expression) (name : String) : Cursor Expression := do
  match ← peek with
  | some '.' =>
    advance 1
    return .attributeRef name (← identifier)
  | some '[' =>
    advance 1
    return .variantRef name (← variantKey)
  | some '(' =>
    advance 1
    let arguments ← iterate (argumentRound expression) []
    if isFunctionName name then
      expect ')'
      return .call name arguments
    else fail .functionNameNotUppercase
  | _ => return .entryRef name

/-- Reads an inline expression; `expression` reads the arguments of a call. -/
def inlineStep (placeable expression : Cursor Expression) : Cursor Expression := do
  if (← peek) = some '{' then placeable
  else match ← literal with
    | .entryRef name => referenceTail expression name
    | other => return other

/-- Reads an inline expression: a placeable, a literal, a reference or a call. -/
def inlineExpression (placeable : Cursor Expression) : Cursor Expression :=
  recursive (inlineStep placeable)

/-- Reads what follows the bracket of a variant, and the blank text after it. -/
def keyedPattern (placeable : Cursor Expression) : Cursor Variant := do
  let key ← variantKey
  skipInlineBlank
  match ← pattern placeable with
  | none => fail .variantWithoutValue
  | some value =>
    skipBlank
    return .mk key value

/-- Reads a variant, without its star, and the blank text after it. -/
def variant (placeable : Cursor Expression) : Cursor Variant := do
  expect '['
  keyedPattern placeable

/-- Reads one more variant and the blank text after it, unless the variants end here. -/
def variantRound (placeable : Cursor Expression) (read : List Variant × Option Nat) :
    Cursor (Round (List Variant × Option Nat)) := do
  match ← peek with
  | some '*' =>
    advance 1
    return .again (read.1 ++ [← variant placeable], some read.1.length)
  | some '[' =>
    if (← peekSecond) = some '[' then return .done read
    else return .again (read.1 ++ [← variant placeable], read.2)
  | _ => return .done read

/-- Reads variants, and the position of the last one that is starred. -/
def variants (placeable : Cursor Expression) : Cursor (List Variant × Option Nat) :=
  iterate (variantRound placeable) ([], none)

/-- Passes over the brace that closes a placeable and the blank text in front of it. -/
def closePlaceable : Cursor Unit := do
  skipBlank
  expect '}'

/-- Passes over a carriage return that belongs to a line end. -/
def skipReturn : Cursor Unit := do
  if (← peek) = some '\r' ∧ (← peekSecond) = some '\n' then advance 1 else return ()

/-- Reads the variants of a select expression and the brace behind them. -/
def selectMembers (placeable : Cursor Expression) (selector : Expression) : Cursor Expression := do
  let (members, standard) ← variants placeable
  if members.isEmpty then fail .missingVariants
  else
    closePlaceable
    return .select selector members standard

/-- Reads the variants of a select expression, in front of which the line has to end. -/
def membersBelow (placeable : Cursor Expression) (selector : Expression) : Cursor Expression := do
  if (← peek) = some '\n' then
    skipBlank
    selectMembers placeable selector
  else fail .variantsOnNewLine

/-- Reads the variants after a selector. They start on a line of their own. -/
def selectTail (placeable : Cursor Expression) (selector : Expression) : Cursor Expression := do
  skipInlineBlank
  skipReturn
  membersBelow placeable selector

/-- Reads what follows the inline expression of a placeable: its closing brace, or an arrow and
variants. -/
def placeableTail (placeable : Cursor Expression) (expression : Expression) :
    Cursor Expression := do
  skipBlank
  match ← peek, ← peekSecond with
  | some '}', _ =>
    if isTermAttribute expression then fail .termAttributeAsPlaceable
    else
      advance 1
      return expression
  | some '-', some '>' =>
    match selectorFault? expression with
    | some fault => fail fault
    | none =>
      advance 2
      selectTail placeable expression
  | _, _ => fail .expectedSelectorEnd

/-- Whether a variant list starts here. -/
def startsVariantList : Cursor Bool := do
  match ← peek, ← peekSecond with
  | some '*', _ => return true
  | some '[', second => return second != some ']'
  | _, _ => return false

/-- Reads what a placeable holds, and its closing brace. -/
def placeableContent (placeable : Cursor Expression) : Cursor Expression := do
  let start ← get
  skipBlank
  if ← startsVariantList then
    let (members, standard) ← variants placeable
    closePlaceable
    return .variantList members standard
  else
    moveTo start
    skipInlineBlank
    placeableTail placeable (← inlineExpression placeable)

/-- Reads a placeable, the opening brace of which is next. -/
def placeableBody (placeable : Cursor Expression) : Cursor Expression := do
  advance 1
  placeableContent placeable

/-- Reads a placeable with room for so many braces inside one another. -/
def placeable : Nat → Cursor Expression
  | 0 => fail .tooDeeplyNested
  | room + 1 => placeableBody (placeable room)

end Fluent.Cursor
