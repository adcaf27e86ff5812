import Fluent.Grammar.Pattern

/-!
# Placeables as they are read

A placeable holds an inline expression, a select expression or a variant list between braces. The
braces nest no deeper than `deepestNesting`; `placeable` counts down the room that is left.
-/

namespace Fluent.Grammar

open Fluent.Grammar.Parser Fluent.Text.Reader

/-- Whether a name can name a function: a capital and then capitals, underscores, question marks
and hyphens. -/
def isFunctionName (name : String) : Bool :=
  match name.toList with
  | [] => false
  | first :: rest =>
    first.isUpper && rest.all fun c => c.isUpper || c == '_' || c == '?' || c == '-'

/-- Reads a variable, a reference to an entry, a number or a quoted string. -/
def literal : Parser Expression := do
  let text ← get
  let lead := if text.head? = some '-' then (text.drop 1).head? else text.head?
  if text.head? = some '$' then
    advance
    return .variableRef (← identifier)
  else if lead.any Char.isAlpha then return .entryRef (← entryIdentifier)
  else if lead.any Char.isDigit then return .number (← number)
  else if text.head? = some '"' then return .string (← string)
  else fail .expectedLiteral

/-- Whether an expression can be the value of a named argument. -/
def isNamedValue : Expression → Bool
  | .string _ => true
  | .number _ => true
  | _ => false

/-- Reads an argument of a call: an expression, or a name, a colon and a string or number. -/
def argument (expression : Parser Expression) : Parser Argument := do
  match ← expression with
  | .entryRef name =>
    skipInlineBlank
    if (← peek) = some ':' then
      advance
      skipBlank
      let value ← expression
      if isNamedValue value then return .named name value
      else fail .expectedNamedArgumentValue
    else return .positional (.entryRef name)
  | value => return .positional value

/-- Reads one more argument and the comma after it, unless the arguments end here. -/
def argumentRound (expression : Parser Expression) (arguments : List Argument) :
    Parser (Round (List Argument)) := do
  if (← get).isEmpty then return .done arguments
  else
    skipBlank
    if (← peek) = some ')' then return .done arguments
    else
      let arguments := arguments ++ [← argument expression]
      skipBlank
      match ← peek with
      | some ')' => return .done arguments
      | some ',' =>
        advance
        return .again arguments
      | _ => fail .expectedCallSeparator

/-- Reads what follows a reference to an entry: the name of an attribute, the key of a variant, the
arguments of a function, or nothing. -/
def referenceTail (expression : Parser Expression) (name : String) : Parser Expression := do
  match ← peek with
  | some '.' =>
    advance
    return .attributeRef name (← identifier)
  | some '[' =>
    advance
    return .variantRef name (← variantKey)
  | some '(' =>
    advance
    let arguments ← iterate (argumentRound expression) []
    if isFunctionName name then
      expect ')'
      return .call name arguments
    else fail .functionNameNotUppercase
  | _ => return .entryRef name

/-- Reads an inline expression; `expression` reads the arguments of a call. -/
def inlineStep (placeable expression : Parser Expression) : Parser Expression := do
  if (← peek) = some '{' then placeable
  else match ← literal with
    | .entryRef name => referenceTail expression name
    | other => return other

/-- Reads an inline expression: a placeable, a literal, a reference or a call. -/
def inlineExpression (placeable : Parser Expression) : Parser Expression :=
  recursive (Failure.mk .expectedLiteral) (inlineStep placeable)

/-- Reads one more variant and the blank text after it, unless the variants end here. -/
def variantRound (placeable : Parser Expression) (read : List Variant × Option Nat) :
    Parser (Round (List Variant × Option Nat)) := do
  let text ← get
  let starred := text.head? = some '*'
  if starred ∨ text.head? = some '[' ∧ (text.drop 1).head? ≠ some '[' then
    set (if starred then text.drop 1 else text)
    expect '['
    let key ← variantKey
    skipInlineBlank
    match ← pattern placeable with
    | none => fail .variantWithoutValue
    | some value =>
      skipBlank
      return .again (read.1 ++ [.mk key value], if starred then some read.1.length else read.2)
  else return .done read

/-- Reads variants, and the position of the last one that is starred. -/
def variants (placeable : Parser Expression) : Parser (List Variant × Option Nat) :=
  iterate (variantRound placeable) ([], none)

/-- Passes over the brace that closes a placeable and the blank text in front of it. -/
def closePlaceable : Parser Unit := do
  skipBlank
  expect '}'

/-- Whether a term is named by an attribute reference. -/
def isTermAttribute : Expression → Bool
  | .attributeRef id _ => id.toList.head? == some '-'
  | _ => false

/-- The fault of an expression that cannot be a selector. -/
def selectorFault? : Expression → Option Fault
  | .entryRef _ => some .messageReferenceAsSelector
  | .variantRef _ _ => some .variantAsSelector
  | .attributeRef id name =>
    if isTermAttribute (.attributeRef id name) then none else some .messageAttributeAsSelector
  | _ => none

/-- Reads the variants after a selector. They start on a line of their own. -/
def selectTail (placeable : Parser Expression) (selector : Expression) : Parser Expression := do
  skipInlineBlank
  match ← get with
  | '\r' :: '\n' :: rest => set ('\n' :: rest)
  | _ => pure ()
  if (← peek) = some '\n' then
    skipBlank
    let (members, standard) ← variants placeable
    if members.isEmpty then fail .missingVariants
    else
      closePlaceable
      return .select selector members standard
  else fail .variantsOnNewLine

/-- Reads what follows the inline expression of a placeable: its closing brace, or an arrow and
variants. -/
def placeableTail (placeable : Parser Expression) (expression : Expression) :
    Parser Expression := do
  skipBlank
  match ← get with
  | '}' :: rest =>
    if isTermAttribute expression then fail .termAttributeAsPlaceable
    else
      set rest
      return expression
  | '-' :: '>' :: rest =>
    match selectorFault? expression with
    | some fault => fail fault
    | none =>
      set rest
      selectTail placeable expression
  | _ => fail .expectedSelectorEnd

/-- Whether a variant list starts here, blank text aside. -/
def startsVariantList (text : List Char) : Bool :=
  match text.dropWhile Text.isBlank with
  | '*' :: _ => true
  | '[' :: rest => rest.head? != some ']'
  | _ => false

/-- Reads a placeable, the opening brace of which is next. -/
def placeableBody (placeable : Parser Expression) : Parser Expression := do
  advance
  if startsVariantList (← get) then
    skipBlank
    let (members, standard) ← variants placeable
    closePlaceable
    return .variantList members standard
  else
    skipInlineBlank
    placeableTail placeable (← inlineExpression placeable)

/-- Reads a placeable with room for so many braces inside one another. -/
def placeable : Nat → Parser Expression
  | 0 => fail .tooDeeplyNested
  | room + 1 => placeableBody (placeable room)

end Fluent.Grammar
