import Fluent.Cursor.Basic
import Fluent.Grammar.Token

/-!
# Tokens by their bytes

Identifiers, numbers, quoted strings, escapes and variant keys, as a cursor reads them.
-/

namespace Fluent.Cursor

open Grammar (isIdentifierChar isStringChar isKeywordChar)
open Text.Reader (Round)

/-- Reads the rest of an identifier that starts at `start`. Where it does not go on with a letter
the cursor is left behind the first character of the identifier. -/
def scanIdentifier (start : Nat) : Cursor String := do
  if (← peek).any Char.isAlpha then
    skipWhile isIdentifierChar
    return String.ofList (← slice start (← get))
  else
    moveTo start
    bumpChar
    fail .expectedIdentifier

/-- Reads an identifier. -/
def identifier : Cursor String := do scanIdentifier (← get)

/-- Reads the id of an entry: an identifier, with a hyphen in front of it for a term. -/
def entryIdentifier : Cursor String := do
  let start ← get
  skipOne '-'
  scanIdentifier start

/-- Fails with what has been read since `start`. -/
def unknownLiteral {α : Type} (start : Nat) : Cursor α := do
  fail (.unknownLiteral (String.ofList (← slice start (← get))))

/-- Passes over digits, of which there has to be one. -/
def digits (start : Nat) : Cursor Unit := do
  let first ← get
  skipWhile Char.isDigit
  if first < (← get) then return () else unknownLiteral start

/-- Passes over a point and digits, if there is a point. -/
def fraction (start : Nat) : Cursor Unit := do
  if (← peek) = some '.' then
    advance 1
    digits start
  else return ()

/-- The number that has been passed over since `start`. -/
def numeral (start : Nat) : Cursor NumberLiteral := do
  let written ← slice start (← get)
  match Number.readFloat? written with
  | some value => return ⟨String.ofList written, value⟩
  | none => unknownLiteral start

/-- Reads digits with an optional minus sign in front and an optional fraction. -/
def number : Cursor NumberLiteral := do
  let start ← get
  skipOne '-'
  digits start
  fraction start
  numeral start

/-- Fails with the four characters behind the letter of an escape. -/
def invalidUnicodeEscape : Cursor Char := do
  let rest ← slice ((← get) + 1) (← size)
  fail (.invalidUnicodeEscape (String.ofList (rest.take 4)))

/-- Reads an escape by code, the letter of which is next. Only four digits are taken as text: where
the text ends earlier, or other bytes follow, an offset need not be a boundary. -/
def unicodeEscape : Cursor Char := do
  let start := (← get) + 1
  let stop := min (start + 4) (← size)
  let digits ← byteSlice start stop
  if digits.length = 4 ∧ digits.all Text.isHexDigit then
    match Text.codedChar? 4 (← slice start stop) with
    | some coded =>
      moveTo stop
      return coded
    | none => invalidUnicodeEscape
  else invalidUnicodeEscape

/-- Fails with the character behind a backslash, if there is one. -/
def unknownEscape : Cursor Char := do
  let rest ← slice (← get) (← size)
  fail (.unknownEscape (String.ofList (rest.take 1)))

/-- Reads an escape, the backslash of which is next: one of the characters that can be escaped here
or `u` and four digits to the base sixteen. -/
def escape (escapable : List Char) : Cursor Char := do
  advance 1
  match ← peek with
  | some byte =>
    if byte ∈ escapable then
      advance 1
      return byte
    else if byte = 'u' then unicodeEscape
    else unknownEscape
  | none => unknownEscape

/-- Reads a quoted string up to its next escape or its end. -/
def stringRound (text : List Char) : Cursor (Round (List Char)) := do
  let runStart ← get
  skipWhile isStringChar
  match ← peek with
  | some '"' =>
    let run ← slice runStart (← get)
    advance 1
    return .done (text ++ run)
  | some '\\' =>
    let run ← slice runStart (← get)
    let c ← escape ['{', '\\', '"']
    return .again (text ++ run ++ [c])
  | _ => fail .unterminatedString

/-- Reads a quoted string, the first quote of which is next. It ends on its own line. -/
def string : Cursor String := do
  advance 1
  return String.ofList (← iterate stringRound [])

/-- Goes back over so many spaces at most. -/
def backOverSpaces : Nat → Cursor Unit
  | 0 => return ()
  | most + 1 => do
    let offset ← get
    if (← byteBefore offset) = ' ' then
      moveTo (offset - 1)
      backOverSpaces most
    else return ()

/-- Reads a keyword: a letter or underscore and then letters, digits, underscores, hyphens and
spaces, without the spaces at its end. -/
def keyword : Cursor String := do
  let start ← get
  if (← peek).any fun c => c.isAlpha || c == '_' || c == ' ' then
    advance 1
    skipWhile isKeywordChar
    backOverSpaces ((← get) - (start + 1))
    return String.ofList (← slice start (← get))
  else fail .expectedKeyword

/-- Reads the key of a variant and the bracket that closes it. -/
def variantKey : Cursor VariantKey := do
  skipInlineBlank
  let key ←
    if (← peek).any fun c => c.isDigit || c == '-' then VariantKey.number <$> number
    else VariantKey.keyword <$> keyword
  skipInlineBlank
  expect ']'
  return key

end Fluent.Cursor
