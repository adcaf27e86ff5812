import Fluent.Grammar.Parser
import Fluent.Message.Pattern
import Fluent.Number.Reading
import Fluent.Text.CharCode

/-!
# Tokens

Identifiers, numbers, quoted strings, escapes and variant keys.
-/

namespace Fluent.Grammar

open Fluent.Grammar.Parser Fluent.Text.Reader

/-- A character after the first of an identifier. -/
def isIdentifierChar (c : Char) : Bool := c.isAlphanum || c == '_' || c == '-'

/-- Reads a letter and the identifier characters after it. Where there is no letter the parser
stops one character on. -/
def identifier : Parser String := do
  if (← peek).any Char.isAlpha then return String.ofList (← takeWhile isIdentifierChar)
  else
    advance
    fail .expectedIdentifier

/-- Reads the id of an entry: an identifier, with a hyphen in front of it for a term. Where there is
none the parser stops one character on. -/
def entryIdentifier : Parser String := do
  let start ← get
  let hyphen ← takeOne '-'
  if (← peek).any Char.isAlpha then
    return String.ofList (hyphen ++ (← takeWhile isIdentifierChar))
  else
    set (start.drop 1)
    fail .expectedIdentifier

/-- Reads digits with an optional minus sign in front and an optional fraction. -/
def number : Parser NumberLiteral := do
  let sign ← takeOne '-'
  let whole ← takeWhile Char.isDigit
  if whole.isEmpty then fail (.unknownLiteral (String.ofList sign))
  else
    let point ← takeOne '.'
    let fraction ← takeWhile Char.isDigit
    let written := sign ++ whole ++ point ++ fraction
    if !point.isEmpty && fraction.isEmpty then fail (.unknownLiteral (String.ofList written))
    else match Number.readFloat? written with
      | some value => return ⟨String.ofList written, value⟩
      | none => fail (.unknownLiteral (String.ofList written))

/-- Reads an escape, the backslash of which is next: one of the characters that can be escaped here
or `u` and four digits to the base sixteen. -/
def escape (escapable : List Char) : Parser Char := do
  advance
  match ← get with
  | [] => fail (.unknownEscape "")
  | c :: rest =>
    if c ∈ escapable then
      set rest
      return c
    else if c = 'u' then
      match Text.codedChar? 4 rest with
      | some coded =>
        set (rest.drop 4)
        return coded
      | none => fail (.invalidUnicodeEscape (String.ofList (rest.take 4)))
    else fail (.unknownEscape (String.ofList [c]))

/-- A character that stands for itself in a quoted string. -/
def isStringChar (c : Char) : Bool := c != '"' && c != '\\' && c != '\n'

/-- Reads a quoted string up to its next escape or its end. -/
def stringRound (text : List Char) : Parser (Round (List Char)) := do
  let run ← takeWhile isStringChar
  match ← peek with
  | some '"' =>
    advance
    return .done (text ++ run)
  | some '\\' =>
    let c ← escape ['{', '\\', '"']
    return .again (text ++ run ++ [c])
  | _ => fail .unterminatedString

/-- Reads a quoted string, the first quote of which is next. It ends on its own line. -/
def string : Parser String := do
  advance
  return String.ofList (← iterate stringRound [])

/-- A character after the first of a keyword. -/
def isKeywordChar (c : Char) : Bool := c.isAlphanum || c == '_' || c == '-' || c == ' '

/-- Reads a keyword: a letter or underscore and then letters, digits, underscores, hyphens and
spaces, without the spaces at its end. -/
def keyword : Parser String := do
  let text ← get
  if text.head?.any fun c => c.isAlpha || c == '_' then
    let name := Text.dropEndWhile (· == ' ') (text.takeWhile isKeywordChar)
    set (text.drop name.length)
    return String.ofList name
  else fail .expectedKeyword

/-- Reads the key of a variant and the bracket that closes it. -/
def variantKey : Parser VariantKey := do
  skipInlineBlank
  let key ←
    if (← peek).any fun c => c.isDigit || c == '-' then VariantKey.number <$> number
    else VariantKey.keyword <$> keyword
  skipInlineBlank
  expect ']'
  return key

end Fluent.Grammar
