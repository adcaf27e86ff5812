import Fluent.Text.Markless

/-!
# Quoted text

A quoted text stands between double quotes. Inside, the quote, the backslash, tab, line feed,
carriage return and the null character have a backslash form of their own; any other character
without a mark of its own is written by its hexadecimal code between braces; all else stands for
itself.
-/

namespace Fluent.Text

/-- The form of one character inside quoted text. -/
def quotedChar (c : Char) : List Char :=
  if c = '"' then ['\\', '"']
  else if c = '\\' then ['\\', '\\']
  else if c = '\t' then ['\\', 't']
  else if c = '\n' then ['\\', 'n']
  else if c = '\r' then ['\\', 'r']
  else if c = '\x00' then ['\\', '0']
  else if isMarkless c then ['\\', 'u', '{'] ++ Nat.toDigits 16 c.toNat ++ ['}']
  else [c]

/-- The quoted form of a text. -/
def quoted (text : List Char) : List Char :=
  '"' :: text.flatMap quotedChar ++ ['"']

end Fluent.Text
