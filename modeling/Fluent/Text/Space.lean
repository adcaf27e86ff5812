/-!
# White space

Two notions of blank text are in use. Tags, numeric strings and indentation follow the White_Space
property of the character database (`isWhiteSpace`); the grammar of resources knows only the four
characters of `isBlank`.
-/

namespace Fluent.Text

/-- The ranges of characters with the White_Space property. -/
def whiteSpaceRanges : List (Nat × Nat) :=
  [(0x9, 0xd), (0x20, 0x20), (0x85, 0x85), (0xa0, 0xa0), (0x1680, 0x1680), (0x2000, 0x200a),
    (0x2028, 0x2029), (0x202f, 0x202f), (0x205f, 0x205f), (0x3000, 0x3000)]

/-- Whether a character's code lies in one of the ranges, ends included. -/
def inRanges (ranges : List (Nat × Nat)) (c : Char) : Bool :=
  ranges.any fun range => range.1 ≤ c.toNat && c.toNat ≤ range.2

/-- A character with the White_Space property. -/
def isWhiteSpace (c : Char) : Bool := inRanges whiteSpaceRanges c

/-- Space, tab, line feed or carriage return. -/
def isBlank (c : Char) : Bool := c == ' ' || c == '\t' || c == '\n' || c == '\r'

/-- Space or tab: blank within a line. -/
def isInlineBlank (c : Char) : Bool := c == ' ' || c == '\t'

/-- The text without the longest end whose characters all satisfy `p`. -/
def dropEndWhile (p : Char → Bool) (text : List Char) : List Char :=
  (text.reverse.dropWhile p).reverse

/-- The text without white space at either end. -/
def trim (text : List Char) : List Char :=
  dropEndWhile isWhiteSpace (text.dropWhile isWhiteSpace)

/-- The pieces of a text between the characters that satisfy `separator`; one more piece than
there are such characters. -/
def pieces (separator : Char → Bool) : List Char → List (List Char)
  | [] => [[]]
  | c :: rest =>
    if separator c then [] :: pieces separator rest
    else match pieces separator rest with
      | [] => [[c]]
      | piece :: others => (c :: piece) :: others

end Fluent.Text
