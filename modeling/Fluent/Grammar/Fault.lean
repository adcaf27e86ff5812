/-!
# Faults in a resource

What can be wrong with an entry, and where. A fault names the rule that the text breaks; a parse
error places it by byte offset, line and column.
-/

namespace Fluent.Grammar

/-- The most placeables in one pattern. -/
def mostPlaceables : Nat := 100

/-- The most placeables inside one another. -/
def deepestNesting : Nat := 64

/-- The rule of the grammar that a text breaks. -/
inductive Fault where
  | expectedEntryStart
  | expectedToken (token : Char)
  | expectedIdentifier
  | expectedKeyword
  | expectedLiteral
  | expectedSelectorEnd
  | expectedCallSeparator
  | expectedNamedArgumentValue
  | unknownLiteral (text : String)
  | unterminatedString
  | invalidUnicodeEscape (sequence : String)
  | unknownEscape (sequence : String)
  | termWithoutValue
  | messageWithoutValue
  | attributeWithoutValue
  | variantWithoutValue
  | missingVariants
  | variantsOnNewLine
  | termAttributeAsPlaceable
  | messageReferenceAsSelector
  | variantAsSelector
  | messageAttributeAsSelector
  | functionNameNotUppercase
  | tooManyPlaceables
  | tooDeeplyNested
  deriving DecidableEq, Repr

/-- What a fault says to the author of the text. -/
def Fault.message : Fault → String
  | .expectedEntryStart => "expected an entry to start at the beginning of a line"
  | .expectedToken token => "expected \"" ++ String.ofList [token] ++ "\""
  | .expectedIdentifier => "expected an identifier"
  | .expectedKeyword => "expected a keyword (starting with [a-zA-Z_])"
  | .expectedLiteral => "expected literal"
  | .expectedSelectorEnd => "expected \"\x7d\" or \"->\""
  | .expectedCallSeparator => "expected \",\" or \")\""
  | .expectedNamedArgumentValue => "expected string in quotes or number"
  | .unknownLiteral text => "unknown literal \"" ++ text ++ "\""
  | .unterminatedString => "unterminated string expression"
  | .invalidUnicodeEscape sequence => "invalid unicode escape sequence: \\u" ++ sequence
  | .unknownEscape sequence => "unknown escape sequence: \\" ++ sequence
  | .termWithoutValue => "expected term to have a value"
  | .messageWithoutValue => "expected message to have a value or attributes"
  | .attributeWithoutValue => "expected attribute to have a value"
  | .variantWithoutValue => "expected variant to have a value"
  | .missingVariants => "expected members for the select expression"
  | .variantsOnNewLine => "variants should be listed in a new line"
  | .termAttributeAsPlaceable => "attributes of private messages cannot be interpolated"
  | .messageReferenceAsSelector => "message references cannot be used as selectors"
  | .variantAsSelector => "variants cannot be used as selectors"
  | .messageAttributeAsSelector => "attributes of public messages cannot be used as selectors"
  | .functionNameNotUppercase => "function names must be all upper-case"
  | .tooManyPlaceables => "too many placeables, maximum allowed is " ++ toString mostPlaceables
  | .tooDeeplyNested =>
    "placeables nested too deeply, maximum depth is " ++ toString deepestNesting

/-- A fault and its place: the offset counts bytes from the start of the text, the line and the
column count from one, the column in characters. No bound is set to them; counts of 32 bits are the
same as long as the line and the column are below `2 ^ 32`. -/
structure ParseError where
  fault : Fault
  offset : Nat
  line : Nat
  column : Nat
  deriving DecidableEq, Repr

/-- A part of a text between two byte offsets, and the line and the column where it starts, which
are counted without a bound. -/
structure Span where
  start : Nat
  stop : Nat
  line : Nat
  column : Nat
  deriving DecidableEq, Repr

/-- The part of a text that an error points at: no character, but the place between two. -/
def ParseError.span (error : ParseError) : Span :=
  { start := error.offset, stop := error.offset, line := error.line, column := error.column }

/-- The text of a parse error. -/
def ParseError.message (error : ParseError) : String :=
  error.fault.message ++ " at line " ++ toString error.line ++ ", column " ++ toString error.column

end Fluent.Grammar
