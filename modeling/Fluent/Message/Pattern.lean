/-!
# Patterns

A pattern is what a message shows: plain text, or a sequence of text and placeables. A placeable
holds an expression, and a select expression or a variant list holds patterns again.
-/

namespace Fluent

/-- A number as it is written, and its value. -/
structure NumberLiteral where
  written : String
  value : Float
  deriving DecidableEq

/-- What a variant is chosen by. -/
inductive VariantKey where
  | number (literal : NumberLiteral)
  | keyword (name : String)
  deriving DecidableEq

mutual

/-- Plain text, or a sequence of text and placeables. -/
inductive Pattern where
  | text (value : String)
  | elements (parts : List Element)

/-- One part of a pattern. -/
inductive Element where
  | text (value : String)
  | placeable (expression : Expression)

/-- What a placeable holds. A reference names an entry; an attribute reference one of its
attributes; a variant reference one of the variants of its value. A variant list is a select
expression without a selector. The default of either is the position of one of its variants. -/
inductive Expression where
  | number (literal : NumberLiteral)
  | string (value : String)
  | variableRef (name : String)
  | entryRef (id : String)
  | attributeRef (id name : String)
  | variantRef (id : String) (key : VariantKey)
  | call (function : String) (arguments : List Argument)
  | select (selector : Expression) (variants : List Variant) (standard : Option Nat)
  | variantList (variants : List Variant) (standard : Option Nat)

/-- An argument of a function call. -/
inductive Argument where
  | positional (value : Expression)
  | named (name : String) (value : Expression)

/-- A pattern with the key it is chosen by. -/
inductive Variant where
  | mk (key : VariantKey) (value : Pattern)

end

namespace Variant

/-- The key of a variant. -/
def key : Variant → VariantKey
  | .mk key _ => key

/-- The pattern of a variant. -/
def value : Variant → Pattern
  | .mk _ value => value

end Variant

/-- The variants and the default of a pattern that starts with a variant list. -/
def Pattern.variantList? : Pattern → Option (List Variant × Option Nat)
  | .elements (.placeable (.variantList variants standard) :: _) => some (variants, standard)
  | _ => none

/-- Whether a part is a placeable. -/
def Element.isPlaceable : Element → Bool
  | .text _ => false
  | .placeable _ => true

end Fluent
