/-!
# Plural categories

Languages tell numbers apart by plural categories. Which of them a language has, and which numbers
belong to each, is left to a library of plural rules.
-/

namespace Fluent

/-- What a language distinguishes in numbers. -/
inductive PluralCategory where
  | zero
  | one
  | two
  | few
  | many
  | other
  deriving DecidableEq, Repr

/-- The name of a category, as variants are keyed by it. -/
def PluralCategory.name : PluralCategory → String
  | .zero => "zero"
  | .one => "one"
  | .two => "two"
  | .few => "few"
  | .many => "many"
  | .other => "other"

/-- What plural rules are for: the form that goes with a count, or the form that goes with a
rank. -/
inductive PluralKind where
  | cardinal
  | ordinal
  deriving DecidableEq, Repr

/-- A library of plural rules: the names of the locales that it has rules of a kind for; the locale
that a name stands for, as it writes it, if it stands for one; and the rules of a kind for a locale,
which find the category of a number. It can lack the rules, and rules can fail on a number; either
way it says why. -/
structure PluralLibrary where
  locales : PluralKind → List String
  locale? : String → Option String
  rules : PluralKind → String → Except String (Float → Except String PluralCategory)

end Fluent
