import Fluent.Format.Decimal
import Fluent.Locale.Tag
import Fluent.Locale.Plural

/-!
# Format backends

A backend builds formatters: functions that write numbers and dates, and functions that find the
plural category of a number. It builds them for a list of locales and an option set, or refuses.
The basic backend knows no locale: it writes plain decimals and puts every number in one category.
-/

namespace Fluent.Format

/-- Writes a number. -/
abbrev NumberFormat : Type := Float → String

/-- Writes a date, given in milliseconds since the epoch. -/
abbrev DateFormat : Type := Int64 → String

/-- Finds the plural category of a number. -/
abbrev PluralSelector : Type := Float → Except Refusal PluralCategory

/-- The builders of the three kinds of formatters. -/
structure Backend where
  numberFormat : List LanguageTag → Options → Except Refusal NumberFormat
  dateFormat : List LanguageTag → Options → Except Refusal DateFormat
  pluralSelector : List LanguageTag → Options → Except Refusal PluralSelector

/-- A date as its count of milliseconds. -/
def epochText (millis : Int64) : String := String.ofList (Number.wholeText millis.toInt)

/-- The backend that knows no locale. -/
def Backend.basic : Backend where
  numberFormat _ options := .ok fun value => decimalText value options none
  dateFormat _ _ := .ok epochText
  pluralSelector _ _ := .ok fun _ => .ok .other

end Fluent.Format
