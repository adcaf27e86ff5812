import Fluent.Format.Backend

/-!
# Formatters kept for use

A formatter is built once for each option set and kept under the key of the set. What a backend
refuses to build is not kept.
-/

namespace Fluent.Format

/-- The formatters built so far, by the keys of their option sets. -/
structure Formatters where
  numbers : Table NumberFormat
  dates : Table DateFormat
  plurals : Table PluralSelector

/-- The three kinds of formatters. -/
inductive FormatterKind where
  | number
  | date
  | plural
  deriving DecidableEq, Repr

/-- The formatter kept under a key, or else a newly built one, which is kept from then on. -/
def obtain {φ : Type} (kept : Table φ) (key : String) (build : Unit → Except Refusal φ) :
    Except Refusal φ × Table φ :=
  match kept[key]? with
  | some formatter => (.ok formatter, kept)
  | none =>
    match build () with
    | .ok formatter => (.ok formatter, kept.insert key formatter)
    | .error refusal => (.error refusal, kept)

namespace Formatters

/-- No formatter has been built yet. -/
def empty : Formatters := ⟨∅, ∅, ∅⟩

/-- How many formatters of a kind have been built. -/
def count (formatters : Formatters) : FormatterKind → Nat
  | .number => formatters.numbers.size
  | .date => formatters.dates.size
  | .plural => formatters.plurals.size

/-- Writes a number; its plain text when the backend refuses. -/
def writeNumber (backend : Backend) (locales : List LanguageTag) (value : Float)
    (options : Options) : StateM Formatters String := fun formatters =>
  let (format, numbers) := obtain formatters.numbers options.cacheKey fun _ =>
    backend.numberFormat locales options
  let text := match format with
    | .ok format => format value
    | .error _ => String.ofList (Number.plainText value)
  (text, { formatters with numbers })

/-- Writes a date; its count of milliseconds when the backend refuses. -/
def writeDate (backend : Backend) (locales : List LanguageTag) (millis : Int64)
    (options : Options) : StateM Formatters String := fun formatters =>
  let (format, dates) := obtain formatters.dates options.cacheKey fun _ =>
    backend.dateFormat locales options
  let text := match format with
    | .ok format => format millis
    | .error _ => epochText millis
  (text, { formatters with dates })

/-- The plural category of a number; `other` when the backend or its rules refuse. -/
def pluralCategory (backend : Backend) (locales : List LanguageTag) (value : Float)
    (options : Options) : StateM Formatters PluralCategory := fun formatters =>
  let (selector, plurals) := obtain formatters.plurals options.cacheKey fun _ =>
    backend.pluralSelector locales options
  let category := match selector with
    | .ok select => (select value).toOption.getD .other
    | .error _ => .other
  (category, { formatters with plurals })

end Formatters

end Fluent.Format
