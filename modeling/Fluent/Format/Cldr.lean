import Fluent.Format.Backend
import Fluent.Locale.Lookup

/-!
# The CLDR backend

Plural categories come from a library of plural rules, which is asked for those of the first
requested locale it has rules for, or of English if it has rules for none. The option `type` set to
`ordinal` asks for the rules of ranks. Numbers are grouped with commas and keep at most three
fraction places unless an option sets another limit.
-/

namespace Fluent.Format.Cldr

section

variable (library : PluralLibrary)

/-- The tags of the locales that have rules of a kind. -/
def ruledTags (kind : PluralKind) : List LanguageTag :=
  (library.locales kind).filterMap fun name => (LanguageTag.parse name).toOption

/-- The name of the locale whose plural rules serve the requested ones. -/
def pluralLocale (kind : PluralKind) (requested : List LanguageTag) : String :=
  match LanguageTag.lookup requested (ruledTags library kind) with
  | some tag => tag.normalized
  | none => "en"

/-- The kind of rules that options ask for. -/
def pluralKind (options : Options) : PluralKind :=
  if options.text? "type" = some "ordinal" then .ordinal else .cardinal

/-- What finds the plural category of a number for the requested locales. -/
def pluralSelector (requested : List LanguageTag) (options : Options) :
    Except Refusal PluralSelector :=
  let kind := pluralKind options
  match library.locale? (pluralLocale library kind requested) with
  | none => .error (.invalidInput "plural rules locale is not a valid identifier")
  | some locale =>
    match library.rules kind locale with
    | .error reason => .error (.unsupported reason)
    | .ok select => .ok fun value => (select value).mapError .invalidInput

end

/-- The most fraction places of a number when no option sets a limit. -/
def usualPlaces : Float := 3.0

/-- The options with a limit on fraction places, if they name none. -/
def withLimit (options : Options) : Options :=
  if options.contains "maximumFractionDigits" then options
  else options.insert "maximumFractionDigits" (.number usualPlaces)

/-- The backend that follows the locale data of a library. -/
def backend (library : PluralLibrary) : Backend where
  numberFormat _ options :=
    let options := withLimit options
    .ok fun value => decimalText value options (some ',')
  dateFormat := Backend.basic.dateFormat
  pluralSelector := pluralSelector library

end Fluent.Format.Cldr
