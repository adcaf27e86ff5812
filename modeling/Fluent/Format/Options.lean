import Fluent.Table
import Fluent.Text.Quoted
import Fluent.Number.Decimal
import Fluent.Number.Reading

/-!
# Option sets

Numbers and dates carry options by name, such as `minimumFractionDigits`. An option can be read as
a text, a count or a flag; a value that cannot be read that way counts as absent. The key of an
option set (`cacheKey`) names the formatter that is built for it.
-/

namespace Fluent.Format

/-- The value of one option. -/
inductive OptionValue where
  | text (value : String)
  | number (value : Float)
  | flag (value : Bool)
  deriving DecidableEq

/-- Options by name. -/
abbrev Options : Type := Table OptionValue

/-- The text of an option value as it stands in a key: its kind and, between parentheses, the
quoted text, the marked number or the flag. -/
def OptionValue.keyText : OptionValue → List Char
  | .text value => ['S', 't', 'r', '('] ++ Text.quoted value.toList ++ [')']
  | .number value => ['N', 'u', 'm', '('] ++ Number.markedText value ++ [')']
  | .flag value => ['B', 'o', 'o', 'l', '('] ++ (if value then "true" else "false").toList ++ [')']

namespace Options

/-- The option as a text. -/
def text? (options : Options) (name : String) : Option String :=
  match options[name]? with
  | some (.text value) => some value
  | _ => none

/-- The option as a count: a finite number that is not negative, without its fraction, or a text
that stands for a count, white space around it aside. -/
def count? (options : Options) (name : String) : Option Nat :=
  match options[name]? with
  | some (.number value) =>
    if value.isFinite && 0.0 ≤ value then some (Number.toCount value) else none
  | some (.text value) => Number.readCount? (Text.trim value.toList)
  | _ => none

/-- The option as a flag; the texts `true` and `false` count as flags. -/
def flag? (options : Options) (name : String) : Option Bool :=
  match options[name]? with
  | some (.flag value) => some value
  | some (.text value) =>
    if value = "true" then some true else if value = "false" then some false else none
  | _ => none

/-- The options with every option of `other` put over them. -/
def merge (options other : Options) : Options := Table.overlay options other

/-- The key of an option set: each name with the text of its value, in order of names. -/
def cacheKey (options : Options) : String :=
  String.ofList (options.toList.flatMap fun option =>
    option.1.toList ++ '=' :: option.2.keyText ++ [';'])

end Options

end Fluent.Format
