import Fluent.Refusal
import Fluent.Text.Space

/-!
# Language tags

A language tag is a sequence of subtags of ASCII letters and digits; the first names the language.
`LanguageTag.parse` reads a tag with hyphens or underscores between the subtags and gives it
canonical case: the language and all other subtags lower case, the script with a capital first, the
region in capitals. From the first subtag of one character on, subtags are kept but take no part in
lookup.
-/

namespace Fluent

/-- A language tag in canonical case, and those of its subtags that take part in lookup. -/
structure LanguageTag where
  normalized : String
  matchSubtags : List String
  deriving DecidableEq, Repr

namespace LanguageTag

/-- The subtag that names the language. -/
def language (tag : LanguageTag) : String := tag.matchSubtags.headD ""

/-- The characters that stand between subtags in a tag as it is read. -/
def isSeparator (c : Char) : Bool := c == '-' || c == '_'

/-- Four letters name a script. -/
def isScript (subtag : List Char) : Bool := subtag.length == 4 && subtag.all Char.isAlpha

/-- Two letters or three digits name a region. -/
def isRegion (subtag : List Char) : Bool :=
  (subtag.length == 2 && subtag.all Char.isAlpha) ||
    (subtag.length == 3 && subtag.all Char.isDigit)

/-- Two to eight letters name a language. -/
def isLanguage (subtag : List Char) : Bool :=
  2 ≤ subtag.length && subtag.length ≤ 8 && subtag.all Char.isAlpha

/-- The subtag in lower case but for its first letter. -/
def titleCase : List Char → List Char
  | [] => []
  | c :: rest => c.toUpper :: rest.map Char.toLower

/-- What has been seen of a tag: its script, its region, a subtag of one character. -/
structure Seen where
  script : Bool
  region : Bool
  singleton : Bool

/-- The canonical form of a subtag after the language, and what has been seen with it. -/
def canonical (seen : Seen) (subtag : List Char) : List Char × Seen :=
  if subtag.length = 1 then (subtag.map Char.toLower, { seen with singleton := true })
  else if !seen.singleton && !seen.script && isScript subtag then
    (titleCase subtag, { seen with script := true })
  else if !seen.singleton && !seen.region && isRegion subtag then
    (subtag.map Char.toUpper, { seen with region := true })
  else (subtag.map Char.toLower, seen)

/-- Refuses a subtag that is empty or holds anything but ASCII letters and digits. -/
def checkSubtag (subtag : List Char) : Except Refusal Unit :=
  if subtag.isEmpty then .error (.invalidInput "language tag has empty subtag")
  else if subtag.all Char.isAlphanum then .ok ()
  else .error (.invalidInput "language tag has invalid characters")

/-- The canonical subtags after the language, each with whether it takes part in lookup. -/
def readSubtags (seen : Seen) : List (List Char) → Except Refusal (List (List Char × Bool))
  | [] => .ok []
  | subtag :: rest => do
    checkSubtag subtag
    let (form, seen) := canonical seen subtag
    let others ← readSubtags seen rest
    return (form, !seen.singleton) :: others

/-- The tag of canonical subtags, each with whether it takes part in lookup. -/
def ofSubtags (subtags : List (List Char × Bool)) : LanguageTag where
  normalized := String.ofList (List.intercalate ['-'] (subtags.map Prod.fst))
  matchSubtags := (subtags.filter Prod.snd).map fun subtag => String.ofList subtag.1

/-- Reads a language tag; white space around it is ignored. -/
def parse (input : String) : Except Refusal LanguageTag := do
  let text := Text.trim input.toList
  if text.isEmpty then throw (.invalidInput "language tag is empty")
  match Text.pieces isSeparator text with
  | [] => throw (.invalidInput "language tag is empty")
  | language :: rest =>
    checkSubtag language
    if !isLanguage language then throw (.invalidInput "invalid language subtag")
    let others ← readSubtags ⟨false, false, false⟩ rest
    return ofSubtags ((language.map Char.toLower, true) :: others)

end LanguageTag

end Fluent
