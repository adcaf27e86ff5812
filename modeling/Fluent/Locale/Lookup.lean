import Fluent.Locale.Tag

/-!
# Lookup of a supported language

Each requested tag is tried as it stands and then by its matching subtags, shortened from the end
until one subtag is left. The first requested tag with any supported form decides.
-/

namespace Fluent

namespace LanguageTag

/-- The forms under which a requested tag is looked up: its matching subtags, all of them first and
then without the last, down to the language. -/
def shortened (subtags : List String) : List String :=
  (List.range subtags.length).map fun dropped =>
    "-".intercalate (subtags.take (subtags.length - dropped))

/-- The first available tag of the given normalized form. -/
def find? (available : List LanguageTag) (normalized : String) : Option LanguageTag :=
  available.find? fun candidate => candidate.normalized == normalized

/-- The available tag that serves one requested tag. -/
def serve? (available : List LanguageTag) (requested : LanguageTag) : Option LanguageTag :=
  (requested.normalized :: shortened requested.matchSubtags).findSome? (find? available)

/-- The available tag that serves the first requested tag for which there is one. -/
def lookup (requested available : List LanguageTag) : Option LanguageTag :=
  requested.findSome? (serve? available)

end LanguageTag

end Fluent
