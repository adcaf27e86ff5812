import Fluent.Bundle.Format
import Fluent.Format.Cldr
import Fluent.Store.Settings
import Fluent.Store.Source
import Fluent.Text.Dedent

/-!
# Stores of bundles

A store keeps one bundle for each pair of a locale, in canonical form, and a namespace. A bundle is
made anew whenever its resource is added. `translate` formats what a key names and falls back to the
key.
-/

namespace Fluent

/-- Bundles by locale and namespace, all made with the same options. -/
structure BundleStore where
  settings : Settings
  options : BundleOptions
  bundles : Table (Table Bundle)

namespace BundleStore

/-- A store without bundles, whose bundles will have the given options. -/
def withOptions (settings : Settings) (options : BundleOptions) : BundleStore :=
  ⟨settings, options, ∅⟩

/-- A store without bundles, whose bundles will follow the locale data of a library and the
settings. -/
def empty (library : PluralLibrary) (settings : Settings) : BundleStore :=
  withOptions settings { isolating := settings.isolating, backend := Format.Cldr.backend library }

/-- The store with a bundle for a locale in canonical form and a namespace. -/
def put (store : BundleStore) (locale space : String) (bundle : Bundle) : BundleStore :=
  { store with
    bundles := store.bundles.insert locale ((store.bundles[locale]?.getD ∅).insert space bundle) }

/-- The bundle for a locale in canonical form and a namespace. -/
def get? (store : BundleStore) (locale space : String) : Option Bundle :=
  store.bundles[locale]?.bind fun bundles => bundles[space]?

/-- Makes the bundle for a locale and a namespace from a text, in place of any earlier one. The text
is dedented first. -/
def create (store : BundleStore) (locale space text : String) :
    Except StoreError (BundleStore × List Problem) :=
  match LanguageTag.parse locale with
  | .error refusal => .error (.refused refusal)
  | .ok tag =>
    let (bundle, problems) := (Bundle.empty [tag] store.options).addMessages (Text.dedent text)
    .ok (store.put tag.normalized space bundle, problems)

/-- Makes the bundle for a locale and a namespace from what a source has for them, and tells whether
the source has anything. -/
def add (store : BundleStore) (source : Source) (locale space : String) :
    Except StoreError (BundleStore × Bool) := do
  match ← source locale space with
  | none => return (store, false)
  | some text =>
    let (store, _) ← store.create locale space text
    return (store, true)

/-- Adds one pair of a locale and a namespace after the other and counts those that the source has
something for. It stops at the first error and keeps what was added before. -/
def addAll (store : BundleStore) (source : Source) :
    List (String × String) → BundleStore × Except StoreError Nat
  | [] => (store, .ok 0)
  | (locale, space) :: rest =>
    match store.add source locale space with
    | .error error => (store, .error error)
    | .ok (store, added) =>
      let (store, count) := store.addAll source rest
      (store, count.map fun count => if added then count + 1 else count)

/-- The pairs to load for languages and namespaces: the languages that are not always loaded, and
then those that are, each with every namespace, or with the default one if none is named. -/
def loadOrder (settings : Settings) (languages spaces : List String) : List (String × String) :=
  let spaces := if spaces.isEmpty then [settings.defaultNamespace] else spaces
  let languages := languages.filter (fun language => !settings.preload.contains language) ++
    settings.preload
  languages.flatMap fun language => spaces.map fun space => (language, space)

/-- Loads the namespaces of languages from a source. -/
def load (store : BundleStore) (source : Source) (languages spaces : List String) :
    BundleStore × Except StoreError Nat :=
  store.addAll source (loadOrder store.settings languages spaces)

/-- The bundle for a locale, however its tag is written, and a namespace. -/
def bundle? (store : BundleStore) (locale space : String) : Option Bundle :=
  match LanguageTag.parse locale with
  | .ok tag => store.get? tag.normalized space
  | .error _ => none

/-- The id that a key names and the attribute after it. The attribute ends at a further point, and
what comes after that is passed over. -/
def splitKey (key : String) : String × Option String :=
  match Text.pieces (· == '.') key.toList with
  | id :: name :: _ => (String.ofList id, some (String.ofList name))
  | _ => (key, none)

/-- The message that a key names. -/
def message? (store : BundleStore) (locale space key : String) : Option Entry := do
  let bundle ← store.bundle? locale space
  bundle.message? (splitKey key).1

/-- What a key names in a bundle: a message, or an attribute of one. -/
def target? (bundle : Bundle) (key : String) : Option Target :=
  match splitKey key with
  | (id, none) => bundle.messageTarget? id
  | (id, some name) => bundle.attributeTarget? id name

/-- The store with a bundle for a locale, however its tag is written, and a namespace. -/
def replace (store : BundleStore) (locale space : String) (bundle : Bundle) : BundleStore :=
  match LanguageTag.parse locale with
  | .ok tag => store.put tag.normalized space bundle
  | .error _ => store

/-- The text that a key names, or the key itself where there is none, and the store after that,
whose bundle keeps the formatters that were built. -/
def translation (store : BundleStore) (locale space key : String) (bindings : Option Variables) :
    BundleStore × String :=
  match store.bundle? locale space with
  | none => (store, key)
  | some bundle =>
    match target? bundle key with
    | none => (store, key)
    | some target =>
      let formatted := bundle.format bindings target []
      (store.replace locale space { bundle with formatters := formatted.formatters },
        formatted.text.getD key)

/-- The text that a key names, or the key itself where there is none. -/
def translate (store : BundleStore) (locale space key : String) (bindings : Option Variables) :
    String :=
  (store.translation locale space key bindings).2

end BundleStore

end Fluent
