import Fluent.Store.Error

/-!
# Settings of a store

Settings are taken from a document that sets names to values. A name that the document does not set
keeps its default, and names that mean nothing here are passed over. How a text spells a document is
left to a reader of documents.
-/

namespace Fluent

/-- The settings of a store: whether placeables stand between direction marks, the namespace used
when none is named, the directory of the resources, and the languages that are always loaded. -/
structure Settings where
  isolating : Bool := false
  defaultNamespace : String := "translation"
  resourceRoot : Option String := none
  preload : List String := []
  deriving DecidableEq, Repr

/-- What a document sets a name to. Of the values only texts, flags and lists matter here. -/
inductive Setting where
  | text (value : String)
  | flag (value : Bool)
  | list (values : List Setting)
  | other

/-- A document: what it sets each name to. -/
abbrev Document : Type := String → Option Setting

/-- A reader of documents, which finds the document that a text spells, if it spells one. -/
abbrev DocumentReader : Type := String → Option Document

namespace Settings

/-- A setting as a text. -/
def asText : Setting → Except StoreError String
  | .text value => .ok value
  | _ => .error .settings

/-- A setting as a flag. -/
def asFlag : Setting → Except StoreError Bool
  | .flag value => .ok value
  | _ => .error .settings

/-- A setting as a list of texts. -/
def asTexts : Setting → Except StoreError (List String)
  | .list values => values.mapM asText
  | _ => .error .settings

/-- What a setting is read as, or its default if it is not made. -/
def readOr {α : Type} (standard : α) (read : Setting → Except StoreError α) :
    Option Setting → Except StoreError α
  | some setting => read setting
  | none => .ok standard

/-- The settings that a document makes. -/
def ofDocument (document : Document) : Except StoreError Settings := do
  let standard : Settings := {}
  return {
    isolating := ← readOr standard.isolating asFlag (document "use_isolating")
    defaultNamespace :=
      ← readOr standard.defaultNamespace asText (document "default_namespace")
    resourceRoot :=
      ← readOr standard.resourceRoot (fun setting => some <$> asText setting)
        (document "resource_root")
    preload := ← readOr standard.preload asTexts (document "preload") }

section

variable (read : DocumentReader)

/-- The settings that a text makes. -/
def parse (text : String) : Except StoreError Settings :=
  match read text with
  | some document => ofDocument document
  | none => .error .settings

/-- The settings in a file, which has to be there. -/
def load (file : Option String) : Except StoreError Settings :=
  match file with
  | some text => parse read text
  | none => .error (.file .notFound)

/-- The settings in a file, or the defaults if there is no file. -/
def loadOrDefault (file : Option String) : Except StoreError Settings :=
  match file with
  | some text => parse read text
  | none => .ok {}

end

end Settings

end Fluent
