import Fluent.Store.Settings
import Mathlib.Data.List.Basic

/-!
# What settings a document makes

A document makes settings if it sets each of four names to what they hold, or does not set it and
they hold the default. What it sets other names to has no part in this.

* `Makes`: the settings that a document makes;
* `ofDocument_eq_ok`: those are taken from it, and no others;
* `ofDocument_toDocument`: there is a document for all settings.
-/

namespace Fluent.Settings

/-- A document sets a name to a value, or does not set it and the value is the default. -/
def Sets {α : Type} (document : Document) (name : String) (spelled : α → Setting)
    (standard value : α) : Prop :=
  document name = some (spelled value) ∨ document name = none ∧ value = standard

/-- A document makes the settings. -/
structure Makes (document : Document) (settings : Settings) : Prop where
  isolating : Sets document "use_isolating" .flag false settings.isolating
  defaultNamespace :
    Sets document "default_namespace" .text "translation" settings.defaultNamespace
  resourceRoot : document "resource_root" = settings.resourceRoot.map .text
  preload : Sets document "preload" (fun texts => .list (texts.map .text)) [] settings.preload

/-- The document that sets every name to what the settings hold. -/
def toDocument (settings : Settings) : Document
  | "use_isolating" => some (.flag settings.isolating)
  | "default_namespace" => some (.text settings.defaultNamespace)
  | "resource_root" => settings.resourceRoot.map .text
  | "preload" => some (.list (settings.preload.map .text))
  | _ => none

/-! ## Single settings -/

section

variable {α β ε : Type}

theorem bind_eq_ok {x : Except ε α} {f : α → Except ε β} {b : β} :
    (x >>= f) = .ok b ↔ ∃ a, x = .ok a ∧ f a = .ok b := by
  cases x <;> simp [bind, Except.bind]

theorem asText_eq_ok {setting : Setting} {value : String} :
    asText setting = .ok value ↔ setting = .text value := by
  cases setting <;> simp [asText]

theorem asFlag_eq_ok {setting : Setting} {value : Bool} :
    asFlag setting = .ok value ↔ setting = .flag value := by
  cases setting <;> simp [asFlag]

theorem mapM_asText_eq_ok {values : List Setting} {texts : List String} :
    values.mapM asText = .ok texts ↔ values = texts.map .text := by
  induction values generalizing texts with
  | nil => cases texts <;> simp [pure, Except.pure]
  | cons value values ih =>
    simp only [List.mapM_cons, bind_eq_ok, asText_eq_ok, ih]
    constructor
    · rintro ⟨text, rfl, others, rfl, same⟩
      cases same
      rfl
    · intro same
      obtain ⟨text, others, rfl, rfl, rfl⟩ := List.map_eq_cons_iff.mp same.symm
      exact ⟨text, rfl, others, rfl, rfl⟩

theorem asTexts_eq_ok {setting : Setting} {texts : List String} :
    asTexts setting = .ok texts ↔ setting = .list (texts.map .text) := by
  cases setting <;> simp [asTexts, mapM_asText_eq_ok]

variable {document : Document} {name : String}

/-- What is read of a name is what the document sets it to, or the default. -/
theorem readOr_eq_ok {read : Setting → Except StoreError α} {spelled : α → Setting}
    (reads : ∀ {setting value}, read setting = .ok value ↔ setting = spelled value)
    {standard value : α} :
    readOr standard read (document name) = .ok value ↔
      Sets document name spelled standard value := by
  rw [Sets]
  cases document name with
  | none => simp [readOr, eq_comm]
  | some setting => simp [readOr, reads]

theorem readOr_optional {value : Option String} :
    readOr none (fun setting => some <$> asText setting) (document name) = .ok value ↔
      document name = value.map .text := by
  cases document name with
  | none => cases value <;> simp [readOr]
  | some setting => cases value <;> cases setting <;> simp [readOr, asText, Functor.map, Except.map]

end

/-! ## All settings -/

/-- The settings that are taken from a document are those that it makes. -/
theorem ofDocument_eq_ok {document : Document} {settings : Settings} :
    ofDocument document = .ok settings ↔ Makes document settings := by
  simp only [ofDocument, bind_eq_ok, readOr_eq_ok asFlag_eq_ok, readOr_eq_ok asText_eq_ok,
    readOr_eq_ok asTexts_eq_ok, readOr_optional]
  constructor
  · rintro ⟨isolating, first, space, second, root, third, preload, fourth, same⟩
    cases same
    exact ⟨first, second, third, fourth⟩
  · rintro ⟨first, second, third, fourth⟩
    exact ⟨_, first, _, second, _, third, _, fourth, rfl⟩

/-- All settings are taken as they are from the document that holds them. -/
theorem ofDocument_toDocument (settings : Settings) :
    ofDocument settings.toDocument = .ok settings :=
  ofDocument_eq_ok.mpr ⟨.inl rfl, .inl rfl, rfl, .inl rfl⟩

end Fluent.Settings
