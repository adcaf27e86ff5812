import Fluent.Format.Cldr
import Fluent.Proofs.Locale.Lookup

/-!
# Whose plural rules are taken

The backend that follows the locale data asks a library for the plural rules of one locale: the one
that serves the requested locales among those that the library lists, or English.

* `pluralLocale_cases`, `pluralLocale_listed`: which locale that is;
* `PluralLibrary.Complete`: a library that has the rules it lists, and those of English;
* `exists_pluralSelector`: such a library is never asked in vain.
-/

namespace Fluent

/-- A library can give the rules of a kind for the locale that a name stands for. -/
def PluralLibrary.HasRules (library : PluralLibrary) (kind : PluralKind) (name : String) : Prop :=
  ∃ locale select, library.locale? name = some locale ∧ library.rules kind locale = .ok select

/-- A library with the rules of all locales that it lists, by their names in canonical form, and
with those of English. -/
structure PluralLibrary.Complete (library : PluralLibrary) : Prop where
  english (kind : PluralKind) : library.HasRules kind "en"
  listed (kind : PluralKind) {name : String} (member : name ∈ library.locales kind)
    {tag : LanguageTag} (parsed : LanguageTag.parse name = .ok tag) :
    library.HasRules kind tag.normalized

namespace LanguageTag

variable {requested available : List LanguageTag} {tag found : LanguageTag}

theorem mem_of_serve? (hit : serve? available tag = some found) : found ∈ available := by
  obtain ⟨_, -, hit⟩ := List.exists_of_findSome?_eq_some hit
  exact List.mem_of_find?_eq_some hit

theorem mem_of_lookup (hit : lookup requested available = some found) : found ∈ available := by
  obtain ⟨_, -, hit⟩ := List.exists_of_findSome?_eq_some hit
  exact mem_of_serve? hit

end LanguageTag

namespace Format.Cldr

variable {library : PluralLibrary} {kind : PluralKind}

theorem mem_ruledTags {tag : LanguageTag} :
    tag ∈ ruledTags library kind ↔
      ∃ name ∈ library.locales kind, LanguageTag.parse name = .ok tag := by
  rw [ruledTags, List.mem_filterMap]
  refine exists_congr fun name => and_congr_right fun _ => ?_
  cases LanguageTag.parse name <;> simp [Except.toOption]

/-- The rules that are taken are those of a locale that the library lists, or of English. -/
theorem pluralLocale_cases (requested : List LanguageTag) :
    pluralLocale library kind requested = "en" ∨
      ∃ name ∈ library.locales kind, ∃ tag, LanguageTag.parse name = .ok tag ∧
        pluralLocale library kind requested = tag.normalized := by
  rw [pluralLocale]
  cases hit : LanguageTag.lookup requested (ruledTags library kind) with
  | none => exact .inl rfl
  | some tag =>
    obtain ⟨name, member, parsed⟩ := mem_ruledTags.mp (LanguageTag.mem_of_lookup hit)
    exact .inr ⟨name, member, tag, parsed, rfl⟩

/-- A locale that the library lists has its own rules taken, if it is the first requested one. -/
theorem pluralLocale_listed {name : String} (member : name ∈ library.locales kind)
    {tag : LanguageTag} (parsed : LanguageTag.parse name = .ok tag) (others : List LanguageTag) :
    pluralLocale library kind (tag :: others) = tag.normalized := by
  have offered : ∀ tag ∈ ruledTags library kind, tag.Parsed := fun tag isThere =>
    have ⟨name, _, parsed⟩ := mem_ruledTags.mp isThere
    ⟨name, parsed⟩
  have isThere : tag ∈ ruledTags library kind := mem_ruledTags.mpr ⟨name, member, parsed⟩
  rw [pluralLocale, LanguageTag.lookup, List.findSome?_cons,
    LanguageTag.serve?_of_mem offered isThere]

/-- The backend refuses plural rules to no one if its library is complete. -/
theorem exists_pluralSelector (complete : library.Complete) (requested : List LanguageTag)
    (options : Options) :
    ∃ select, (backend library).pluralSelector requested options = .ok select := by
  have rules : library.HasRules (pluralKind options)
      (pluralLocale library (pluralKind options) requested) := by
    obtain english | ⟨name, member, tag, parsed, listed⟩ := pluralLocale_cases requested
    · exact english ▸ complete.english _
    · exact listed ▸ complete.listed _ member parsed
  obtain ⟨locale, select, known, had⟩ := rules
  exact ⟨_, by simp only [backend, pluralSelector, known, had]; rfl⟩

end Format.Cldr

end Fluent
