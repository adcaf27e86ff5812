import Fluent.Locale.Lookup
import Fluent.Proofs.Locale.Tag
import Mathlib.Data.List.Induction

/-!
# Who is served by which tag

Lookup compares texts, yet what it finds can be said of subtags: an available tag serves a requested
one if it is that tag, or if its subtags stand at the front of those that take part in lookup. The
first requested tag that is served by any decides; it is served by itself if it is available, and
otherwise by as many subtags as there are.

* `Serves`: whether a tag serves a requested one;
* `Best`: the tag that serves it best;
* `lookup_negotiates`: what is found.
-/

namespace Fluent.LanguageTag

/-- A tag that was read from a text. -/
def Parsed (tag : LanguageTag) : Prop := ∃ text, parse text = .ok tag

/-- An available tag serves a requested one that is the same, or whose subtags for lookup start with
all its own. -/
def Serves (requested candidate : LanguageTag) : Prop :=
  candidate = requested ∨ candidate.subtags <+: requested.matchSubtags

/-- Of the available tags, the one that serves a requested tag best: the requested tag itself if it
is there, or else one with as many subtags as there are; and the first of its normalized form. -/
structure Best (available : List LanguageTag) (requested found : LanguageTag) : Prop where
  first : ∃ before after, available = before ++ found :: after ∧
    ∀ tag ∈ before, tag.normalized ≠ found.normalized
  exact : requested ∈ available → found = requested
  longest : requested ∉ available → found.subtags <+: requested.matchSubtags ∧
    ∀ tag ∈ available, tag.subtags <+: requested.matchSubtags →
      tag.subtags.length ≤ found.subtags.length

theorem Best.mem {available : List LanguageTag} {requested found : LanguageTag}
    (best : Best available requested found) : found ∈ available := by
  obtain ⟨before, after, rfl, -⟩ := best.first
  simp

theorem Best.serves {available : List LanguageTag} {requested found : LanguageTag}
    (best : Best available requested found) : Serves requested found := by
  by_cases isThere : requested ∈ available
  · exact .inl (best.exact isThere)
  · exact .inr (best.longest isThere).1

/-! ## Tags by their texts -/

section

variable {tag tag' : LanguageTag}

theorem Parsed.parse_normalized (parsed : tag.Parsed) : parse tag.normalized = .ok tag := by
  obtain ⟨text, parsed⟩ := parsed
  obtain ⟨read, made⟩ := madeOf_of_parse parsed
  exact made.parse_normalized

/-- Tags of one normalized form are the same. -/
theorem Parsed.eq_of_normalized (parsed : tag.Parsed) (parsed' : tag'.Parsed)
    (same : tag.normalized = tag'.normalized) : tag = tag' :=
  Except.ok.inj ((same ▸ parsed.parse_normalized).symm.trans parsed'.parse_normalized)

theorem Parsed.front (parsed : tag.Parsed) {front : List String} (some : front ≠ [])
    (isFront : front <+: tag.matchSubtags) :
    parse ("-".intercalate front) = .ok ⟨"-".intercalate front, front⟩ ∧
      (⟨"-".intercalate front, front⟩ : LanguageTag).subtags = front := by
  obtain ⟨text, parsed⟩ := parsed
  obtain ⟨read, made⟩ := madeOf_of_parse parsed
  obtain ⟨read', made', names⟩ := made.front some isFront
  exact ⟨made'.parse_normalized, made'.subtags_eq.trans names.symm⟩

/-- The text of subtags at the front of a tag is that of no other subtags. -/
theorem Parsed.normalized_eq_iff (parsed : tag.Parsed) {front : List String} (some : front ≠ [])
    (isFront : front <+: tag.matchSubtags) :
    tag'.normalized = "-".intercalate front ↔ tag'.subtags = front := by
  constructor
  · intro same
    refine Eq.trans ?_ (parsed.front some isFront).2
    rw [subtags, subtags, same]
  · rintro rfl
    exact (intercalate_subtags tag').symm

theorem subtags_ne_nil (tag : LanguageTag) : tag.subtags ≠ [] := by
  rw [subtags, Text.pieces_eq_splitOn, Ne, List.map_eq_nil_iff]
  exact List.splitOn_ne_nil _ _

end

/-! ## Searches -/

section

variable {available : List LanguageTag} {requested found : LanguageTag}

theorem find?_eq_none {normalized : String} :
    find? available normalized = none ↔ ∀ tag ∈ available, tag.normalized ≠ normalized := by
  simp [find?]

theorem find?_eq_some {normalized : String} (h : find? available normalized = some found) :
    found.normalized = normalized ∧ ∃ before after, available = before ++ found :: after ∧
      ∀ tag ∈ before, tag.normalized ≠ found.normalized := by
  obtain ⟨same, before, after, split, others⟩ := List.find?_eq_some_iff_append.mp h
  obtain rfl := beq_iff_eq.mp same
  exact ⟨rfl, before, after, split, fun tag member => by simpa using others tag member⟩

theorem shortened_concat (front : List String) (last : String) :
    shortened (front ++ [last]) = "-".intercalate (front ++ [last]) :: shortened front := by
  rw [shortened, List.length_append, List.length_singleton, List.range_succ_eq_map, List.map_cons,
    List.map_map, shortened]
  refine congrArg₂ List.cons ?_ (List.map_congr_left fun dropped _ => ?_)
  · rw [List.take_of_length_le (by simp)]
  · rw [Function.comp_apply, Nat.succ_eq_add_one, Nat.add_sub_add_right,
      List.take_append_of_le_length (Nat.sub_le _ _)]

theorem mem_shortened {text : String} {subtags : List String} :
    text ∈ shortened subtags ↔
      ∃ front, front ≠ [] ∧ front <+: subtags ∧ "-".intercalate front = text := by
  induction subtags using List.reverseRecOn with
  | nil => simp [shortened]
  | append_singleton subtags last ih =>
    rw [shortened_concat, List.mem_cons, ih]
    constructor
    · rintro (rfl | ⟨front, some, isFront, rfl⟩)
      · exact ⟨_, by simp, List.prefix_refl _, rfl⟩
      · exact ⟨front, some, isFront.trans (List.prefix_append _ _), rfl⟩
    · rintro ⟨front, some, isFront, rfl⟩
      obtain rfl | isFront := List.prefix_concat_iff.mp isFront
      · exact .inl rfl
      · exact .inr ⟨front, some, isFront, rfl⟩

/-- The search among shortened subtags finds the tag of the longest front for which there is one. -/
theorem findSome?_shortened {subtags : List String}
    (hit : (shortened subtags).findSome? (find? available) = some found) :
    ∃ front, front ≠ [] ∧ front <+: subtags ∧
      find? available ("-".intercalate front) = some found ∧
      ∀ longer, longer <+: subtags → front.length < longer.length →
        find? available ("-".intercalate longer) = none := by
  induction subtags using List.reverseRecOn with
  | nil => cases hit
  | append_singleton subtags last ih =>
    rw [shortened_concat, List.findSome?_cons] at hit
    cases whole : find? available ("-".intercalate (subtags ++ [last])) with
    | some tag =>
      rw [whole] at hit
      cases hit
      refine ⟨subtags ++ [last], by simp, List.prefix_refl _, whole, fun longer isFront more => ?_⟩
      exact absurd isFront.length_le (not_le.mpr more)
    | none =>
      rw [whole] at hit
      obtain ⟨front, nonempty, isFront, hit, longest⟩ := ih hit
      refine ⟨front, nonempty, isFront.trans (List.prefix_append _ _), hit,
        fun longer isFront more => ?_⟩
      obtain rfl | isFront := List.prefix_concat_iff.mp isFront
      · exact whole
      · exact longest longer isFront more

end

/-! ## What is found -/

section

variable {requested found : LanguageTag} {available : List LanguageTag}

theorem find?_of_mem {tag : LanguageTag} (offered : ∀ tag ∈ available, tag.Parsed)
    (isThere : tag ∈ available) : find? available tag.normalized = some tag := by
  cases hit : find? available tag.normalized with
  | none => exact absurd rfl (find?_eq_none.mp hit tag isThere)
  | some found =>
    have member : found ∈ available := List.mem_of_find?_eq_some hit
    obtain ⟨same, -⟩ := find?_eq_some hit
    rw [(offered found member).eq_of_normalized (offered tag isThere) same]

/-- A requested tag that is available finds itself. -/
theorem serve?_of_mem (offered : ∀ tag ∈ available, tag.Parsed) (isThere : requested ∈ available) :
    serve? available requested = some requested := by
  rw [serve?, List.findSome?_cons, find?_of_mem offered isThere]

theorem serve?_of_not_mem (wanted : requested.Parsed) (offered : ∀ tag ∈ available, tag.Parsed)
    (absent : requested ∉ available) :
    serve? available requested =
      (shortened requested.matchSubtags).findSome? (find? available) := by
  have miss : find? available requested.normalized = none :=
    find?_eq_none.mpr fun tag member same => absent ((offered tag member).eq_of_normalized wanted same ▸ member)
  rw [serve?, List.findSome?_cons, miss]

/-- One requested tag finds nothing if and only if no available tag serves it. -/
theorem serve?_eq_none (wanted : requested.Parsed) (offered : ∀ tag ∈ available, tag.Parsed) :
    serve? available requested = none ↔ ∀ tag ∈ available, ¬Serves requested tag := by
  constructor
  · intro miss tag member serves
    by_cases isThere : requested ∈ available
    · rw [serve?_of_mem offered isThere] at miss
      cases miss
    rw [serve?_of_not_mem wanted offered isThere, List.findSome?_eq_none_iff] at miss
    obtain rfl | isFront := serves
    · exact isThere member
    · refine find?_eq_none.mp (miss tag.normalized ?_) tag member rfl
      exact mem_shortened.mpr ⟨_, subtags_ne_nil tag, isFront, intercalate_subtags tag⟩
  · intro serves
    rw [serve?_of_not_mem wanted offered fun isThere => serves requested isThere (.inl rfl),
      List.findSome?_eq_none_iff]
    intro text short
    obtain ⟨front, some, isFront, rfl⟩ := mem_shortened.mp short
    refine find?_eq_none.mpr fun tag member same => serves tag member (.inr ?_)
    rwa [(wanted.normalized_eq_iff some isFront).mp same]

/-- What one requested tag finds is the best for it. -/
theorem serve?_best (wanted : requested.Parsed) (offered : ∀ tag ∈ available, tag.Parsed)
    (hit : serve? available requested = some found) : Best available requested found := by
  by_cases isThere : requested ∈ available
  · obtain rfl : requested = found :=
      Option.some.inj ((serve?_of_mem offered isThere).symm.trans hit)
    exact ⟨(find?_eq_some (find?_of_mem offered isThere)).2, fun _ => rfl, absurd isThere⟩
  · rw [serve?_of_not_mem wanted offered isThere] at hit
    obtain ⟨front, nonempty, isFront, hit, longest⟩ := findSome?_shortened hit
    obtain ⟨same, first⟩ := find?_eq_some hit
    have subtags : found.subtags = front := (wanted.normalized_eq_iff nonempty isFront).mp same
    refine ⟨first, fun there => absurd there isThere, fun _ => ⟨subtags ▸ isFront, ?_⟩⟩
    intro tag member isFront'
    refine not_lt.mp fun longer => ?_
    refine find?_eq_none.mp (longest _ isFront' (subtags ▸ longer)) tag member ?_
    exact (intercalate_subtags tag).symm

/-- **Lookup.** The first requested tag that any available tag serves decides what is found, and it
finds the best for it. The subtags at the front of a tag, up to the last that takes part in lookup,
are themselves a tag, whose text is read as it stands; so if it is available, under whatever
spelling it was read, it is found. -/
theorem lookup_negotiates {requested available : List LanguageTag}
    (wanted : ∀ tag ∈ requested, tag.Parsed) (offered : ∀ tag ∈ available, tag.Parsed) :
    (lookup requested available = none ↔
      ∀ tag ∈ requested, ∀ candidate ∈ available, ¬Serves tag candidate) ∧
    (∀ found, lookup requested available = some found → found ∈ available ∧
      ∃ before tag after, requested = before ++ tag :: after ∧ Serves tag found ∧
        Best available tag found ∧
        ∀ earlier ∈ before, ∀ candidate ∈ available, ¬Serves earlier candidate) ∧
    ∀ tag ∈ requested, ∀ front, front ≠ [] → front <+: tag.matchSubtags →
      parse ("-".intercalate front) = .ok ⟨"-".intercalate front, front⟩ ∧
      ∀ text candidate, SameSpelling text ("-".intercalate front) → parse text = .ok candidate →
        candidate ∈ available →
          Serves tag candidate ∧ find? available ("-".intercalate front) = some candidate ∧
          (lookup requested available).isSome := by
  have miss : lookup requested available = none ↔
      ∀ tag ∈ requested, ∀ candidate ∈ available, ¬Serves tag candidate := by
    rw [lookup, List.findSome?_eq_none_iff]
    exact forall₂_congr fun tag member => serve?_eq_none (wanted tag member) offered
  refine ⟨miss, fun found hit => ?_, fun tag member front some isFront => ?_⟩
  · obtain ⟨before, tag, after, rfl, hit, earlier⟩ := List.findSome?_eq_some_iff.mp hit
    have best : Best available tag found := serve?_best (wanted tag (by simp)) offered hit
    refine ⟨best.mem, before, tag, after, rfl, best.serves, best, fun other member => ?_⟩
    exact (serve?_eq_none (wanted other (by simp [member])) offered).mp (earlier other member)
  · obtain ⟨reads, whole⟩ := (wanted tag member).front some isFront
    refine ⟨reads, fun text candidate same parsed isThere => ?_⟩
    rw [parse_congr same, reads] at parsed
    obtain rfl := Except.ok.inj parsed
    have serves : Serves tag ⟨"-".intercalate front, front⟩ :=
      .inr (by rwa [whole])
    refine ⟨serves, find?_of_mem offered isThere, Option.isSome_iff_ne_none.mpr fun none => ?_⟩
    exact miss.mp none tag member _ isThere serves

/-- Spanish is the best there is for the Spanish of Peru. -/
theorem lookup_negotiates_spanish :
    let available : List LanguageTag := [⟨"en", ["en"]⟩, ⟨"es", ["es"]⟩]
    lookup [⟨"es-PE-x-lima", ["es", "PE"]⟩] available = some ⟨"es", ["es"]⟩ ∧
      Best available ⟨"es-PE-x-lima", ["es", "PE"]⟩ ⟨"es", ["es"]⟩ := by
  intro available
  have wanted : ∀ tag ∈ [(⟨"es-PE-x-lima", ["es", "PE"]⟩ : LanguageTag)], tag.Parsed := by
    simpa using ⟨" es_pe-X-Lima", rfl⟩
  have offered : ∀ tag ∈ available, tag.Parsed := by
    simpa [available] using And.intro ⟨"EN", rfl⟩ ⟨"es", rfl⟩
  have hit : lookup [⟨"es-PE-x-lima", ["es", "PE"]⟩] available = some ⟨"es", ["es"]⟩ := rfl
  obtain ⟨-, before, tag, after, split, -, best, -⟩ :=
    (lookup_negotiates wanted offered).2.1 _ hit
  obtain ⟨-, rfl, -⟩ := List.append_eq_singleton_iff.mp split.symm |>.resolve_right (by simp)
  exact ⟨hit, best⟩

end

end Fluent.LanguageTag
