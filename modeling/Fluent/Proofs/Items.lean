import Fluent.Proofs.Progress

/-!
# Resources made of items

The entries and errors of a resource follow from its items.
-/

namespace Fluent.Grammar

/-- The entries with that of an item put over them. -/
def Item.addTo (entries : Table Entry) : Item → Table Entry
  | .entry id read => entries.insert id read
  | .failure _ => entries

/-- The error that an item of a text is. -/
def Item.error? (source : List Char) : Item → Option ParseError
  | .entry _ _ => none
  | .failure found => some (found.locate source)

theorem Resource.parse_entries (source : String) :
    (Resource.parse source).entries = (items true source.toList).foldl Item.addTo ∅ := rfl

theorem Resource.parse_errors (source : String) :
    (Resource.parse source).errors =
      (items true source.toList).filterMap (Item.error? source.toList) := rfl

theorem Resource.mem_parse_errors {source : String} {error : ParseError} :
    error ∈ (Resource.parse source).errors ↔
      ∃ failure, .failure failure ∈ items true source.toList ∧
        failure.locate source.toList = error := by
  rw [parse_errors, List.mem_filterMap]
  constructor
  · rintro ⟨item, hm, he⟩
    cases item with
    | entry => cases he
    | failure failure => exact ⟨failure, hm, Option.some_inj.mp he⟩
  · rintro ⟨failure, hm, rfl⟩
    exact ⟨_, hm, rfl⟩

theorem foldl_addTo_isEmpty {entries : Table Entry} {found : List Item}
    (h : (found.foldl Item.addTo entries).isEmpty = true) :
    entries.isEmpty = true ∧ ∀ id entry, .entry id entry ∉ found := by
  induction found generalizing entries with
  | nil => exact ⟨h, by simp⟩
  | cons item found ih =>
    obtain ⟨he, hf⟩ := ih h
    cases item with
    | entry id entry => simp [Item.addTo] at he
    | failure failure => exact ⟨he, by simpa using hf⟩

/-- Failures add no entries. -/
theorem foldl_addTo_failures {entries : Table Entry} {found : List Item}
    (h : ∀ id entry, .entry id entry ∉ found) : found.foldl Item.addTo entries = entries := by
  induction found with
  | nil => rfl
  | cons item found ih =>
    cases item with
    | entry id entry => exact absurd (List.mem_cons_self ..) (h id entry)
    | failure failure => exact ih fun id entry hm => h id entry (List.mem_cons_of_mem _ hm)

/-- A failure is placed at the end of the text exactly if nothing is left of it. -/
theorem Failure.locate_offset_eq {source : String} {failure : Failure}
    (h : failure.rest <:+ source.toList) :
    (failure.locate source.toList).offset = source.utf8ByteSize ↔ failure.rest = [] := by
  obtain ⟨front, hf⟩ := h
  have hs : source.utf8ByteSize =
      (String.ofList front).utf8ByteSize + (String.ofList failure.rest).utf8ByteSize := by
    rw [← String.utf8ByteSize_append, ← String.ofList_append, hf, String.ofList_toList]
  have ho : (failure.locate source.toList).offset = (String.ofList front).utf8ByteSize := by
    rw [Failure.locate, ← hf, List.length_append, Nat.add_sub_cancel, List.take_left]
  rw [ho, hs, Nat.left_eq_add, String.utf8ByteSize_eq_zero_iff]
  constructor
  · intro he
    rw [← String.toList_ofList (l := failure.rest), he]
    rfl
  · intro he
    rw [he]

end Fluent.Grammar
