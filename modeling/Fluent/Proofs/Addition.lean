import Fluent.Bundle.Basic
import Fluent.Proofs.Places

/-!
# Adding resources to a bundle

A bundle keeps the entry that the first resource defines for an id, and a resource keeps the one
that its text defines last. Later resources change nothing of what a bundle holds; their definitions
of ids that are taken are reported.

* `entryOf_addEntries`, `addEntries_problems`: what adding entries does to a bundle;
* `definition?_eq`: what a resource defines for an id, by the items of its text;
* `first_definition_kept`: what a bundle holds and reports after any resources.
-/

namespace Fluent

open Std (ExtTreeMap)

/-! ## Entries -/

namespace Bundle

variable (bundle : Bundle)

theorem entryOf_insert (id : String) (entry : Entry) (id' : String) :
    (bundle.insert id entry).entryOf? id' =
      if id = id' then some entry else bundle.entryOf? id' := by
  by_cases h : id = id'
  · subst h
    simp only [entryOf?, insert]
    cases EntryKind.ofId id <;> simp
  · simp only [entryOf?, insert, if_neg h]
    cases EntryKind.ofId id <;> cases EntryKind.ofId id' <;> simp [ExtTreeMap.getElem?_insert, h]

/-- Every entry is in the table of its kind. -/
def Sorted : Prop :=
  (∀ id ∈ bundle.terms, EntryKind.ofId id = .term) ∧
    ∀ id ∈ bundle.messages, EntryKind.ofId id = .message

variable {bundle}

theorem Sorted.insert (sorted : bundle.Sorted) (id : String) (entry : Entry) :
    (bundle.insert id entry).Sorted := by
  unfold Bundle.insert
  cases kind : EntryKind.ofId id with
  | term =>
    refine ⟨fun id' hm => ?_, sorted.2⟩
    obtain hm | hm := ExtTreeMap.mem_insert.mp hm
    · rwa [← compare_eq_iff_eq.mp hm]
    · exact sorted.1 id' hm
  | message =>
    refine ⟨sorted.1, fun id' hm => ?_⟩
    obtain hm | hm := ExtTreeMap.mem_insert.mp hm
    · rwa [← compare_eq_iff_eq.mp hm]
    · exact sorted.2 id' hm

/-- What each insertion of an entry keeps is kept when entries are added. -/
theorem addEntries_induction {P : Bundle → Prop}
    (inserted : ∀ bundle id entry, bundle.entryOf? id = none → P bundle →
      P (bundle.insert id entry))
    (holds : P bundle) (entries : List (String × Entry)) : P (bundle.addEntries entries).1 := by
  induction entries generalizing bundle with
  | nil => exact holds
  | cons pair entries ih =>
    rw [addEntries]
    split
    · exact ih holds
    · exact ih (inserted _ _ _ (Option.not_isSome_iff_eq_none.mp ‹_›) holds)

/-- An entry that is held is kept, and of new ones the first. -/
theorem entryOf_addEntries (entries : List (String × Entry)) (id : String) :
    (bundle.addEntries entries).1.entryOf? id = (bundle.entryOf? id).or (entries.lookup id) := by
  induction entries generalizing bundle with
  | nil => simp [addEntries]
  | cons pair entries ih =>
    obtain ⟨name, entry⟩ := pair
    rw [addEntries, List.lookup_cons]
    split
    · rename_i held
      rw [ih]
      by_cases h : id = name
      · subst h
        simp [Option.or_of_isSome held]
      · rw [beq_false_of_ne h]
    · rename_i free
      rw [ih, entryOf_insert]
      by_cases h : name = id
      · subst h
        simp [Option.not_isSome_iff_eq_none.mp free]
      · rw [if_neg h, beq_false_of_ne (Ne.symm h)]

/-- Of entries with different ids those are reported whose ids are taken. -/
theorem addEntries_problems {entries : List (String × Entry)}
    (distinct : (entries.map Prod.fst).Nodup) :
    (bundle.addEntries entries).2 =
      ((entries.map Prod.fst).filter fun id => (bundle.entryOf? id).isSome).map fun id =>
        .overriding (EntryKind.ofId id) id := by
  induction entries generalizing bundle with
  | nil => rfl
  | cons pair entries ih =>
    obtain ⟨name, entry⟩ := pair
    obtain ⟨fresh, distinct⟩ := List.nodup_cons.mp distinct
    rw [addEntries, List.map_cons, List.filter_cons]
    split
    · simp only [ih distinct, List.map_cons]
    · rw [ih distinct]
      -- The entry that has been inserted is none of the others.
      congr 1
      refine List.filter_congr fun id hm => ?_
      rw [entryOf_insert, if_neg fun h => fresh (by rwa [h])]

end Bundle

/-! ## Texts -/

namespace Grammar

/-- The entry that an item defines for an id. -/
def Item.definition? (id : String) : Item → Option Entry
  | .entry name read => if name = id then some read else none
  | .failure _ => none

/-- Of the definitions of an id in a text the last one is kept. -/
theorem getElem?_foldl_definition (found : List Item) (id : String) :
    (found.foldl Item.addTo ∅)[id]? = found.reverse.findSome? (Item.definition? id) := by
  induction found with
  | nil => simp
  | cons item found ih =>
    rw [List.foldl_cons, Resource.getElem?_foldl_addTo, ih, List.reverse_cons,
      List.findSome?_append]
    congr 1
    cases item with
    | entry name read =>
      by_cases h : name = id <;>
        simp [Item.addTo, Item.definition?, h]
    | failure failure => simp [Item.addTo, Item.definition?]

/-- The errors of a text are listed in the order of their places. -/
theorem Resource.parse_errors_ordered (source : String) :
    (parse source).errors.Pairwise fun earlier later => earlier.offset ≤ later.offset :=
  (parse_errors_apart source).imp Nat.le_of_lt

end Grammar

open Grammar (Item items)

/-! ## Additions -/

/-- What is added to a bundle: the entries of a text, or a resource. -/
inductive Addition where
  | text (source : String)
  | resource (added : Grammar.Resource)

namespace Addition

/-- The entry that is defined for an id, in a text the last one. -/
def definition? (id : String) : Addition → Option Entry
  | .text source => (items true source.toList).reverse.findSome? (Item.definition? id)
  | .resource added => added.entries[id]?

/-- The errors of what is added, in a text in the order of its items. -/
def errors : Addition → List Grammar.ParseError
  | .text source => (items true source.toList).filterMap (Item.error? source.toList)
  | .resource added => added.errors

/-- The resource that is added. -/
def toResource : Addition → Grammar.Resource
  | .text source => .parse source
  | .resource added => added

variable (addition : Addition)

theorem definition?_eq (id : String) :
    addition.definition? id = addition.toResource.entries[id]? := by
  cases addition with
  | text source =>
    rw [definition?, toResource, Grammar.Resource.parse_entries,
      Grammar.getElem?_foldl_definition]
  | resource => rfl

theorem errors_eq : addition.errors = addition.toResource.errors := by
  cases addition <;> rfl

end Addition

namespace Bundle

/-- Adds a text or a resource. -/
def extend (bundle : Bundle) : Addition → Bundle × List Problem
  | .text source => bundle.addMessages source
  | .resource added => bundle.addResource added

/-- The bundle after additions, one after the other. -/
def extendAll (bundle : Bundle) (additions : List Addition) : Bundle :=
  additions.foldl (fun bundle addition => (bundle.extend addition).1) bundle

variable {bundle : Bundle}

theorem extend_eq (bundle : Bundle) (addition : Addition) :
    bundle.extend addition = bundle.addResource addition.toResource := by
  cases addition <;> rfl

theorem addResource_entryOf (bundle : Bundle) (resource : Grammar.Resource) (id : String) :
    (bundle.addResource resource).1.entryOf? id =
      (bundle.entryOf? id).or resource.entries[id]? :=
  (entryOf_addEntries _ id).trans (by rw [Table.lookup_toList])

theorem addResource_problems (bundle : Bundle) (resource : Grammar.Resource) :
    (bundle.addResource resource).2 = resource.errors.map .grammar ++
      (resource.entries.keys.filter fun id => (bundle.entryOf? id).isSome).map fun id =>
        .overriding (EntryKind.ofId id) id := by
  have distinct := resource.entries.nodup_keys
  rw [← ExtTreeMap.map_fst_toList_eq_keys] at distinct ⊢
  exact congrArg (resource.errors.map Problem.grammar ++ ·) (addEntries_problems distinct)

/-- What each insertion of an entry keeps is kept by additions. -/
theorem extendAll_induction {P : Bundle → Prop}
    (inserted : ∀ bundle id entry, bundle.entryOf? id = none → P bundle →
      P (bundle.insert id entry)) (holds : P bundle) (additions : List Addition) :
    P (bundle.extendAll additions) := by
  induction additions generalizing bundle with
  | nil => exact holds
  | cons addition additions ih =>
    have kept : P (bundle.extend addition).1 := by
      rw [extend_eq]
      exact addEntries_induction inserted holds _
    exact ih kept

/-- What a bundle holds is kept, and of new definitions the first. -/
theorem entryOf_extendAll (bundle : Bundle) (additions : List Addition) (id : String) :
    (bundle.extendAll additions).entryOf? id =
      (bundle.entryOf? id).or (additions.findSome? (Addition.definition? id)) := by
  induction additions generalizing bundle with
  | nil => simp [extendAll]
  | cons addition additions ih =>
    have step := ih (bundle.extend addition).1
    rw [extend_eq, addResource_entryOf, ← Addition.definition?_eq, Option.or_assoc,
      ← extend_eq] at step
    refine step.trans ?_
    rw [List.findSome?_cons]
    cases addition.definition? id <;> rfl

/-- In a bundle to which texts and resources have been added, the terms are those whose ids start
with a hyphen; the entry for an id is that of the first addition that defines it, whatever is added
later; and each further addition reports its errors, in a text in the order of their places, and
then, in the order of ids, each id that is taken. -/
theorem first_definition_kept (locales : List LanguageTag) (options : BundleOptions)
    (additions : List Addition) :
    let bundle := (Bundle.empty locales options).extendAll additions
    (∀ id ∈ bundle.terms, id.toList.head? = some '-') ∧
    (∀ id ∈ bundle.messages, id.toList.head? ≠ some '-') ∧
    (∀ id, bundle.entryOf? id = additions.findSome? (Addition.definition? id)) ∧
    (∀ more id entry, bundle.entryOf? id = some entry →
      (bundle.extendAll more).entryOf? id = some entry) ∧
    ∀ addition, (∀ source, addition = .text source →
        addition.errors.Pairwise fun earlier later => earlier.offset ≤ later.offset) ∧
      ∃ taken : List String, taken.Pairwise (· < ·) ∧
        (∀ id, id ∈ taken ↔ (addition.definition? id).isSome ∧ (bundle.entryOf? id).isSome) ∧
        (bundle.extend addition).2 = addition.errors.map .grammar ++
          taken.map fun id => .overriding (EntryKind.ofId id) id := by
  intro bundle
  have sorted : bundle.Sorted :=
    extendAll_induction (fun _ id entry _ sorted => sorted.insert id entry)
      ⟨by simp [empty], by simp [empty]⟩ _
  refine ⟨fun id hm => ?_, fun id hm => ?_, fun id => ?_, fun more id entry held => ?_,
    fun addition => ⟨?_, addition.toResource.entries.keys.filter fun id =>
      (bundle.entryOf? id).isSome, ?_, fun id => ?_, ?_⟩⟩
  · have kind := sorted.1 id hm
    unfold EntryKind.ofId at kind
    split at kind
    · assumption
    · cases kind
  · have kind := sorted.2 id hm
    unfold EntryKind.ofId at kind
    split at kind
    · cases kind
    · assumption
  · have bare : (empty locales options).entryOf? id = none := by
      unfold entryOf?
      split <;> simp [empty]
    rw [entryOf_extendAll, bare, Option.none_or]
  · rw [entryOf_extendAll, held, Option.some_or]
  · rintro source rfl
    exact Grammar.Resource.parse_errors_ordered source
  · exact (Table.keys_ascending _).filter _
  · rw [List.mem_filter, ExtTreeMap.mem_keys, ExtTreeMap.mem_iff_isSome_getElem?,
      Addition.definition?_eq]
  · rw [extend_eq, addResource_problems, Addition.errors_eq]

end Bundle

end Fluent
