import Mathlib
import Fluent.Proofs.Items
import Fluent.Proofs.Soundness.Placeable

/-!
# Resources are sound

Whatever the text of a resource, its entries keep the rules of the grammar.

* `AttributesSound`: what each round of attributes keeps;
* `yields_message`: an entry as it is read;
* `entry_of_parse`: what holds of every entry that can be read holds of the entries of a resource;
* `parse_sound`: the entries of every resource are sound.
-/

namespace Fluent.Grammar

open Fluent.Grammar.Parser Fluent.Text.Reader

/-- An attribute as it is read. -/
def AttributeSound (name : String) (value : Pattern) : Prop :=
  isName name.toList = true ∧ InnerPattern deepestNesting value

/-- Attributes as they are read. -/
def AttributesSound (attributes : Table Pattern) : Prop :=
  ∀ (name : String) value, attributes[name]? = some value → AttributeSound name value

/-- There is an attribute. -/
def HasAttribute (attributes : Table Pattern) : Prop :=
  ∃ (name : String) (value : Pattern), attributes[name]? = some value

theorem hasAttribute_insert (attributes : Table Pattern) (name : String) (value : Pattern) :
    HasAttribute (attributes.insert name value) :=
  ⟨name, value, Std.ExtTreeMap.getElem?_insert_self⟩

theorem AttributesSound.insert {attributes : Table Pattern} (sound : AttributesSound attributes)
    {name : String} {value : Pattern} (one : AttributeSound name value) :
    AttributesSound (attributes.insert name value) := by
  intro other found h
  rw [Std.ExtTreeMap.getElem?_insert] at h
  split at h
  · rename_i same
    obtain rfl := Option.some_inj.mp h
    exact Std.LawfulEqCmp.eq_of_compare same ▸ one
  · exact sound other found h

theorem yields_namedPattern : Yields namedPattern fun read => AttributeSound read.1 read.2 := by
  refine yields_bind fun _ => yields_identifier.bind fun name hn => yields_bind fun _ =>
    yields_bind fun _ => yields_bind fun _ =>
      (yields_innerPattern deepestNesting).bind fun value hv => ?_
  cases value with
  | none => exact yields_fail _
  | some value => exact yields_bind fun _ => yields_bind fun _ => yields_pure ⟨hn, hv value rfl⟩

/-- A round adds an attribute or none, and one if there is one on the line. -/
theorem attributeRound_cases {attributes : Table Pattern} {text rest : List Char}
    {next : Round (Table Pattern)} (read : attributeRound attributes text = .ok (next, rest)) :
    (∃ name value, AttributeSound name value ∧ next.state = attributes.insert name value) ∨
      ¬StartsAttribute text ∧ next.state = attributes := by
  rw [attributeRound_apply] at read
  dsimp only at read
  split at read
  · split at read
    · refine .inl ?_
      obtain ⟨one, mid, named, read⟩ := exists_of_bind_ok read
      obtain ⟨rfl, -⟩ := Prod.mk.inj (Except.ok.inj read)
      exact ⟨_, _, yields_namedPattern _ _ _ named, rfl⟩
    · rename_i other
      obtain ⟨rfl, -⟩ := Prod.mk.inj (Except.ok.inj read)
      exact .inr ⟨fun starts => other starts.2, rfl⟩
  · rename_i other
    obtain ⟨rfl, -⟩ := Prod.mk.inj (Except.ok.inj read)
    exact .inr ⟨fun starts => other starts.1, rfl⟩

theorem yields_attributeRound (attributes : Table Pattern)
    (sound : AttributesSound attributes ∧ HasAttribute attributes) :
    Yields (attributeRound attributes)
      fun next => AttributesSound next.state ∧ HasAttribute next.state := by
  intro text next rest read
  obtain ⟨name, value, one, same⟩ | ⟨-, same⟩ := attributeRound_cases read
  · exact same ▸ ⟨sound.1.insert one, hasAttribute_insert _ _ _⟩
  · exact same ▸ sound

theorem yields_attributes? : Yields attributes? fun read =>
    ∀ attributes, read = some attributes → AttributesSound attributes ∧ HasAttribute attributes := by
  intro text read rest hr attributes found
  rw [attributes?_apply] at hr
  dsimp only at hr
  split at hr
  · rename_i indented
    split at hr
    · rename_i point
      obtain ⟨last, mid, rounds, hr⟩ := exists_of_bind_ok hr
      obtain ⟨rfl, -⟩ := Prod.mk.inj (Except.ok.inj hr)
      obtain rfl := Option.some_inj.mp found
      refine iterate_yields yields_attributeRound (fun next mid first => ?_) rounds
      obtain ⟨name, value, one, same⟩ | ⟨other, -⟩ := attributeRound_cases first
      · have none : AttributesSound ∅ := fun name value h => by simp at h
        exact same ▸ ⟨none.insert one, hasAttribute_insert _ _ _⟩
      · exact absurd ⟨indented, point⟩ other
    · obtain ⟨rfl, -⟩ := Prod.mk.inj (Except.ok.inj hr)
      cases found
  · obtain ⟨rfl, -⟩ := Prod.mk.inj (Except.ok.inj hr)
    cases found

/-! ## Entries -/

/-- The patterns of an entry keep within the room for braces. -/
def FitsRoom (entry : Entry) : Prop :=
  ∀ pattern, entry.Holds pattern → InnerPattern deepestNesting pattern

theorem FitsRoom.inner {entry : Entry} (fits : FitsRoom entry) {pattern : Pattern}
    {steps : List Step} {node : Node} (held : entry.Holds pattern)
    (leads : (Node.pattern pattern).Leads steps node) :
    node.Sound ∧ steps.count .placeable ≤ deepestNesting :=
  (fits pattern held steps node leads).imp_right And.left

theorem sound_text {id text : String} (named : isEntryId id.toList = true)
    (inner : InnerPattern deepestNesting (.text text)) :
    (Entry.text text).Sound id ∧ FitsRoom (.text text) := by
  have fits : FitsRoom (.text text) := by
    rintro pattern (_ | _ | held)
    · exact inner
    · cases held
  refine ⟨?_, fits⟩
  constructor
  case named => exact named
  case term => exact nofun
  case filled => exact nofun
  case plain => exact nofun
  case names => exact nofun
  case inner => exact fun _ _ _ => fits.inner

theorem sound_node {id : String} {value : Option Pattern} {attributes : Option (Table Pattern)}
    (named : isEntryId id.toList = true) (term : EntryKind.ofId id = .term → value ≠ none)
    (inner : ∀ pattern, value = some pattern → InnerPattern deepestNesting pattern)
    (sound : ∀ table, attributes = some table → AttributesSound table ∧ HasAttribute table)
    (more : attributes = none → ∃ parts, value = some (.elements parts)) :
    (Entry.node value attributes).Sound id ∧ FitsRoom (.node value attributes) := by
  have held (name : String) (found : Pattern)
      (h : (Entry.node value attributes).attribute? name = some found) :
      AttributeSound name found := by
    cases attributes with
    | none => cases h
    | some table => exact (sound table rfl).1 name found h
  have fits : FitsRoom (.node value attributes) := by
    rintro pattern (_ | _ | h)
    · exact inner pattern rfl
    · exact (held _ pattern h).2
  refine ⟨?_, fits⟩
  constructor
  case named => exact named
  case term =>
    rintro kind _ ⟨⟩
    exact term kind rfl
  case filled =>
    rintro _ ⟨⟩
    cases attributes with
    | none => exact nomatch more rfl
    | some table => exact (sound table rfl).2
  case plain =>
    rintro text _ ⟨⟩
    cases attributes with
    | none => exact nomatch more rfl
    | some table => exact (sound table rfl).2
  case names => exact fun name found h => (held name found h).1
  case inner => exact fun _ _ _ => fits.inner

/-- What is read as an entry is sound and keeps within the room for braces. -/
theorem yields_message : Yields message fun read => read.2.Sound read.1 ∧ FitsRoom read.2 := by
  refine yields_entryIdentifier.bind fun id named => yields_bind fun _ => yields_bind fun _ =>
    yields_bind fun _ => (yields_innerPattern deepestNesting).bind fun value inner => ?_
  refine .choice (fun _ => yields_fail _) fun term => ?_
  refine yields_attributes?.bind fun attributes sound => ?_
  split
  · exact yields_pure (sound_text named (inner _ rfl))
  · exact yields_fail _
  · rename_i plain none
    have valued : EntryKind.ofId id = .term → value ≠ .none := by
      rintro kind rfl
      exact term ⟨kind, rfl⟩
    refine yields_pure (sound_node named valued inner sound fun empty => ?_)
    cases value with
    | none => exact (none rfl empty).elim
    | some value =>
      cases value with
      | text text => exact (plain text rfl empty).elim
      | elements parts => exact ⟨parts, rfl⟩

/-! ## Resources -/

variable {P : String → Entry → Prop}

theorem attempt_entry (yields : Yields message fun read => P read.1 read.2) {lineStart : Bool}
    {start : List Char} {id : String} {entry : Entry}
    (found : .entry id entry ∈ (attempt lineStart start).1) : P id entry := by
  have read : Yields (entryOrComment lineStart) fun read =>
      ∀ id entry, read = some (id, entry) → P id entry := by
    refine .choice (fun _ => yields_bind fun text => .choice (fun _ => ?_) fun _ => ?_)
      fun _ => yields_fail _
    · exact yields_bind fun _ => yields_pure nofun
    · refine yields.bind fun read holds => yields_pure ?_
      rintro id entry ⟨⟩
      exact holds
  rw [attempt] at found
  split at found
  · cases found
  · rename_i h
    cases List.mem_singleton.mp found
    exact read _ _ _ h _ _ rfl
  · exact nomatch List.mem_singleton.mp found

/-- What holds of every entry that can be read holds of the entries found in a text. -/
theorem items_entry (yields : Yields message fun read => P read.1 read.2) {lineStart : Bool}
    {text : List Char} {id : String} {entry : Entry}
    (found : .entry id entry ∈ items lineStart text) : P id entry := by
  induction lineStart, text using attempts_induction with
  | blank lineStart text ih =>
    rw [items_dropWhile] at found
    exact ih found
  | ended => simp at found
  | attempted lineStart c text hc ih =>
    rw [items_cons lineStart hc, List.mem_append] at found
    exact found.elim (attempt_entry yields) ih

theorem foldl_addTo_entry {entries : Table Entry} {found : List Item} {id : String} {entry : Entry}
    (h : (found.foldl Item.addTo entries)[id]? = some entry) :
    entries[id]? = some entry ∨ .entry id entry ∈ found := by
  induction found generalizing entries with
  | nil => exact .inl h
  | cons item found ih =>
    obtain held | one := ih h
    · cases item with
      | failure failure => exact .inl held
      | entry other read =>
        rw [Item.addTo, Std.ExtTreeMap.getElem?_insert] at held
        split at held
        · rename_i same
          obtain rfl := Option.some_inj.mp held
          exact .inr (Std.LawfulEqCmp.eq_of_compare same ▸ List.mem_cons_self)
        · exact .inl held
    · exact .inr (List.mem_cons_of_mem _ one)

/-- What holds of every entry that can be read holds of the entries of a resource. -/
theorem entry_of_parse (yields : Yields message fun read => P read.1 read.2) {source id : String}
    {entry : Entry} (held : (Resource.parse source).entries[id]? = some entry) : P id entry := by
  rw [Resource.parse_entries] at held
  obtain none | found := foldl_addTo_entry held
  · simp at none
  · exact items_entry yields found

/-- The entries of every resource keep the rules of the grammar. -/
theorem parse_sound {source id : String} {entry : Entry}
    (held : (Resource.parse source).entries[id]? = some entry) : entry.Sound id :=
  entry_of_parse (P := fun id entry => entry.Sound id) (yields_message.mono fun _ => And.left) held

/-- A message with one variant. -/
def oneVariant : Entry :=
  .node (some (.elements [.placeable (.select (.variableRef "x")
    [.mk (.keyword "one") (.text "One")] (some 0))])) none

theorem parse_sound_oneVariant :
    (Resource.parse "a = \x7b $x ->\n   *[one] One\n\x7d\n").entries["a"]? = some oneVariant ∧
      oneVariant.Sound "a" :=
  have held : (Resource.parse "a = \x7b $x ->\n   *[one] One\n\x7d\n").entries["a"]? =
      some oneVariant := by cbv
  ⟨held, parse_sound held⟩

end Fluent.Grammar
