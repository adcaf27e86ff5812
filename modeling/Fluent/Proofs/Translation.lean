import Fluent.Proofs.Addition
import Fluent.Proofs.Formatting
import Fluent.Proofs.Locale.Lookup
import Fluent.Proofs.Soundness.Resource
import Fluent.Proofs.Store

/-!
# What a key names

A key is the id of a message, or the id and the name of an attribute with a point between them. As
no id or name that is read from a text has a point in it, a key names one thing at most, and
whatever a bundle holds is named by some key. A further point in a key and what follows it are
passed over.

* `Bundle.Names`: what a key names in a bundle;
* `BundleStore.Reached`: the stores that creating bundles and translating lead to;
* `BundleStore.translate_names`: what is translated.
-/

namespace Fluent

/-- What a key names in a bundle: the value of the message with that id, or an attribute of a
message, after whose name there may be a point and anything. -/
inductive Bundle.Names (bundle : Bundle) : String → Target → Prop
  | ofMessage {id : String} {entry : Entry} (held : bundle.message? id = some entry)
      (valued : ¬(Target.entry (some id) entry).Valueless) :
      Names bundle id (.entry (some id) entry)
  | ofAttribute {id name rest : String} {entry : Entry} {pattern : Pattern}
      (held : bundle.message? id = some entry) (has : entry.attribute? name = some pattern)
      (ended : rest = "" ∨ ∃ more, rest = "." ++ more) :
      Names bundle (id ++ "." ++ name ++ rest) (.pattern ⟨some id, some name, []⟩ pattern)

/-! ## Points -/

theorem isName_pointless {name : List Char} (h : isName name = true) : '.' ∉ name := by
  cases name with
  | nil => exact List.not_mem_nil
  | cons c rest =>
    rw [isName, Bool.and_eq_true] at h
    rintro (_ | ⟨_, point⟩)
    · exact absurd h.1 (by decide)
    · exact absurd (List.all_eq_true.mp h.2 _ point) (by decide)

theorem isEntryId_pointless {id : List Char} (h : isEntryId id = true) : '.' ∉ id := by
  unfold isEntryId at h
  split at h
  · rintro (_ | ⟨_, point⟩)
    exact isName_pointless h point
  · exact isName_pointless h

namespace BundleStore

theorem splitKey_pointless {key : String} (pointless : '.' ∉ key.toList) :
    splitKey key = (key, none) := by
  rw [splitKey, Text.pieces_eq_splitOn, List.splitOn_eq_singleton pointless]

/-- A key with a point is split there and at the next one. -/
theorem splitKey_point {id name rest : String} (pointless : '.' ∉ id.toList)
    (pointless' : '.' ∉ name.toList) (ended : rest = "" ∨ ∃ more, rest = "." ++ more) :
    splitKey (id ++ "." ++ name ++ rest) = (id, some name) := by
  have pieces : ∃ others, (name ++ rest).toList.splitOn '.' = name.toList :: others := by
    obtain rfl | ⟨more, rfl⟩ := ended
    · exact ⟨[], by simpa using List.splitOn_eq_singleton pointless'⟩
    · refine ⟨more.toList.splitOn '.', ?_⟩
      rw [String.toList_append, String.toList_append]
      exact List.splitOn_append_cons_self_of_not_mem pointless' _
  obtain ⟨others, pieces⟩ := pieces
  have split : (id ++ "." ++ name ++ rest).toList.splitOn '.' =
      id.toList :: name.toList :: others := by
    rw [String.append_assoc, String.append_assoc, String.toList_append, String.toList_append,
      ← pieces]
    exact List.splitOn_append_cons_self_of_not_mem pointless _
  rw [splitKey, Text.pieces_eq_splitOn, split]
  simp

/-- A key that is split is the parts, a point between them, and what is passed over. -/
theorem eq_of_splitKey {key id name : String} (split : splitKey key = (id, some name)) :
    ∃ rest, key = id ++ "." ++ name ++ rest ∧ (rest = "" ∨ ∃ more, rest = "." ++ more) := by
  have joined : ['.'].intercalate (key.toList.splitOn '.') = key.toList :=
    List.intercalate_splitOn '.'
  rw [splitKey, Text.pieces_eq_splitOn] at split
  split at split
  · rename_i others pieces
    obtain ⟨rfl, same⟩ := Prod.mk.inj split
    obtain rfl := Option.some.inj same
    rw [pieces, List.intercalate_cons_cons] at joined
    cases others with
    | nil => exact ⟨"", by simp [← String.toList_inj, ← joined], .inl rfl⟩
    | cons other others =>
      rw [List.intercalate_cons_cons] at joined
      exact ⟨"." ++ String.ofList (['.'].intercalate (other :: others)),
        by simp [← String.toList_inj, ← joined], .inr ⟨_, rfl⟩⟩
  · cases split

theorem eq_of_splitKey_none {key id : String} (split : splitKey key = (id, none)) : key = id := by
  rw [splitKey] at split
  split at split <;> cases split
  rfl

end BundleStore

/-! ## Bundles -/

namespace Bundle

/-- The messages of a bundle keep the rules of the grammar. -/
def MessagesSound (bundle : Bundle) : Prop :=
  ∀ id entry, bundle.message? id = some entry → entry.Sound id

theorem entryOf_empty (locales : List LanguageTag) (options : BundleOptions) (id : String) :
    (empty locales options).entryOf? id = none := by
  unfold entryOf?
  split <;> simp [empty]

/-- The messages of a bundle that is made from a text keep the rules of the grammar. -/
theorem messagesSound_addMessages (locales : List LanguageTag) (options : BundleOptions)
    (source : String) : ((empty locales options).addMessages source).1.MessagesSound := by
  have sorted : ((empty locales options).addMessages source).1.Sorted :=
    addEntries_induction (fun _ id entry _ sorted => sorted.insert id entry)
      ⟨by simp [empty], by simp [empty]⟩ _
  intro id entry held
  have kind : EntryKind.ofId id = .message :=
    sorted.2 id (Std.ExtTreeMap.mem_iff_isSome_getElem?.mpr (Option.isSome_of_eq_some held))
  have entryOf : ((empty locales options).addMessages source).1.entryOf? id = some entry := by
    rw [entryOf?, kind]
    exact held
  rw [addMessages, addResource_entryOf, entryOf_empty, Option.none_or] at entryOf
  exact Grammar.entry_of_parse (P := fun id entry => entry.Sound id)
    (Grammar.yields_message.mono fun _ => And.left) entryOf

variable {bundle : Bundle} {key : String} {target : Target}

/-- What a key names is what its parts lead to. -/
theorem Names.target? (sound : bundle.MessagesSound) (names : bundle.Names key target) :
    BundleStore.target? bundle key = some target := by
  cases names with
  | ofMessage held valued =>
    rw [BundleStore.target?,
      BundleStore.splitKey_pointless (isEntryId_pointless (sound _ _ held).named)]
    exact congrArg (Option.map _) held
  | ofAttribute held has ended =>
    rw [BundleStore.target?,
      BundleStore.splitKey_point (isEntryId_pointless (sound _ _ held).named)
        (isName_pointless ((sound _ _ held).names _ _ has)) ended]
    simp [attributeTarget?, held, has]

theorem Names.valued (names : bundle.Names key target) : ¬target.Valueless := by
  cases names with
  | ofMessage _ valued => exact valued
  | ofAttribute => exact id

/-- What the parts of a key lead to is what it names, if it has a text. -/
theorem names_of_target? (leads : BundleStore.target? bundle key = some target)
    (valued : ¬target.Valueless) : bundle.Names key target := by
  rw [BundleStore.target?] at leads
  split at leads
  · rename_i id split
    obtain ⟨entry, held, rfl⟩ := Option.map_eq_some_iff.mp leads
    obtain rfl := BundleStore.eq_of_splitKey_none split
    exact .ofMessage held valued
  · rename_i id name split
    obtain ⟨entry, held, leads⟩ := Option.bind_eq_some_iff.mp leads
    obtain ⟨pattern, has, leads⟩ := Option.bind_eq_some_iff.mp leads
    cases leads
    obtain ⟨rest, rfl, ended⟩ := BundleStore.eq_of_splitKey split
    exact .ofAttribute held has ended

end Bundle

/-! ## Stores -/

namespace BundleStore

/-- The stores that creating bundles from texts and translating lead to. -/
inductive Reached (settings : Settings) (options : BundleOptions) : BundleStore → Prop
  | start : Reached settings options (withOptions settings options)
  | create {store next : BundleStore} {locale space text : String} {problems : List Problem}
      (reached : Reached settings options store)
      (created : store.create locale space text = .ok (next, problems)) :
      Reached settings options next
  | translation {store : BundleStore} (locale space key : String) (bindings : Option Variables)
      (reached : Reached settings options store) :
      Reached settings options (store.translation locale space key bindings).1

/-- The bundles of a store are held under the texts of tags, and their messages keep the rules of
the grammar. -/
def Tidy (store : BundleStore) : Prop :=
  ∀ locale space bundle, store.get? locale space = some bundle →
    (∃ tag : LanguageTag, tag.Parsed ∧ tag.normalized = locale) ∧ bundle.MessagesSound

variable {store : BundleStore}

theorem Tidy.put (tidy : store.Tidy) {tag : LanguageTag} (parsed : tag.Parsed) (space : String)
    {bundle : Bundle} (sound : bundle.MessagesSound) :
    (store.put tag.normalized space bundle).Tidy := by
  intro locale space' found held
  rw [get_put] at held
  split at held
  · rename_i same
    cases held
    exact ⟨⟨tag, parsed, same.1⟩, sound⟩
  · exact tidy locale space' found held

theorem bundle?_eq_some {locale space : String} {bundle : Bundle} :
    store.bundle? locale space = some bundle ↔
      ∃ tag, LanguageTag.parse locale = .ok tag ∧
        store.get? tag.normalized space = some bundle := by
  rw [bundle?]
  cases LanguageTag.parse locale <;> simp

theorem Tidy.replace (tidy : store.Tidy) (locale space : String) {bundle : Bundle}
    (sound : bundle.MessagesSound) : (store.replace locale space bundle).Tidy := by
  rw [BundleStore.replace]
  split
  · exact tidy.put ⟨_, ‹_›⟩ space sound
  · exact tidy

theorem Tidy.create (tidy : store.Tidy) {next : BundleStore} {locale space text : String}
    {problems : List Problem} (created : store.create locale space text = .ok (next, problems)) :
    next.Tidy := by
  rw [BundleStore.create] at created
  split at created
  · cases created
  · cases created
    exact tidy.put ⟨_, ‹_›⟩ space (Bundle.messagesSound_addMessages _ _ _)

theorem Tidy.translation (tidy : store.Tidy) (locale space key : String)
    (bindings : Option Variables) : (store.translation locale space key bindings).1.Tidy := by
  rw [BundleStore.translation]
  split
  · exact tidy
  · rename_i bundle found
    split
    · exact tidy
    · obtain ⟨tag, -, held⟩ := bundle?_eq_some.mp found
      -- The messages are the same, whatever formatters are kept.
      exact tidy.replace locale space (tidy _ _ bundle held).2

theorem Reached.tidy {settings : Settings} {options : BundleOptions}
    (reached : store.Reached settings options) : store.Tidy := by
  induction reached with
  | start => exact fun _ _ _ held => by simp [get?, withOptions] at held
  | create _ created ih => exact ih.create created
  | translation locale space key bindings _ ih => exact ih.translation locale space key bindings

/-- A bundle is found under the locale under which it is held. -/
theorem Tidy.bundle?_eq (tidy : store.Tidy) {locale space : String} {bundle : Bundle}
    (held : store.get? locale space = some bundle) :
    store.bundle? locale space = some bundle := by
  obtain ⟨⟨tag, parsed, rfl⟩, -⟩ := tidy _ _ _ held
  exact bundle?_eq_some.mpr ⟨tag, parsed.parse_normalized, held⟩

/-- What is translated is the text of what the parts of the key lead to, or the key. -/
theorem translate_eq (store : BundleStore) (locale space key : String)
    (bindings : Option Variables) :
    store.translate locale space key bindings =
      ((store.bundle? locale space).bind fun bundle => (target? bundle key).bind fun target =>
        (bundle.format bindings target []).text).getD key := by
  rw [translate, BundleStore.translation]
  cases store.bundle? locale space with
  | none => rfl
  | some bundle =>
    dsimp only [Option.bind_some]
    cases target? bundle key <;> rfl

/-- **Translation.** In a store that creating bundles and translating have led to, what a key names
is formatted, and a key that names nothing is given back unchanged. Each bundle is found under the
locale under which it is held, and each of its messages with a value and each attribute of a message
is named by a key. -/
theorem translate_names {settings : Settings} {options : BundleOptions}
    (reached : store.Reached settings options) :
    (∀ locale space key bindings,
      (∀ bundle target, store.bundle? locale space = some bundle → bundle.Names key target →
        (bundle.format bindings target []).text =
          some (store.translate locale space key bindings)) ∧
      ((∀ bundle target, store.bundle? locale space = some bundle → ¬bundle.Names key target) →
        store.translate locale space key bindings = key)) ∧
    ∀ locale space bundle, store.get? locale space = some bundle →
      store.bundle? locale space = some bundle ∧
      ∀ id entry, bundle.message? id = some entry →
        (¬(Target.entry (some id) entry).Valueless →
          bundle.Names id (.entry (some id) entry)) ∧
        ∀ name pattern, entry.attribute? name = some pattern →
          bundle.Names (id ++ "." ++ name) (.pattern ⟨some id, some name, []⟩ pattern) := by
  have tidy : store.Tidy := reached.tidy
  refine ⟨fun locale space key bindings => ⟨fun bundle target found names => ?_, fun unnamed => ?_⟩,
    fun locale space bundle held => ⟨tidy.bundle?_eq held, fun id entry message =>
      ⟨.ofMessage message, fun name pattern has => ?_⟩⟩⟩
  · obtain ⟨tag, -, held⟩ := bundle?_eq_some.mp found
    rw [translate_eq, found, Option.bind_some, names.target? (tidy _ _ _ held).2, Option.bind_some,
      bundle.format_valued bindings names.valued]
    rfl
  · rw [translate_eq]
    cases found : store.bundle? locale space with
    | none => rfl
    | some bundle =>
      cases leads : target? bundle key with
      | none => simp [leads]
      | some target =>
        have valueless : target.Valueless := by
          by_contra valued
          exact unnamed bundle target found (Bundle.names_of_target? leads valued)
        simp [leads, bundle.format_valueless bindings valueless]
  · have named : bundle.Names (id ++ "." ++ name ++ "")
        (.pattern ⟨some id, some name, []⟩ pattern) := .ofAttribute message has (.inl rfl)
    simpa using named

/-- A store with one bundle, whose message has an attribute. -/
def furnished : BundleStore :=
  ((withOptions {} {}).perform (.create "en" "app" "a = A\n    .b = B\n")).1

theorem Reached.perform_create {settings : Settings} {options : BundleOptions}
    (reached : store.Reached settings options) (locale space text : String) :
    (store.perform (.create locale space text)).1.Reached settings options := by
  rw [perform]
  split
  · exact .create reached ‹_›
  · exact reached

theorem furnished_reached : furnished.Reached {} {} :=
  Reached.start.perform_create "en" "app" _

/-- The attribute is translated, and where there is no bundle the key. -/
theorem translate_names_furnished :
    furnished.Reached {} {} ∧ furnished.translate "en" "app" "a.b" none = "B" ∧
      furnished.translate "fr" "app" "a.b" none = "a.b" := by
  have unfound : furnished.bundle? "fr" "app" = none := by cbv
  refine ⟨furnished_reached, by cbv, ?_⟩
  refine ((translate_names furnished_reached).1 "fr" "app" "a.b" none).2
    fun bundle target found => ?_
  rw [unfound] at found
  cases found

/-- The key `a.b.c` is translated, though there is no message with that id and no attribute such
that the key is the id of its message, a point and its name. -/
theorem translate_further_point :
    furnished.Reached {} {} ∧ furnished.translate "en" "app" "a.b.c" none = "B" ∧
      ∃ bundle, furnished.bundle? "en" "app" = some bundle ∧ bundle.message? "a.b.c" = none ∧
        ∀ id name entry, "a.b.c" = id ++ "." ++ name → bundle.message? id = some entry →
          entry.attribute? name = none := by
  have isThere : (furnished.bundle? "en" "app").isSome = true := by cbv
  obtain ⟨bundle, found⟩ := Option.isSome_iff_exists.mp isThere
  obtain ⟨tag, -, stored⟩ := bundle?_eq_some.mp found
  have sound : bundle.MessagesSound := (furnished_reached.tidy _ _ _ stored).2
  refine ⟨furnished_reached, by cbv, bundle, found, ?_, fun id name entry key held => ?_⟩
  · refine Option.eq_none_iff_forall_ne_some.mpr fun entry held => ?_
    exact isEntryId_pointless (sound _ _ held).named (by decide)
  · refine Option.eq_none_iff_forall_ne_some.mpr fun pattern has => ?_
    have points := congrArg (fun key => key.toList.count '.') key
    have pointless : id.toList.count '.' = 0 :=
      List.count_eq_zero.mpr (isEntryId_pointless (sound _ _ held).named)
    have pointless' : name.toList.count '.' = 0 :=
      List.count_eq_zero.mpr (isName_pointless ((sound _ _ held).names _ _ has))
    simp only [String.toList_append, List.count_append, pointless, pointless'] at points
    exact absurd points (by decide)

end BundleStore

end Fluent
