import Mathlib.Data.List.Sort
import Fluent.Proofs.Formatters
import Fluent.Proofs.Table

/-!
# Option sets that share a key

Values are quoted in a key, names are not. A name that goes on where the value of another one would
stand can be mistaken for that value, and then two option sets have one key and one formatter.
There is no other way to share a key, so option sets without such names are told apart.

* `keyPart_cases`, `cacheKey_diverges`: where two keys part;
* `cacheKey_merged`: names that are mistaken for values;
* `obtainAll_eq`, `obtainAll_shared`: formatters that are asked for one after the other;
* `cacheKey_tells`: option sets that keys tell apart.
-/

namespace Fluent

/-- The table of pairs in ascending order of names lists them. -/
theorem Table.toList_ofPairs {α : Type} {pairs : List (String × α)}
    (ascending : pairs.Pairwise fun pair pair' => pair.1 < pair'.1) :
    (ofPairs pairs).toList = pairs := by
  let before (pair pair' : String × α) : Prop := pair.1 < pair'.1
  have irrefl : Std.Irrefl before := ⟨fun pair => lt_irrefl pair.1⟩
  have antisymm : Std.Antisymm before := ⟨fun _ _ h h' => absurd h' (lt_asymm h)⟩
  have ordered : (ofPairs pairs).toList.Pairwise before :=
    Std.ExtTreeMap.ordered_keys_toList.imp compare_lt_iff_lt.mp
  have filled : ofPairs pairs = Std.ExtTreeMap.insertMany ∅ pairs :=
    Std.ExtTreeMap.insertMany_list_eq_foldl.symm
  have distinct : pairs.Pairwise fun pair pair' => ¬ compare pair.1 pair'.1 = .eq :=
    ascending.imp fun less same => less.ne (Std.compare_eq_iff_eq.mp same)
  have holds {name : String} {value : α} (mem : (name, value) ∈ pairs) :
      (ofPairs pairs)[name]? = some value := by
    rw [filled]
    exact Std.ExtTreeMap.getElem?_insertMany_list_of_mem Std.ReflCmp.compare_self distinct mem
  refine ordered.eq_of_mem_iff ascending ?_
  rintro ⟨name, value⟩
  rw [Std.ExtTreeMap.mem_toList_iff_getElem?_eq_some]
  refine ⟨fun held => ?_, holds⟩
  by_cases listed : name ∈ pairs.map Prod.fst
  · obtain ⟨⟨name, value'⟩, mem, rfl⟩ := List.mem_map.mp listed
    obtain rfl := Option.some_inj.mp (held.symm.trans (holds mem))
    exact mem
  · rw [filled, Std.ExtTreeMap.getElem?_insertMany_list_of_contains_eq_false (by simpa using listed),
      Std.ExtTreeMap.getElem?_empty] at held
    cases held

namespace Format

/-! ## Where keys part -/

namespace OptionValue

/-- How the texts of values start in a key. -/
def openings : List (List Char) := ["Str(".toList, "Num(".toList, "Bool(".toList]

theorem keyText_opening (value : OptionValue) : ∃ opening ∈ openings, opening <+: value.keyText := by
  cases value with
  | text value => exact ⟨"Str(".toList, by decide, _, (List.append_assoc ..).symm⟩
  | number value => exact ⟨"Num(".toList, by decide, _, (List.append_assoc ..).symm⟩
  | flag value => exact ⟨"Bool(".toList, by decide, _, (List.append_assoc ..).symm⟩

theorem openings_plain : ∀ opening ∈ openings, '=' ∉ opening := by decide

end OptionValue

open OptionValue (openings)

namespace Options

/-- A name goes on, behind another one, with an equals sign and the start of a value. -/
def Continues (name longer : String) : Prop :=
  ∃ opening ∈ openings, name.toList ++ '=' :: opening <+: longer.toList

instance (name longer : String) : Decidable (Continues name longer) :=
  inferInstanceAs (Decidable (∃ opening ∈ openings, _))

/-- A name that is read where another one and its value stand goes on with the start of a value. -/
theorem continues_of_append {name longer : String} {more rest rest' : List Char}
    {value : OptionValue} (names : longer.toList = name.toList ++ more) (some : more ≠ [])
    (values : '=' :: (value.keyText ++ rest) = more ++ '=' :: rest') : Continues name longer := by
  obtain ⟨opening, mem, body, text⟩ := value.keyText_opening
  cases more with
  | nil => exact absurd rfl some
  | cons first more =>
    obtain ⟨rfl, texts⟩ := List.cons.inj values
    rw [← text, List.append_assoc] at texts
    have inside : opening <+: more := by
      obtain ⟨between, split, -⟩ | ⟨between, split, tail⟩ := List.append_eq_append_iff.mp texts
      · exact ⟨between, split.symm⟩
      · cases between with
        | nil => exact ⟨[], by rw [split, List.append_nil, List.append_nil]⟩
        | cons c between =>
          obtain ⟨rfl, -⟩ := List.cons.inj tail
          refine absurd ?_ (OptionValue.openings_plain opening mem)
          simp [split]
    obtain ⟨others, rfl⟩ := inside
    exact ⟨opening, mem, others, by simp [names]⟩

/-- Two options in front of a key are the same, or one name goes on behind the other. -/
theorem keyPart_cases {option option' : String × OptionValue} {rest rest' : List Char}
    (same : keyPart option ++ rest = keyPart option' ++ rest') :
    option = option' ∧ rest = rest' ∨ Continues option.1 option'.1 ∨ Continues option'.1 option.1 := by
  obtain ⟨name, value⟩ := option
  obtain ⟨name', value'⟩ := option'
  simp only [keyPart, List.append_assoc, List.cons_append, List.nil_append] at same
  by_cases names : name = name'
  · obtain rfl := names
    obtain ⟨rfl, rests⟩ := OptionValue.keyText_selfDelimiting _ _ _ _ trivial trivial
      (List.cons.inj (List.append_cancel_left same)).2
    exact .inl ⟨rfl, (List.cons.inj rests).2⟩
  · have differ {more : List Char} {name name' : String} (names : name ≠ name')
        (split : name'.toList = name.toList ++ more) : more ≠ [] := by
      rintro rfl
      exact names (String.toList_inj.mp (by rw [split, List.append_nil]))
    obtain ⟨more, split, values⟩ | ⟨more, split, values⟩ := List.append_eq_append_iff.mp same
    · exact .inr (.inl (continues_of_append split (differ names split) values))
    · exact .inr (.inr (continues_of_append split (differ (Ne.symm names) split) values))

/-- Lists of options with the same text are the same up to options of which one name goes on behind
the other. -/
theorem flatMap_keyPart_diverges {list list' : List (String × OptionValue)}
    (same : list.flatMap keyPart = list'.flatMap keyPart) (differ : list ≠ list') :
    ∃ common option option' rest rest', list = common ++ option :: rest ∧
      list' = common ++ option' :: rest' ∧
      (Continues option.1 option'.1 ∨ Continues option'.1 option.1) := by
  have some (option : String × OptionValue) (text : List Char) : keyPart option ++ text ≠ [] := by
    simp [keyPart]
  induction list generalizing list' with
  | nil =>
    cases list' with
    | nil => exact absurd rfl differ
    | cons option' list' => exact absurd same.symm (some _ _)
  | cons option list ih =>
    cases list' with
    | nil => exact absurd same (some _ _)
    | cons option' list' =>
      rw [List.flatMap_cons, List.flatMap_cons] at same
      obtain ⟨rfl, rests⟩ | continues := keyPart_cases same
      · obtain ⟨common, first, first', rest, rest', rfl, rfl, continues⟩ :=
          ih rests (fun lists => differ (congrArg _ lists))
        exact ⟨option :: common, first, first', rest, rest', rfl, rfl, continues⟩
      · exact ⟨[], option, option', list, list', rfl, rfl, continues⟩

theorem cacheKey_diverges {options options' : Options} (same : options.cacheKey = options'.cacheKey)
    (differ : options ≠ options') :
    ∃ common option option' rest rest', options.toList = common ++ option :: rest ∧
      options'.toList = common ++ option' :: rest' ∧
      (Continues option.1 option'.1 ∨ Continues option'.1 option.1) :=
  flatMap_keyPart_diverges (String.ofList_injective same)
    fun lists => differ (Std.ExtTreeMap.toList_inj.mp lists)

theorem not_continues_self (name : String) : ¬ Continues name name := by
  rintro ⟨opening, -, longer⟩
  have lengths := longer.length_le
  simp at lengths

/-- Two option sets with the same names, or such that no name of one goes on behind a name of the
other where the value of that would stand. -/
def Apart (options options' : Options) : Prop :=
  options.keys = options'.keys ∨
    ∀ name ∈ options, ∀ name' ∈ options', ¬ Continues name name' ∧ ¬ Continues name' name

/-- Option sets that are apart are the same if their keys are. -/
theorem Apart.eq_of_cacheKey {options options' : Options} (apart : Apart options options')
    (same : options.cacheKey = options'.cacheKey) : options = options' := by
  by_contra differ
  obtain ⟨common, option, option', rest, rest', list, list', continues⟩ :=
    cacheKey_diverges same differ
  obtain names | far := apart
  · rw [← Std.ExtTreeMap.map_fst_toList_eq_keys, ← Std.ExtTreeMap.map_fst_toList_eq_keys, list,
      list', List.map_append, List.map_append, List.append_cancel_left_eq, List.map_cons] at names
    rw [(List.cons.inj names).1, or_self] at continues
    exact not_continues_self _ continues
  · have held {options : Options} {option : String × OptionValue} (mem : option ∈ options.toList) :
        option.1 ∈ options := by
      rw [Std.ExtTreeMap.mem_iff_isSome_getElem?,
        Std.ExtTreeMap.mem_toList_iff_getElem?_eq_some.mp mem]
      rfl
    obtain ⟨forth, back⟩ := far option.1 (held (by simp [list])) option'.1 (held (by simp [list']))
    exact continues.elim forth back

/-! ## Names that are mistaken for values -/

/-- The name that is read where an option and the name of the next one stand. -/
def mergedName (name : String) (value : OptionValue) (next : String) : String :=
  String.ofList (keyPart (name, value) ++ next.toList)

section

variable {name next : String} (less : name < next) (value value' : OptionValue)

include less

theorem toList_pair : Std.ExtTreeMap.toList (Table.ofPairs [(name, value), (next, value')]) =
    [(name, value), (next, value')] :=
  Table.toList_ofPairs (by simpa using less)

/-- Two options have the key of one with the merged name. -/
theorem cacheKey_merged :
    cacheKey (.ofPairs [(name, value), (next, value')]) =
      cacheKey (.ofPairs [(mergedName name value next, value')]) := by
  have single := Table.toList_ofPairs (List.pairwise_singleton (fun pair pair' => pair.1 < pair'.1)
    (mergedName name value next, value'))
  rw [cacheKey, cacheKey, toList_pair less, single, mergedName]
  simp [keyPart]

theorem merged_ne : (.ofPairs [(name, value), (next, value')] : Options) ≠
    .ofPairs [(mergedName name value next, value')] := by
  have single := Table.toList_ofPairs (List.pairwise_singleton (fun pair pair' => pair.1 < pair'.1)
    (mergedName name value next, value'))
  intro same
  have lengths := congrArg (fun options : Options => options.toList.length) same
  simp only [toList_pair less, single] at lengths
  cases lengths

end

end Options

/-! ## Formatters that are asked for one after the other -/

open Options (Apart Continues)

section

variable {φ : Type} (build : Options → Except Refusal φ)

/-- The formatters that are handed out for option sets, one after the other. -/
def obtainAll : Table φ → List Options → List (Except Refusal φ)
  | _, [] => []
  | kept, options :: rest =>
    let (formatter, kept) := obtain kept options.cacheKey fun _ => build options
    formatter :: obtainAll kept rest

variable {build}

/-- Option sets that are apart are served as if nothing were kept. -/
theorem obtainAll_eq {asked : List Options}
    (apart : ∀ options ∈ asked, ∀ options' ∈ asked, Apart options options') :
    obtainAll build ∅ asked = asked.map build := by
  -- Whatever is kept was built for one of the option sets.
  suffices served : ∀ (rest : List Options) (kept : Table φ), rest ⊆ asked →
      (∀ key formatter, kept[key]? = some formatter →
        ∃ options ∈ asked, options.cacheKey = key ∧ build options = .ok formatter) →
      obtainAll build kept rest = rest.map build by
    refine served asked ∅ (List.Subset.refl _) fun key formatter held => ?_
    rw [Std.ExtTreeMap.getElem?_empty] at held
    cases held
  intro rest
  induction rest with
  | nil => exact fun _ _ _ => rfl
  | cons options rest ih =>
    intro kept within built
    obtain ⟨mem, within⟩ := List.cons_subset.mp within
    have first : (obtain kept options.cacheKey fun _ => build options).1 = build options := by
      refine obtain_eq_build fun formatter held => ?_
      obtain ⟨options', mem', key, made⟩ := built _ _ held
      obtain rfl := (apart options' mem' options mem).eq_of_cacheKey key
      exact made
    refine congrArg₂ List.cons first (ih _ within fun key formatter held => ?_)
    obtain held | ⟨same, made⟩ := getElem?_obtain held
    · exact built key formatter held
    · exact ⟨options, mem, same, made⟩

/-- Of two option sets with the same key, the second is handed what was built for the first. -/
theorem obtainAll_shared {options options' : Options} {formatter : φ}
    (same : options.cacheKey = options'.cacheKey) (built : build options = .ok formatter) :
    obtainAll build ∅ [options, options'] = [.ok formatter, .ok formatter] := by
  simp [obtainAll, obtain, same, built]

end

/-- Option sets that are apart have different keys unless they are the same, and each of them is
handed a formatter that was built for it, in whatever order and how often they are asked for. -/
theorem cacheKey_tells {asked : List Options}
    (apart : ∀ options ∈ asked, ∀ options' ∈ asked, Apart options options') :
    (∀ options ∈ asked, ∀ options' ∈ asked,
      options.cacheKey = options'.cacheKey ↔ options = options') ∧
    ∀ (φ : Type) (build : Options → Except Refusal φ),
      obtainAll build ∅ asked = asked.map build :=
  ⟨fun options mem options' mem' => ⟨(apart options mem options' mem').eq_of_cacheKey, congrArg _⟩,
    fun _ _ => obtainAll_eq apart⟩

/-- A flag and a count, and one count under a name that is read like the two. -/
theorem cacheKey_tells_flag :
    let flag : Options := .ofPairs [("a", .flag true)]
    let count : Options := .ofPairs [("a=b", .text "2")]
    let two : Options := .ofPairs [("a", .flag true), ("minimumFractionDigits", .text "2")]
    let one : Options := .ofPairs [("a=Bool(true);minimumFractionDigits", .text "2")]
    let build (options : Options) : Except Refusal (Option Nat) :=
      .ok (options.count? "minimumFractionDigits")
    Apart flag count ∧ flag.cacheKey ≠ count.cacheKey ∧
      obtainAll build ∅ [flag, count, flag] = [flag, count, flag].map build ∧
      two ≠ one ∧ two.cacheKey = one.cacheKey ∧
      obtainAll build ∅ [two, one] = [.ok (some 2), .ok (some 2)] ∧ build one = .ok none := by
  intro flag count two one build
  have only {name name' : String} {value : OptionValue}
      (mem : name ∈ (.ofPairs [(name', value)] : Options)) : name = name' := by
    have same : compare name' name = .eq := by simpa [Table.ofPairs, eq_comm] using mem
    exact (Std.compare_eq_iff_eq.mp same).symm
  have far {name name' : String} {value value' : OptionValue} (forth : ¬ Continues name name')
      (back : ¬ Continues name' name) :
      Apart (.ofPairs [(name, value)]) (.ofPairs [(name', value')]) := by
    refine .inr fun first mem second mem' => ?_
    rw [only mem, only mem']
    exact ⟨forth, back⟩
  have apart : Apart flag count := far (by decide) (by decide)
  have apart' : Apart count flag := far (by decide) (by decide)
  have all : ∀ options ∈ [flag, count, flag], ∀ options' ∈ [flag, count, flag],
      Apart options options' := by
    have self (options : Options) : Apart options options := .inl rfl
    simp only [List.forall_mem_cons]
    simp [apart, apart', self]
  obtain ⟨told, served⟩ := cacheKey_tells all
  have unlike : flag ≠ count := by
    intro same
    have held : "a" ∈ flag := by simp [flag, Table.ofPairs]
    rw [same] at held
    exact absurd (only held) (by decide)
  have less : "a" < "minimumFractionDigits" := by decide
  have same : two.cacheKey = one.cacheKey := Options.cacheKey_merged less (.flag true) (.text "2")
  have places : two.count? "minimumFractionDigits" = some 2 := by decide +kernel
  have noPlaces : one.count? "minimumFractionDigits" = none := by decide +kernel
  have built : build two = .ok (some 2) := congrArg _ places
  have plain : build one = .ok none := congrArg _ noPlaces
  exact ⟨apart, fun same => unlike ((told flag (by simp) count (by simp)).mp same), served _ build,
    Options.merged_ne less (.flag true) (.text "2"), same, obtainAll_shared same built, plain⟩

end Format

end Fluent
