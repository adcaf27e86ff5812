import Fluent.Format.Formatters
import Fluent.Proofs.CacheKey

/-!
# Formatters kept are as good as new

A formatter that is kept was built for the option set of its key, so it makes no difference to a
text whether a formatter is taken from those kept or built anew. The keys of the formatters kept are
those of the option sets for which one has been asked for and built.

* `Faithful`: what is kept was built for its key;
* `Serves`: a step whose result does not depend on what is kept, and which keeps what it has asked
  for;
* `writeNumber_serves`, `writeDate_serves`, `pluralCategory_serves`: the steps of the three kinds.
-/

namespace Fluent.Format

/-- A formatter that is asked for: its kind and its options. -/
structure Request where
  kind : FormatterKind
  options : Options

/-- The backend builds the formatter that is asked for. -/
def Backend.Builds (backend : Backend) (locales : List LanguageTag) (request : Request) : Prop :=
  match request.kind with
  | .number => ∃ format, backend.numberFormat locales request.options = .ok format
  | .date => ∃ format, backend.dateFormat locales request.options = .ok format
  | .plural => ∃ select, backend.pluralSelector locales request.options = .ok select

/-! ## One kind -/

section

variable {φ : Type} {build : Options → Except Refusal φ} {kept : Table φ} {options : Options}

/-- Every formatter kept was built for an option set with the key that it is kept under. -/
def Kept (build : Options → Except Refusal φ) (kept : Table φ) : Prop :=
  ∀ key formatter, kept[key]? = some formatter →
    ∃ options : Options, options.Plain ∧ options.cacheKey = key ∧ build options = .ok formatter

theorem kept_empty : Kept build ∅ := by
  intro key formatter held
  rw [Std.ExtTreeMap.getElem?_empty] at held
  cases held

/-- What is handed out was built for the option set if what is kept under its key was. -/
theorem obtain_eq_build (h : ∀ formatter, kept[options.cacheKey]? = some formatter →
    build options = .ok formatter) :
    (obtain kept options.cacheKey fun _ => build options).1 = build options := by
  unfold obtain
  split
  · exact (h _ ‹_›).symm
  · split <;> exact Eq.symm ‹_›

/-- What is kept afterwards was kept before or has been built. -/
theorem getElem?_obtain {key : String} {formatter : φ}
    (held : (obtain kept options.cacheKey fun _ => build options).2[key]? = some formatter) :
    kept[key]? = some formatter ∨ options.cacheKey = key ∧ build options = .ok formatter := by
  unfold obtain at held
  split at held
  · exact .inl held
  · split at held
    · rw [Std.ExtTreeMap.getElem?_insert] at held
      split at held
      · cases held
        exact .inr ⟨Std.compare_eq_iff_eq.mp ‹_›, ‹_›⟩
      · exact .inl held
    · exact .inl held

theorem obtain_fst (h : Kept build kept) (plain : options.Plain) :
    (obtain kept options.cacheKey fun _ => build options).1 = build options := by
  refine obtain_eq_build fun formatter held => ?_
  obtain ⟨options', plain', key, built⟩ := h _ _ held
  obtain rfl := Options.cacheKey_injective plain' plain key
  exact built

theorem Kept.obtain (h : Kept build kept) (plain : options.Plain) :
    Kept build (obtain kept options.cacheKey fun _ => build options).2 := by
  intro key formatter held
  obtain held | ⟨same, built⟩ := getElem?_obtain held
  · exact h key formatter held
  · exact ⟨options, plain, same, built⟩

theorem mem_obtain {key : String} :
    key ∈ (obtain kept options.cacheKey fun _ => build options).2 ↔
      key ∈ kept ∨ (∃ formatter, build options = .ok formatter) ∧ options.cacheKey = key := by
  unfold obtain
  split
  · have mem : options.cacheKey ∈ kept := by
      rw [Std.ExtTreeMap.mem_iff_isSome_getElem?, Option.isSome_iff_exists]
      exact ⟨_, ‹_›⟩
    refine ⟨.inl, ?_⟩
    rintro (held | ⟨-, rfl⟩)
    · exact held
    · exact mem
  · split
    · have built : ∃ formatter, build options = .ok formatter := ⟨_, ‹_›⟩
      rw [Std.ExtTreeMap.mem_insert, Std.compare_eq_iff_eq]
      tauto
    · have refused : ¬ ∃ formatter, build options = .ok formatter := by
        rintro ⟨formatter, built⟩
        simp_all
      tauto

end

/-! ## All kinds -/

/-- The keys of the formatters kept of a kind. -/
def Formatters.keys (formatters : Formatters) : FormatterKind → List String
  | .number => formatters.numbers.keys
  | .date => formatters.dates.keys
  | .plural => formatters.plurals.keys

theorem Formatters.count_eq (formatters : Formatters) (kind : FormatterKind) :
    formatters.count kind = (formatters.keys kind).length := by
  cases kind <;> exact Std.ExtTreeMap.length_keys.symm

theorem Formatters.nodup_keys (formatters : Formatters) (kind : FormatterKind) :
    (formatters.keys kind).Nodup := by
  cases kind <;> exact Std.ExtTreeMap.nodup_keys

section

variable (backend : Backend) (locales : List LanguageTag)

/-- Every formatter kept was built by the backend for an option set with its key. -/
structure Faithful (formatters : Formatters) : Prop where
  numbers : Kept (backend.numberFormat locales) formatters.numbers
  dates : Kept (backend.dateFormat locales) formatters.dates
  plurals : Kept (backend.pluralSelector locales) formatters.plurals

/-- The key of an option set for which a formatter of the kind is asked for and built. -/
def Earned (asked : Request → Prop) (kind : FormatterKind) (key : String) : Prop :=
  ∃ options, asked ⟨kind, options⟩ ∧ backend.Builds locales ⟨kind, options⟩ ∧
    options.cacheKey = key

/-- The keys kept afterwards are those from before and those of what was asked for and built. -/
def Gains (asked : Request → Prop) (before after : Formatters) : Prop :=
  ∀ kind key, key ∈ after.keys kind ↔
    key ∈ before.keys kind ∨ Earned backend locales asked kind key

/-- The keys from before are kept, and keys are added only for what was asked for and built. -/
structure Records (asked : Request → Prop) (before after : Formatters) : Prop where
  grows : ∀ kind, before.keys kind ⊆ after.keys kind
  within : ∀ kind, ∀ key ∈ after.keys kind,
    key ∈ before.keys kind ∨ Earned backend locales asked kind key

/-- A step that may ask for a formatter. Its result is the same whatever is kept, and it keeps what
it has asked for. -/
structure Serves {α : Type} (asked : Option Request) (step : StateM Formatters α) : Prop where
  result : (∀ request ∈ asked, request.options.Plain) → ∀ formatters formatters',
    Faithful backend locales formatters → Faithful backend locales formatters' →
      (step formatters).1 = (step formatters').1
  faithful : (∀ request ∈ asked, request.options.Plain) → ∀ formatters,
    Faithful backend locales formatters → Faithful backend locales (step formatters).2
  gains : ∀ formatters, Gains backend locales (· ∈ asked) formatters (step formatters).2

end

variable {backend : Backend} {locales : List LanguageTag}

section

variable {asked more : Request → Prop} {before middle after : Formatters} {kind : FormatterKind}
  {key : String}

theorem Earned.mono (earned : Earned backend locales asked kind key)
    (h : ∀ request, asked request → more request) : Earned backend locales more kind key := by
  obtain ⟨options, asks, built⟩ := earned
  exact ⟨options, h _ asks, built⟩

theorem Gains.records (gains : Gains backend locales asked before after) :
    Records backend locales asked before after where
  grows kind key held := (gains kind key).mpr (.inl held)
  within kind key held := (gains kind key).mp held

theorem Gains.kept {options : Options} (gains : Gains backend locales asked before after)
    (asks : asked ⟨kind, options⟩) (built : backend.Builds locales ⟨kind, options⟩) :
    options.cacheKey ∈ after.keys kind :=
  (gains kind _).mpr (.inr ⟨options, asks, built, rfl⟩)

theorem Gains.refl (before : Formatters) :
    Gains backend locales (fun _ => False) before before := by
  intro kind key
  simp [Earned]

theorem Gains.trans (first : Gains backend locales asked before middle)
    (second : Gains backend locales more middle after) :
    Gains backend locales (fun request => asked request ∨ more request) before after := by
  intro kind key
  have split : Earned backend locales (fun request => asked request ∨ more request) kind key ↔
      Earned backend locales asked kind key ∨ Earned backend locales more kind key := by
    simp only [Earned, or_and_right, exists_or]
  rw [second kind key, first kind key, split, or_assoc]

namespace Records

theorem refl (asked : Request → Prop) (before : Formatters) :
    Records backend locales asked before before where
  grows _ := List.Subset.refl _
  within _ _ held := .inl held

theorem trans (first : Records backend locales asked before middle)
    (second : Records backend locales asked middle after) :
    Records backend locales asked before after where
  grows kind := List.Subset.trans (first.grows kind) (second.grows kind)
  within kind key held := (second.within kind key held).elim (first.within kind key) .inr

theorem mono (records : Records backend locales asked before after)
    (h : ∀ request, asked request → more request) :
    Records backend locales more before after where
  grows := records.grows
  within kind key held := (records.within kind key held).imp_right (·.mono h)

theorem gains (records : Records backend locales asked before after)
    (keeps : ∀ kind options, asked ⟨kind, options⟩ → backend.Builds locales ⟨kind, options⟩ →
      options.cacheKey ∈ after.keys kind) : Gains backend locales asked before after := by
  intro kind key
  refine ⟨records.within kind key, ?_⟩
  rintro (held | ⟨options, asks, built, rfl⟩)
  · exact records.grows kind held
  · exact keeps kind options asks built

end Records

end

theorem faithful_empty : Faithful backend locales .empty := ⟨kept_empty, kept_empty, kept_empty⟩

theorem serves_pure {α : Type} (value : α) : Serves backend locales none (pure value) where
  result _ _ _ _ _ := rfl
  faithful _ _ faithful := faithful
  gains formatters := by
    have nothing : (· ∈ (none : Option Request)) = fun _ => False := by
      funext request
      simp
    rw [nothing]
    exact Gains.refl formatters

section

variable (value : Float) (millis : Int64) (options : Options)

theorem writeNumber_serves : Serves backend locales (some ⟨.number, options⟩)
    (Formatters.writeNumber backend locales value options) where
  result plain formatters formatters' faithful faithful' := by
    simp only [Formatters.writeNumber, obtain_fst faithful.numbers (plain _ rfl),
      obtain_fst faithful'.numbers (plain _ rfl)]
  faithful plain formatters faithful :=
    { faithful with numbers := faithful.numbers.obtain (plain _ rfl) }
  gains formatters kind key := by
    cases kind <;>
      simp [Formatters.keys, Formatters.writeNumber, mem_obtain, Earned, Backend.Builds]

theorem writeDate_serves : Serves backend locales (some ⟨.date, options⟩)
    (Formatters.writeDate backend locales millis options) where
  result plain formatters formatters' faithful faithful' := by
    simp only [Formatters.writeDate, obtain_fst faithful.dates (plain _ rfl),
      obtain_fst faithful'.dates (plain _ rfl)]
  faithful plain formatters faithful :=
    { faithful with dates := faithful.dates.obtain (plain _ rfl) }
  gains formatters kind key := by
    cases kind <;>
      simp [Formatters.keys, Formatters.writeDate, mem_obtain, Earned, Backend.Builds]

theorem pluralCategory_serves : Serves backend locales (some ⟨.plural, options⟩)
    (Formatters.pluralCategory backend locales value options) where
  result plain formatters formatters' faithful faithful' := by
    simp only [Formatters.pluralCategory, obtain_fst faithful.plurals (plain _ rfl),
      obtain_fst faithful'.plurals (plain _ rfl)]
  faithful plain formatters faithful :=
    { faithful with plurals := faithful.plurals.obtain (plain _ rfl) }
  gains formatters kind key := by
    cases kind <;>
      simp [Formatters.keys, Formatters.pluralCategory, mem_obtain, Earned, Backend.Builds]

end

theorem Serves.map {α β : Type} {asked : Option Request} {step : StateM Formatters α}
    (serves : Serves backend locales asked step) (f : α → β) :
    Serves backend locales asked (do return f (← step)) where
  result plain formatters formatters' faithful faithful' :=
    congrArg f (serves.result plain formatters formatters' faithful faithful')
  faithful := serves.faithful
  gains := serves.gains

end Fluent.Format
