import Fluent.Store.Basic
import Fluent.Proofs.Table
import Mathlib.Data.List.Induction
import Mathlib.Data.List.ProdSigma

/-!
# What a store holds

A store stands for a map from locales in canonical form and namespaces to texts. Each call creates
bundles from some texts, in order, up to the first error; the bundle for a pair is made of the last
text that a call has created one from, and of nothing else.

* `StoreCall.creations`: the texts from which a call creates bundles;
* `Holds`: a store and the texts that it stands for;
* `store_refines`: what a store holds after calls, and what a call answers.
-/

namespace Fluent

open Std (ExtTreeMap)

/-! ## Creations -/

/-- A text from which a bundle is created, with the tag of its locale and its namespace. -/
structure Creation where
  tag : LanguageTag
  space : String
  text : String

namespace Creation

/-- The bundle that is created, and the problems of its text. -/
def made (options : BundleOptions) (creation : Creation) : Bundle × List Problem :=
  (Bundle.empty [creation.tag] options).addMessages (Text.dedent creation.text)

/-- Whether the bundle is created for a locale in canonical form and a namespace. -/
def IsFor (locale space : String) (creation : Creation) : Prop :=
  creation.tag.normalized = locale ∧ creation.space = space

instance (locale space : String) (creation : Creation) : Decidable (creation.IsFor locale space) :=
  inferInstanceAs (Decidable (_ ∧ _))

end Creation

/-- The last of creations for a locale in canonical form and a namespace. -/
def lastCreation? (creations : List Creation) (locale space : String) : Option Creation :=
  (creations.filter (·.IsFor locale space)).getLast?

/-- What becomes of a text for a locale and a namespace. -/
def creationOf (locale space text : String) : Except StoreError Creation :=
  match LanguageTag.parse locale with
  | .ok tag => .ok ⟨tag, space, text⟩
  | .error refusal => .error (.refused refusal)

/-- What becomes of a locale and a namespace of a source: nothing, if it has no text for them. -/
def Source.offer (source : Source) (locale space : String) : Except StoreError (Option Creation) :=
  match source locale space with
  | .ok (some text) => (creationOf locale space text).map some
  | .ok none => .ok none
  | .error error => .error error

/-- The creations in front of the first error. -/
def accepted (offers : List (Except StoreError (Option Creation))) : List Creation :=
  (offers.takeWhile Except.isOk).flatMap fun offer => offer.toOption.join.toList

/-- The creations, if there is no error, or else the first error. -/
def settled (offers : List (Except StoreError (Option Creation))) :
    Except StoreError (List Creation) :=
  match offers.find? fun offer => !offer.isOk with
  | some (.error error) => .error error
  | _ => .ok (accepted offers)

/-! ## Calls -/

/-- What a store can be asked for. -/
inductive StoreCall where
  | create (locale space text : String)
  | add (source : Source) (locale space : String)
  | load (source : Source) (languages spaces : List String)

/-- What a store answers. -/
inductive StoreReply where
  | created (result : Except StoreError (List Problem))
  | added (result : Except StoreError Bool)
  | loaded (result : Except StoreError Nat)

namespace BundleStore

/-- The store after a call, and the answer. A call that fails leaves the store that it has come
to. -/
def perform (store : BundleStore) : StoreCall → BundleStore × StoreReply
  | .create locale space text =>
    match store.create locale space text with
    | .ok (store, problems) => (store, .created (.ok problems))
    | .error error => (store, .created (.error error))
  | .add source locale space =>
    match store.add source locale space with
    | .ok (store, added) => (store, .added (.ok added))
    | .error error => (store, .added (.error error))
  | .load source languages spaces =>
    let (store, result) := store.load source languages spaces
    (store, .loaded result)

/-- The store after calls, one after the other. -/
def performAll (store : BundleStore) (calls : List StoreCall) : BundleStore :=
  calls.foldl (fun store call => (store.perform call).1) store

end BundleStore

namespace StoreCall

/-- What becomes of the pairs of a locale and a namespace that a call is about, in order. Loading
goes through the languages that are not preloaded and then those that are, each with every
namespace. -/
def offers (settings : Settings) : StoreCall → List (Except StoreError (Option Creation))
  | .create locale space text => [(creationOf locale space text).map some]
  | .add source locale space => [source.offer locale space]
  | .load source languages spaces =>
    (((languages.filter (· ∉ settings.preload)) ++ settings.preload) ×ˢ
      (if spaces = [] then [settings.defaultNamespace] else spaces)).map
        fun pair => source.offer pair.1 pair.2

/-- The texts from which a call creates bundles. -/
def creations (settings : Settings) (call : StoreCall) : List Creation :=
  accepted (call.offers settings)

/-- The answer to a call: the problems of the text, whether the source has one, or for how many
pairs it has one; or the first error. -/
def reply (settings : Settings) (options : BundleOptions) (call : StoreCall) : StoreReply :=
  let result := settled (call.offers settings)
  match call with
  | .create _ _ _ => .created (result.map (·.flatMap fun creation => (creation.made options).2))
  | .add _ _ _ => .added (result.map (!·.isEmpty))
  | .load _ _ _ => .loaded (result.map List.length)

end StoreCall

/-- Whether an answer says that no bundle was created for the pair that the call is about. -/
def StoreReply.Refuses : StoreReply → Prop
  | .created result => ∃ error, result = .error error
  | .added result => result = .ok false ∨ ∃ error, result = .error error
  | .loaded _ => False

/-! ## Creations in order -/

section

variable {locale space : String}

theorem lastCreation_concat (creations : List Creation) (creation : Creation) :
    lastCreation? (creations ++ [creation]) locale space =
      if creation.IsFor locale space then some creation
      else lastCreation? creations locale space := by
  unfold lastCreation?
  rw [List.filter_append]
  by_cases h : creation.IsFor locale space <;> simp [h]

theorem lastCreation_isSome {creations : List Creation} :
    (lastCreation? creations locale space).isSome ↔
      ∃ creation ∈ creations, creation.IsFor locale space := by
  rw [lastCreation?, List.getLast?_isSome, Ne, List.filter_eq_nil_iff]
  simp

/-- The last creation for a pair has none for the same pair behind it. -/
theorem lastCreation_split {creations : List Creation} {creation : Creation}
    (last : lastCreation? creations locale space = some creation) :
    ∃ before after, creations = before ++ creation :: after ∧ creation.IsFor locale space ∧
      ∀ later ∈ after, ¬ later.IsFor locale space := by
  induction creations using List.reverseRecOn with
  | nil => cases last
  | append_singleton creations other ih =>
    rw [lastCreation_concat] at last
    split at last
    · cases last
      exact ⟨creations, [], rfl, ‹_›, by simp⟩
    · obtain ⟨before, after, rfl, isFor, none⟩ := ih last
      refine ⟨before, after ++ [other], by simp, isFor, fun later hm => ?_⟩
      obtain hm | hm := List.mem_append.mp hm
      · exact none later hm
      · rwa [List.mem_singleton.mp hm]

end

@[simp] theorem accepted_nil : accepted [] = [] := rfl

@[simp] theorem accepted_error (error : StoreError)
    (offers : List (Except StoreError (Option Creation))) :
    accepted (.error error :: offers) = [] := rfl

@[simp] theorem accepted_ok (offer : Option Creation)
    (offers : List (Except StoreError (Option Creation))) :
    accepted (.ok offer :: offers) = offer.toList ++ accepted offers := rfl

@[simp] theorem settled_nil : settled [] = .ok [] := rfl

@[simp] theorem settled_error (error : StoreError)
    (offers : List (Except StoreError (Option Creation))) :
    settled (.error error :: offers) = .error error := rfl

@[simp] theorem settled_ok (offer : Option Creation)
    (offers : List (Except StoreError (Option Creation))) :
    settled (.ok offer :: offers) = (settled offers).map (offer.toList ++ ·) := by
  have found : (Except.ok offer :: offers).find? (fun offer => !offer.isOk) =
      offers.find? fun offer => !offer.isOk := rfl
  unfold settled
  rw [found]
  split <;> rfl

/-! ## Stores -/

namespace BundleStore

theorem get_put (store : BundleStore) (locale space : String) (bundle : Bundle)
    (locale' space' : String) :
    (store.put locale space bundle).get? locale' space' =
      if locale = locale' ∧ space = space' then some bundle else store.get? locale' space' := by
  unfold put get?
  by_cases hl : locale = locale'
  · subst hl
    by_cases hs : space = space'
    · subst hs
      simp
    · cases store.bundles[locale]? <;> simp [ExtTreeMap.getElem?_insert, hs]
  · simp [ExtTreeMap.getElem?_insert, hl]

/-- A store stands for creations: the bundle for each pair is that of the last creation for it. -/
structure Holds (settings : Settings) (options : BundleOptions) (creations : List Creation)
    (store : BundleStore) : Prop where
  settings_eq : store.settings = settings
  options_eq : store.options = options
  get_eq : ∀ locale space, store.get? locale space =
    (lastCreation? creations locale space).map fun creation => (creation.made options).1

variable {settings : Settings} {options : BundleOptions} {creations : List Creation}
  {store : BundleStore}

theorem holds_withOptions (settings : Settings) (options : BundleOptions) :
    (withOptions settings options).Holds settings options [] where
  settings_eq := rfl
  options_eq := rfl
  get_eq locale space := by simp [get?, withOptions, lastCreation?]

theorem Holds.put (holds : store.Holds settings options creations) (creation : Creation) :
    (store.put creation.tag.normalized creation.space (creation.made options).1).Holds settings
      options (creations ++ [creation]) where
  settings_eq := holds.settings_eq
  options_eq := holds.options_eq
  get_eq locale space := by
    rw [get_put, lastCreation_concat]
    by_cases h : creation.tag.normalized = locale ∧ creation.space = space
    · rw [if_pos h, if_pos (by exact h)]
      rfl
    · rw [if_neg h, if_neg (by exact h), holds.get_eq]

/-! ### One pair -/

theorem create_eq (store : BundleStore) (locale space text : String) :
    store.create locale space text = (creationOf locale space text).map fun creation =>
      (store.put creation.tag.normalized creation.space (creation.made store.options).1,
        (creation.made store.options).2) := by
  unfold create creationOf
  cases LanguageTag.parse locale <;> rfl

/-- What adding a pair makes of a store: nothing new if the source has no text. -/
theorem add_eq (store : BundleStore) (source : Source) (locale space : String) :
    store.add source locale space = (source.offer locale space).map fun
      | some creation =>
        (store.put creation.tag.normalized creation.space (creation.made store.options).1, true)
      | none => (store, false) := by
  unfold add Source.offer
  rcases source locale space with error | (_ | text)
  · rfl
  · rfl
  · change (store.create locale space text >>= fun created => pure (created.1, true)) =
      ((creationOf locale space text).map some).map _
    rw [create_eq]
    cases creationOf locale space text <;> rfl

/-- Adding pairs creates what is offered up to the first error, and answers with that error or with
the number of creations. -/
theorem addAll_holds (holds : store.Holds settings options creations) (source : Source)
    (pairs : List (String × String)) :
    let offers := pairs.map fun pair => source.offer pair.1 pair.2
    (store.addAll source pairs).1.Holds settings options (creations ++ accepted offers) ∧
      (store.addAll source pairs).2 = (settled offers).map List.length := by
  induction pairs generalizing store creations with
  | nil => exact ⟨by simpa [addAll] using holds, rfl⟩
  | cons pair pairs ih =>
    obtain ⟨locale, space⟩ := pair
    simp only [List.map_cons, addAll, add_eq, holds.options_eq]
    rcases source.offer locale space with error | (_ | creation)
    · exact ⟨by simpa [Except.map] using holds, rfl⟩
    · obtain ⟨after, count⟩ := ih holds
      simp only [Except.map, accepted_ok, settled_ok, Option.toList_none, List.nil_append, count]
      refine ⟨after, ?_⟩
      rcases settled _ with _ | _ <;> rfl
    · obtain ⟨after, count⟩ := ih (holds.put creation)
      simp only [Except.map, accepted_ok, settled_ok, Option.toList_some, count]
      refine ⟨by simpa using after, ?_⟩
      rcases settled _ with _ | _
      · rfl
      · exact congrArg Except.ok (by simp)

/-! ### Calls -/

theorem loadOrder_eq (settings : Settings) (languages spaces : List String) :
    loadOrder settings languages spaces =
      ((languages.filter (· ∉ settings.preload)) ++ settings.preload) ×ˢ
        (if spaces = [] then [settings.defaultNamespace] else spaces) := by
  have kept : languages.filter (fun language => !settings.preload.contains language) =
      languages.filter (· ∉ settings.preload) := by simp
  rw [loadOrder, kept]
  cases spaces <;> rfl

theorem perform_holds (holds : store.Holds settings options creations) (call : StoreCall) :
    (store.perform call).1.Holds settings options (creations ++ call.creations settings) ∧
      (store.perform call).2 = call.reply settings options := by
  cases call with
  | create locale space text =>
    simp only [perform, create_eq, holds.options_eq, StoreCall.creations, StoreCall.offers,
      StoreCall.reply]
    rcases creationOf locale space text with error | creation
    · simpa [Except.map] using holds
    · simpa [Except.map] using holds.put creation
  | add source locale space =>
    simp only [perform, add_eq, holds.options_eq, StoreCall.creations, StoreCall.offers,
      StoreCall.reply]
    rcases source.offer locale space with error | (_ | creation)
    · simpa [Except.map] using holds
    · simpa [Except.map] using holds
    · simpa [Except.map] using holds.put creation
  | load source languages spaces =>
    obtain ⟨after, count⟩ := addAll_holds holds source (loadOrder settings languages spaces)
    rw [loadOrder_eq] at after count
    simp only [perform, load, holds.settings_eq, loadOrder_eq]
    exact ⟨after, congrArg StoreReply.loaded count⟩

theorem performAll_holds (holds : store.Holds settings options creations)
    (calls : List StoreCall) :
    (store.performAll calls).Holds settings options
      (creations ++ calls.flatMap (StoreCall.creations settings)) := by
  induction calls generalizing store creations with
  | nil => simpa [performAll] using holds
  | cons call calls ih =>
    have after := ih (perform_holds holds call).1
    rwa [List.append_assoc, ← List.flatMap_cons] at after

/-- A call that answers that no bundle was created leaves the store as it was. -/
theorem perform_of_refuses {call : StoreCall} (refuses : (store.perform call).2.Refuses) :
    (store.perform call).1 = store := by
  revert refuses
  cases call with
  | create locale space text =>
    simp only [perform]
    rcases store.create locale space text with error | ⟨after, problems⟩
    · exact fun _ => rfl
    · rintro ⟨error, he⟩
      cases he
  | add source locale space =>
    simp only [perform, add_eq]
    rcases source.offer locale space with error | (_ | creation)
    · exact fun _ => rfl
    · exact fun _ => rfl
    · rintro (he | ⟨error, he⟩) <;> cases he
  | load => exact False.elim

end BundleStore

/-- A store stands for a map from pairs of a locale in canonical form and a namespace to texts.
After any calls it has a bundle exactly for the pairs for which one has been created, and it is made
of the last text for the pair. What a call answers follows from what its sources offer, and one that
creates no bundle leaves the store as it was. -/
theorem store_refines (settings : Settings) (options : BundleOptions) (calls : List StoreCall) :
    let store := (BundleStore.withOptions settings options).performAll calls
    let creations := calls.flatMap (StoreCall.creations settings)
    (∀ locale space, (store.bundle? locale space).isSome ↔
      ∃ tag, LanguageTag.parse locale = .ok tag ∧
        ∃ creation ∈ creations, creation.IsFor tag.normalized space) ∧
    (∀ locale space bundle, store.bundle? locale space = some bundle →
      ∃ tag before creation after, LanguageTag.parse locale = .ok tag ∧
        creations = before ++ creation :: after ∧ creation.IsFor tag.normalized space ∧
        (∀ later ∈ after, ¬ later.IsFor tag.normalized space) ∧
        bundle = (creation.made options).1) ∧
    ∀ call, (store.perform call).2 = call.reply settings options ∧
      ((store.perform call).2.Refuses → (store.perform call).1 = store) := by
  intro store creations
  have holds : store.Holds settings options creations :=
    BundleStore.performAll_holds (BundleStore.holds_withOptions settings options) calls
  have found (locale space : String) : store.bundle? locale space =
      (LanguageTag.parse locale).toOption.bind fun tag =>
        (lastCreation? creations tag.normalized space).map fun creation =>
          (creation.made options).1 := by
    unfold BundleStore.bundle?
    cases LanguageTag.parse locale with
    | error => rfl
    | ok tag => exact holds.get_eq tag.normalized space
  refine ⟨fun locale space => ?_, fun locale space bundle has => ?_, fun call =>
    ⟨(BundleStore.perform_holds holds call).2, BundleStore.perform_of_refuses⟩⟩
  · rw [found]
    cases LanguageTag.parse locale with
    | error => simp [Except.toOption]
    | ok tag => simp [Except.toOption, lastCreation_isSome]
  · rw [found] at has
    cases parsed : LanguageTag.parse locale with
    | error => simp [parsed, Except.toOption] at has
    | ok tag =>
      simp only [parsed, Except.toOption, Option.bind_some, Option.map_eq_some_iff] at has
      obtain ⟨creation, last, rfl⟩ := has
      obtain ⟨before, after, split, isFor, none⟩ := lastCreation_split last
      exact ⟨tag, before, creation, after, rfl, split, isFor, none, rfl⟩

end Fluent
