import Mathlib.Data.List.Chain
import Fluent.Proofs.Nesting
import Fluent.Proofs.Pattern
import Fluent.Proofs.Soundness.Token

/-!
# Patterns are sound

A pattern is made of what its placeables hold, with texts that are not empty between them and no
blank text at the end.

* `Draft.Sound`: what each round of a pattern keeps;
* `yields_pattern`: the pattern in the end.
-/

namespace Fluent.Grammar

open Fluent.Grammar.Parser Fluent.Text.Reader

/-- One of two parts of a pattern is a placeable. -/
def Apart (part next : Element) : Prop :=
  part.isPlaceable = true ∨ next.isPlaceable = true

/-- What has been read of a pattern: the closed parts end with a placeable, and no two texts stand
side by side. -/
structure Draft.Sound (P : Expression → Prop) (draft : Draft) : Prop where
  placed : ∀ expression, .placeable expression ∈ draft.parts → P expression
  few : draft.placeables ≤ mostPlaceables
  apart : draft.parts.IsChain Apart
  texts : ∀ text, .text text ∈ draft.parts → text ≠ ""
  last : ∀ part, draft.parts.getLast? = some part → part.isPlaceable = true

/-- A pattern that ends in no blank text, the placeables of which hold such expressions. -/
def MadeOf (P : Expression → Prop) : Pattern → Prop
  | .text value => Unpadded value
  | .elements parts =>
    PartsWellFormed parts ∧ ∀ expression, .placeable expression ∈ parts → P expression

theorem unpadded_dropEndWhile (text : List Char) :
    Unpadded (String.ofList (Text.dropEndWhile Text.isBlank text)) := by
  intro c hc
  rw [String.toList_ofList] at hc
  exact getLast?_dropEndWhile hc

variable {P : Expression → Prop} {draft : Draft}

namespace Draft

theorem sound_empty : Sound P .empty where
  placed _ h := nomatch h
  few := Nat.zero_le _
  apart := .nil
  texts _ h := nomatch h
  last _ h := nomatch h

theorem Sound.push (sound : draft.Sound P) (text : List Char) : (draft.push text).Sound P :=
  ⟨sound.placed, sound.few, sound.apart, sound.texts, sound.last⟩

theorem Sound.nextLine (sound : draft.Sound P) (blank : List Char) :
    (draft.nextLine blank).Sound P := by
  rw [Draft.nextLine]
  split
  · exact sound.push _
  · exact (sound.push _).push _

/-- The closed parts may be followed by a text. -/
theorem Sound.isChain_text (sound : draft.Sound P) (text : String) :
    (draft.parts ++ [Element.text text]).IsChain Apart := by
  refine List.isChain_append.mpr ⟨sound.apart, .singleton _, fun part hp next _ => .inl ?_⟩
  exact sound.last part hp

/-- No two texts stand side by side where one of any two neighbours is a placeable. -/
theorem not_sides_of_isChain {parts : List Element} (chain : parts.IsChain Apart)
    {text next : String} : ¬[.text text, .text next] <:+: parts := by
  rintro ⟨before, after, rfl⟩
  have apart := List.isChain_pair.mp chain.left_of_append.right_of_append
  cases apart <;> contradiction

/-- The text is closed as a part that is not empty, if there is any. -/
theorem close_cases (draft : Draft) :
    draft.close.parts = draft.parts ∨
      ∃ text, text ≠ "" ∧ draft.close.parts = draft.parts ++ [Element.text text] := by
  rw [close]
  split
  · exact .inl rfl
  · rename_i some
    exact .inr ⟨_, fun empty => some (by simpa using empty), rfl⟩

theorem Sound.place (sound : draft.Sound P) {expression : Expression} (holds : P expression)
    (room : draft.placeables < mostPlaceables) : (draft.place expression).Sound P := by
  have chain : draft.close.parts.IsChain Apart := by
    obtain same | ⟨text, -, same⟩ := draft.close_cases <;> rw [same]
    · exact sound.apart
    · exact sound.isChain_text text
  constructor
  case placed =>
    intro value part
    obtain same | ⟨text, -, same⟩ := draft.close_cases <;> simp [Draft.place, same] at part
    · exact part.elim (sound.placed value) fun h => h ▸ holds
    · exact part.elim (sound.placed value) fun h => h ▸ holds
  case few =>
    have count : (draft.place expression).placeables = draft.placeables + 1 := by
      obtain same | ⟨text, -, same⟩ := draft.close_cases <;>
        simp [Draft.place, placeables, same, Element.isPlaceable]
    omega
  case apart =>
    refine List.isChain_append.mpr ⟨chain, .singleton _, fun _ _ next hn => .inr ?_⟩
    obtain rfl := Option.some_inj.mp hn
    rfl
  case texts =>
    intro value part
    obtain same | ⟨text, full, same⟩ := draft.close_cases <;> simp [Draft.place, same] at part
    · exact sound.texts value part
    · exact part.elim (sound.texts value) fun h => h ▸ full
  case last =>
    intro part hp
    rw [Draft.place, List.getLast?_concat] at hp
    obtain rfl := Option.some_inj.mp hp
    rfl

/-- Closed parts make a pattern, alone or with a text that does not end in blank text. -/
theorem Sound.partsWellFormed (sound : draft.Sound P)
    (shown : ∀ expression, P expression → isTermAttribute expression = false)
    (some : draft.parts ≠ []) : PartsWellFormed draft.parts where
  placed := by
    have last := sound.last _ (List.getLast?_eq_some_getLast some)
    exact List.countP_pos_iff.mpr ⟨_, List.getLast_mem some, last⟩
  few := sound.few
  apart _ _ side := not_sides_of_isChain sound.apart side
  texts := sound.texts
  last text last := nomatch sound.last _ last
  shown expression part := shown expression (sound.placed expression part)

/-- A text that does not end in blank text may follow the closed parts. -/
theorem Sound.partsWellFormed_text (sound : draft.Sound P)
    (shown : ∀ expression, P expression → isTermAttribute expression = false)
    (some : draft.parts ≠ []) {text : String} (ends : EndsPattern text) :
    PartsWellFormed (draft.parts ++ [.text text]) := by
  have parts := sound.partsWellFormed shown some
  constructor
  case placed => simpa [List.countP_append, Element.isPlaceable] using parts.placed
  case few => simpa [List.countP_append, Element.isPlaceable] using parts.few
  case apart =>
    intro value next
    exact not_sides_of_isChain (sound.isChain_text text)
  case texts =>
    intro value part
    obtain part | part := List.mem_append.mp part
    · exact parts.texts value part
    · obtain rfl := Element.text.inj (List.mem_singleton.mp part)
      exact ends.nonempty
  case last =>
    intro value last
    rw [List.getLast?_concat] at last
    obtain rfl := Element.text.inj (Option.some_inj.mp last)
    exact ends
  case shown =>
    intro expression part
    obtain part | part := List.mem_append.mp part
    · exact parts.shown expression part
    · exact nomatch List.mem_singleton.mp part

theorem Sound.finish (sound : draft.Sound P)
    (shown : ∀ expression, P expression → isTermAttribute expression = false) {value : Pattern}
    (read : draft.finish = some value) : MadeOf P value := by
  rw [Draft.finish] at read
  split at read
  · cases read
  · split at read
    · obtain rfl := Option.some_inj.mp read
      exact unpadded_dropEndWhile _
    · rename_i some
      rw [List.isEmpty_iff] at some
      split at read
      · obtain rfl := Option.some_inj.mp read
        exact ⟨sound.partsWellFormed shown some, sound.placed⟩
      · rename_i full
        obtain rfl := Option.some_inj.mp read
        refine ⟨sound.partsWellFormed_text shown some ⟨?_, unpadded_dropEndWhile _⟩, ?_⟩
        · simpa using full
        · intro expression part
          obtain part | part := List.mem_append.mp part
          · exact sound.placed expression part
          · exact nomatch List.mem_singleton.mp part

end Draft

section

variable {placeable : Parser Expression}

theorem yields_nextLine (draft : Draft) (sound : draft.Sound P) :
    Yields (nextLine draft) fun next => next.state.Sound P := by
  refine yields_bind fun _ => yields_bind fun blank => yields_bind fun _ => .choice (fun _ => ?_)
    fun _ => yields_pure sound
  refine yields_bind fun _ => yields_bind fun _ => yields_bind fun _ => .choice (fun _ => ?_)
    fun _ => yields_pure (sound.nextLine blank)
  exact yields_bind fun _ => yields_pure sound

theorem yields_patternRound (yields : Yields placeable P) (draft : Draft) (sound : draft.Sound P) :
    Yields (patternRound placeable draft) fun next => next.state.Sound P := by
  refine yields_bind fun run => yields_bind fun next => ?_
  split
  · exact yields_pure (sound.push run)
  · exact yields_nextLine _ (sound.push _)
  · exact yields_bind fun _ => yields_pure (sound.push _)
  · refine .choice (fun _ => yields_fail _) fun room => yields.bind fun _ holds => ?_
    exact yields_pure ((sound.push run).place holds (Nat.lt_of_not_le room))

theorem yields_patternParts (yields : Yields placeable P)
    (shown : ∀ expression, P expression → isTermAttribute expression = false) :
    Yields (patternParts placeable) fun read => ∀ value, read = some value → MadeOf P value :=
  (Yields.iterate (yields_patternRound yields) Draft.sound_empty).bind fun _ sound =>
    yields_pure fun _ read => sound.finish shown read

/-- A pattern is made of what its placeables yield. -/
theorem yields_pattern (yields : Yields placeable P)
    (shown : ∀ expression, P expression → isTermAttribute expression = false) :
    Yields (pattern placeable) fun read => ∀ value, read = some value → MadeOf P value := by
  intro text read rest hr value hv
  rw [pattern_apply] at hr
  dsimp only at hr
  split at hr
  · exact yields_patternParts yields shown _ _ _ hr value hv
  · split at hr
    · obtain ⟨rfl, -⟩ := Prod.mk.inj (Except.ok.inj hr)
      split at hv
      · cases hv
      · obtain rfl := Option.some_inj.mp hv
        exact unpadded_dropEndWhile _
    · exact yields_patternParts yields shown _ _ _ hr value hv

end

end Fluent.Grammar
