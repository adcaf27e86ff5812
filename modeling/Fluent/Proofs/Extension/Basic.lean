import Fluent.Proofs.Reader
import Mathlib.Data.List.DropRight

/-!
# Texts with more text behind them

What is read from a text that ends with a line is read the same when more text follows, as long as
something is left of the text: then the reading has not looked past its end.

* `Keeps`: the property, of two readers so that a reader may use itself;
* `Keeps.bind`, `Keeps.iterate`: it is kept when readers are put together.
-/

namespace Fluent.Grammar

open Fluent.Grammar.Parser Fluent.Text.Reader

/-- The text in front of another one ends with a line, or there is none. -/
def EndsLines (before : List Char) : Prop := ∀ c, before.getLast? = some c → c = '\n'

/-- Of two readings, of `text` and of the text with `tail` behind it, the second one finds what the
first one finds that leaves something. -/
def KeepsAt {α : Type} (tail text : List Char) (x y : Except Failure (α × List Char)) : Prop :=
  ∀ a rest, x = .ok (a, rest) → rest <:+ text ∧ (rest ≠ [] → y = .ok (a, rest ++ tail))

/-- Of two readers the second one finds in a text with `tail` behind it what the first one finds in
the text alone, unless it comes to the end of that. -/
def Keeps {α : Type} (tail : List Char) (p q : Parser α) : Prop :=
  ∀ text, EndsLines text → KeepsAt tail text (p text) (q (text ++ tail))

section

variable {α β σ : Type} {tail text rest : List Char} {c : Char} {fault : Fault}
  {p p' q q' : Parser α}

/-! ## Texts that end with a line -/

theorem endsLines_of_getLast? (h : text.getLast? = some '\n') : EndsLines text := by
  intro c hc
  exact Option.some_inj.mp (hc.symm.trans h)

theorem EndsLines.suffix (h : EndsLines text) (hs : rest <:+ text) : EndsLines rest := by
  intro c hc
  obtain ⟨front, rfl⟩ := hs
  exact h c (by rw [List.getLast?_append, hc, Option.some_or])

theorem EndsLines.next (h : EndsLines (c :: text)) : EndsLines text :=
  h.suffix (List.suffix_cons c text)

/-- A character other than a line feed is not the last one. -/
theorem EndsLines.next_ne_nil (h : EndsLines (c :: text)) (hc : c ≠ '\n') : text ≠ [] := by
  rintro rfl
  exact hc (h c rfl)

theorem EndsLines.lineFeed_mem (h : EndsLines text) (hn : text ≠ []) : '\n' ∈ text := by
  obtain ⟨front, c, rfl⟩ := text.eq_nil_or_concat'.resolve_left hn
  simp [h c List.getLast?_concat]

/-- A run of characters of a line comes to its end within the text. -/
theorem EndsLines.dropWhile_ne_nil (h : EndsLines text) (pred : Char → Bool) (hn : text ≠ [])
    (hp : pred '\n' = false) : text.dropWhile pred ≠ [] := by
  intro hd
  have hall := List.dropWhile_eq_nil_iff.mp hd _ (h.lineFeed_mem hn)
  exact absurd (hp.symm.trans hall) Bool.false_ne_true

theorem dropWhile_append_of_ne_nil {pred : Char → Bool} (h : text.dropWhile pred ≠ []) :
    (text ++ tail).dropWhile pred = text.dropWhile pred ++ tail := by
  rw [List.dropWhile_append, if_neg (by simpa using h)]

theorem dropWhile_append_of_cons {pred : Char → Bool} (h : text.dropWhile pred = c :: rest)
    (tail : List Char) : (text ++ tail).dropWhile pred = c :: (rest ++ tail) := by
  rw [dropWhile_append_of_ne_nil (h ▸ List.cons_ne_nil c rest), h, List.cons_append]

theorem takeWhile_append_of_ne_nil {pred : Char → Bool} (h : text.dropWhile pred ≠ []) :
    (text ++ tail).takeWhile pred = text.takeWhile pred := by
  induction text with
  | nil => exact absurd rfl h
  | cons c text ih =>
    by_cases hc : pred c = true
    · rw [List.dropWhile_cons_of_pos hc] at h
      simp [hc, ih h]
    · simp [hc]

/-! ## Readers put together -/

theorem KeepsAt.mono {x y : Except Failure (α × List Char)} (h : KeepsAt tail rest x y)
    (hs : rest <:+ text) : KeepsAt tail text x y := by
  intro a after hx
  obtain ⟨ha, hy⟩ := h a after hx
  exact ⟨ha.trans hs, hy⟩

theorem keepsAt_ok {a : α} (hs : rest <:+ text) :
    KeepsAt tail text (.ok (a, rest)) (.ok (a, rest ++ tail)) := by
  intro b after hx
  obtain ⟨rfl, rfl⟩ := Prod.mk.inj (Except.ok.inj hx)
  exact ⟨hs, fun _ => rfl⟩

theorem keepsAt_error {failure : Failure} {y : Except Failure (α × List Char)} :
    KeepsAt tail text (.error failure) y := nofun

theorem KeepsAt.choice {P : Prop} [Decidable P] {x x' y y' : Except Failure (α × List Char)}
    (h : KeepsAt tail text x y) (h' : KeepsAt tail text x' y') :
    KeepsAt tail text (if P then x else x') (if P then y else y') := by
  split
  · exact h
  · exact h'

/-- A reader that leaves nothing of nothing may be looked at where there is something. -/
theorem keeps_of_cons (hnil : ∀ a rest, p [] = .ok (a, rest) → rest = [])
    (hcons : ∀ c text, EndsLines (c :: text) →
      KeepsAt tail (c :: text) (p (c :: text)) (q (c :: (text ++ tail)))) : Keeps tail p q := by
  intro text he
  cases text with
  | nil =>
    intro a rest hx
    obtain rfl := hnil a rest hx
    exact ⟨List.suffix_refl _, fun hn => absurd rfl hn⟩
  | cons c text => exact hcons c text he

theorem keeps_pure (a : α) : Keeps tail (pure a) (pure a) :=
  fun _ _ => keepsAt_ok (List.suffix_refl _)

theorem keeps_fail (fault : Fault) : Keeps tail (fail fault : Parser α) q :=
  fun _ _ => keepsAt_error

theorem Keeps.bind {k l : α → Parser β} (h : Keeps tail p q) (hk : ∀ a, Keeps tail (k a) (l a)) :
    Keeps tail (p >>= k) (q >>= l) := by
  intro text he b rest hx
  rw [bind_apply] at hx
  cases hp : p text with
  | error failure => rw [hp] at hx; cases hx
  | ok read =>
    obtain ⟨a, mid⟩ := read
    rw [hp] at hx
    obtain ⟨hs, hq⟩ := h text he a mid hp
    obtain ⟨hs', hl⟩ := hk a mid (he.suffix hs) b rest hx
    refine ⟨hs'.trans hs, fun hn => ?_⟩
    have hm : mid ≠ [] := by
      rintro rfl
      exact hn (List.suffix_nil.mp hs')
    rw [bind_ok (hq hm)]
    exact hl hn

theorem Keeps.map {f : α → β} (h : Keeps tail p q) : Keeps tail (f <$> p) (f <$> q) := by
  rw [map_eq_pure_bind, map_eq_pure_bind]
  exact h.bind fun a => keeps_pure (f a)

theorem Keeps.choice {P : Prop} [Decidable P] (h : Keeps tail p q) (h' : Keeps tail p' q') :
    Keeps tail (if P then p else p') (if P then q else q') := by
  split
  · exact h
  · exact h'

theorem Keeps.iterate {round round' : σ → Parser (Round σ)}
    (h : ∀ state, Keeps tail (round state) (round' state)) (state : σ) :
    Keeps tail (Text.Reader.iterate round state) (Text.Reader.iterate round' state) := by
  intro text he
  induction hn : text.length using Nat.strongRecOn generalizing text state with
  | ind n ih =>
    subst hn
    intro after rest hx
    rw [Text.Reader.iterate] at hx ⊢
    cases hr : round state text with
    | error failure => rw [hr] at hx; cases hx
    | ok read =>
      obtain ⟨reached, mid⟩ := read
      rw [hr] at hx
      obtain ⟨hs, hr'⟩ := h state text he reached mid hr
      cases reached with
      | done state =>
        obtain ⟨rfl, rfl⟩ := Prod.mk.inj (Except.ok.inj hx)
        exact ⟨hs, fun hn => by rw [hr' hn]⟩
      | again state =>
        dsimp only at hx
        have hlt : (mid ++ tail).length < (text ++ tail).length ↔ mid.length < text.length := by
          simp
        split at hx
        · rename_i hm
          obtain ⟨hs', hi⟩ := ih _ hm state mid (he.suffix hs) rfl after rest hx
          refine ⟨hs'.trans hs, fun hn => ?_⟩
          have hmid : mid ≠ [] := by
            rintro rfl
            exact hn (List.suffix_nil.mp hs')
          rw [hr' hmid]
          simp only [hlt, hm, if_true]
          exact hi hn
        · rename_i hm
          obtain ⟨rfl, rfl⟩ := Prod.mk.inj (Except.ok.inj hx)
          refine ⟨hs, fun hn => ?_⟩
          rw [hr' hn]
          simp only [hlt, hm, if_false]

theorem Keeps.recursive {stuck : List Char → Failure} {step : Parser α → Parser α}
    (h : ∀ p q, Keeps tail p q → Keeps tail (step p) (step q)) :
    Keeps tail (Text.Reader.recursive stuck step) (Text.Reader.recursive stuck step) := by
  intro text he
  induction hn : text.length using Nat.strongRecOn generalizing text with
  | ind n ih =>
    subst hn
    rw [Text.Reader.recursive, Text.Reader.recursive]
    refine h _ _ (fun rest hr => ?_) text he
    by_cases hlt : rest.length < text.length
    · have hlt' : (rest ++ tail).length < (text ++ tail).length := by simpa using hlt
      rw [if_pos hlt, if_pos hlt']
      exact ih _ hlt rest hr rfl
    · rw [if_neg hlt]
      exact keepsAt_error

/-! ## Characters -/

theorem keeps_peek : Keeps tail (peek : Parser _) peek :=
  keeps_of_cons (fun _ _ h => (Prod.mk.inj (Except.ok.inj h)).2.symm)
    fun _ _ _ => keepsAt_ok (List.suffix_refl _)

theorem keeps_advance : Keeps tail (advance : Parser _) advance :=
  keeps_of_cons (fun _ _ h => (Prod.mk.inj (Except.ok.inj h)).2.symm)
    fun c text _ => keepsAt_ok (List.suffix_cons c text)

theorem keeps_takeWhile (pred : Char → Bool) :
    Keeps tail (takeWhile pred : Parser _) (takeWhile pred) := by
  intro text he a rest hx
  obtain ⟨rfl, rfl⟩ := Prod.mk.inj (Except.ok.inj hx)
  refine ⟨List.dropWhile_suffix _, fun hn => ?_⟩
  rw [← dropWhile_append_of_ne_nil hn, ← takeWhile_append_of_ne_nil hn]
  rfl

theorem keeps_skipWhile (pred : Char → Bool) :
    Keeps tail (skipWhile pred : Parser _) (skipWhile pred) := by
  intro text he a rest hx
  obtain ⟨-, rfl⟩ := Prod.mk.inj (Except.ok.inj hx)
  refine ⟨List.dropWhile_suffix _, fun hn => ?_⟩
  rw [← dropWhile_append_of_ne_nil hn]
  rfl

theorem keeps_skipBlank : Keeps tail (skipBlank : Parser _) skipBlank := keeps_skipWhile _

theorem keeps_skipInlineBlank : Keeps tail (skipInlineBlank : Parser _) skipInlineBlank :=
  keeps_skipWhile _

theorem keeps_takeOne (c : Char) : Keeps tail (takeOne c : Parser _) (takeOne c) :=
  keeps_peek.bind fun _ => (keeps_advance.bind fun _ => keeps_pure _).choice (keeps_pure _)

theorem keeps_expect (c : Char) : Keeps tail (expect c) (expect c) :=
  keeps_peek.bind fun _ => keeps_advance.choice (keeps_fail _)

end

end Fluent.Grammar
