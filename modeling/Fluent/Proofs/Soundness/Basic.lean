import Fluent.Proofs.Reader

/-!
# What readers yield

A property of all that a reader yields follows from the readers that it is made of, on whatever text
it is run.

* `Yields`: a property of what a reader yields;
* `Yields.bind`, `Yields.choice`: readers put together;
* `Yields.iterate`, `Yields.recursive`: what each round keeps, and what a reader may take for granted
  of itself;
* `iterate_cases`, `iterate_yields`: the first round on a text, and those after it.
-/

namespace Fluent.Grammar

open Fluent.Grammar.Parser Fluent.Text.Reader

/-- What a reader yields has the property, whatever text it is run on. -/
def Yields {α : Type} (p : Parser α) (Q : α → Prop) : Prop :=
  ∀ text a rest, p text = .ok (a, rest) → Q a

section

variable {α β σ : Type} {p q : Parser α} {Q R : α → Prop} {S : β → Prop}

theorem Yields.mono (yields : Yields p Q) (h : ∀ a, Q a → R a) : Yields p R :=
  fun text a rest read => h a (yields text a rest read)

theorem yields_pure {a : α} (h : Q a) : Yields (pure a) Q := by
  intro text b rest read
  obtain ⟨rfl, -⟩ := Prod.mk.inj (Except.ok.inj read)
  exact h

theorem yields_fail (fault : Fault) : Yields (fail fault : Parser α) Q := nofun

/-- One reader after another has read what both have read. -/
theorem exists_of_bind_ok {k : α → Parser β} {text rest : List Char} {b : β}
    (read : (p >>= k) text = .ok (b, rest)) :
    ∃ a mid, p text = .ok (a, mid) ∧ k a mid = .ok (b, rest) := by
  rw [bind_apply] at read
  cases hp : p text with
  | error failure => rw [hp] at read; cases read
  | ok found =>
    rw [hp] at read
    exact ⟨_, _, rfl, read⟩

theorem Yields.bind {k : α → Parser β} (yields : Yields p Q)
    (next : ∀ a, Q a → Yields (k a) S) : Yields (p >>= k) S := by
  intro text b rest read
  obtain ⟨a, mid, first, read⟩ := exists_of_bind_ok read
  exact next a (yields text a mid first) mid b rest read

/-- Whatever comes first, what comes next decides. -/
theorem yields_bind {k : α → Parser β} (next : ∀ a, Yields (k a) S) : Yields (p >>= k) S :=
  Yields.bind (Q := fun _ => True) (fun _ _ _ _ => trivial) fun a _ => next a

theorem Yields.map {f : α → β} (yields : Yields p Q) (h : ∀ a, Q a → S (f a)) :
    Yields (f <$> p) S := by
  rw [map_eq_pure_bind]
  exact yields.bind fun a ha => yields_pure (h a ha)

theorem Yields.choice {P : Prop} [Decidable P] (first : P → Yields p Q)
    (second : ¬P → Yields q Q) : Yields (if P then p else q) Q := by
  split
  · exact first ‹_›
  · exact second ‹_›

theorem yields_takeOne (c : Char) : Yields (takeOne c) fun run => run = [] ∨ run = [c] := by
  refine yields_bind fun next => .choice (fun _ => ?_) fun _ => yields_pure (.inl rfl)
  exact yields_bind fun _ => yields_pure (.inr rfl)

/-- Rounds end with the state after the first one, or with that after those of what it leaves. -/
theorem iterate_cases {round : σ → Parser (Round σ)} {state last : σ} {text rest : List Char}
    (read : Text.Reader.iterate round state text = .ok (last, rest)) :
    ∃ next mid, round state text = .ok (next, mid) ∧
      (last = next.state ∧ rest = mid ∨ mid.length < text.length ∧
        Text.Reader.iterate round next.state mid = .ok (last, rest)) := by
  rw [Text.Reader.iterate] at read
  cases hr : round state text with
  | error failure => rw [hr] at read; cases read
  | ok found =>
    obtain ⟨next, mid⟩ := found
    rw [hr] at read
    refine ⟨next, mid, rfl, ?_⟩
    cases next with
    | done state => exact .inl ((Prod.mk.inj (Except.ok.inj read)).imp Eq.symm Eq.symm)
    | again state =>
      dsimp only at read
      split at read
      · exact .inr ⟨‹_›, read⟩
      · exact .inl ((Prod.mk.inj (Except.ok.inj read)).imp Eq.symm Eq.symm)

theorem Yields.iterate {round : σ → Parser (Round σ)} {I : σ → Prop}
    (keeps : ∀ state, I state → Yields (round state) fun next => I next.state) {state : σ}
    (holds : I state) : Yields (Text.Reader.iterate round state) I := by
  intro text
  induction hn : text.length using Nat.strongRecOn generalizing text state with
  | ind n ih =>
    subst hn
    intro last rest read
    obtain ⟨next, mid, hr, ⟨rfl, -⟩ | ⟨shorter, read⟩⟩ := iterate_cases read
    · exact keeps state holds text next mid hr
    · exact ih _ shorter (keeps state holds text next mid hr) mid rfl last rest read

/-- What holds after the first round and is kept by those after it holds in the end. -/
theorem iterate_yields {round : σ → Parser (Round σ)} {I : σ → Prop}
    (keeps : ∀ state, I state → Yields (round state) fun next => I next.state) {state last : σ}
    {text rest : List Char}
    (first : ∀ next mid, round state text = .ok (next, mid) → I next.state)
    (read : Text.Reader.iterate round state text = .ok (last, rest)) : I last := by
  obtain ⟨next, mid, hr, ⟨rfl, -⟩ | ⟨-, read⟩⟩ := iterate_cases read
  · exact first next mid hr
  · exact Yields.iterate keeps (first next mid hr) mid last rest read

theorem Yields.recursive {stuck : List Char → Failure} {step : Parser α → Parser α}
    (keeps : ∀ self, Yields self Q → Yields (step self) Q) :
    Yields (Text.Reader.recursive stuck step) Q := by
  intro text
  induction hn : text.length using Nat.strongRecOn generalizing text with
  | ind n ih =>
    subst hn
    rw [Text.Reader.recursive]
    refine keeps _ (fun next a rest read => ?_) text
    split at read
    · exact ih _ ‹_› next rfl a rest read
    · cases read

end

end Fluent.Grammar
