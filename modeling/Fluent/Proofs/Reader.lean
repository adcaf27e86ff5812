import Fluent.Grammar.Parser

/-!
# What readers do to a text

Equations that run the readers of `Fluent.Text.Reader` and `Fluent.Grammar.Parser` on a text, so
that nothing later opens the monad they are written in:

* one equation for each primitive, followed by what comes after it;
* `bind_apply`: one reader after another;
* `iterate` and `recursive` have their own defining equations.
-/

namespace Fluent.Text.Reader

variable {ε α β : Type}

theorem bind_apply (p : Reader ε α) (k : α → Reader ε β) (text : List Char) :
    (p >>= k) text = match p text with
      | .ok (a, rest) => k a rest
      | .error error => .error error := by
  change (p text >>= fun x => k x.1 x.2) = _
  cases p text <;> rfl

theorem bind_ok {p : Reader ε α} {text : List Char} {a : α} {rest : List Char}
    (h : p text = .ok (a, rest)) (k : α → Reader ε β) : (p >>= k) text = k a rest := by
  rw [bind_apply, h]

theorem bind_error {p : Reader ε α} {text : List Char} {error : ε} (h : p text = .error error)
    (k : α → Reader ε β) : (p >>= k) text = .error error := by
  rw [bind_apply, h]

theorem map_ok {p : Reader ε α} {text : List Char} {a : α} {rest : List Char}
    (h : p text = .ok (a, rest)) (f : α → β) : (f <$> p) text = .ok (f a, rest) := by
  rw [map_eq_pure_bind, bind_ok h]
  rfl

@[simp] theorem pure_apply (a : α) (text : List Char) :
    (pure a : Reader ε α) text = .ok (a, text) := rfl

@[simp] theorem get_bind_apply (k : List Char → Reader ε β) (text : List Char) :
    (get >>= k) text = k text text := rfl

@[simp] theorem set_bind_apply (rest : List Char) (k : PUnit → Reader ε β) (text : List Char) :
    (set rest >>= k) text = k ⟨⟩ rest := rfl

@[simp] theorem peek_bind_apply (k : Option Char → Reader ε β) (text : List Char) :
    (peek >>= k) text = k text.head? text := rfl

@[simp] theorem advance_bind_apply (k : Unit → Reader ε β) (text : List Char) :
    (advance >>= k) text = k () (text.drop 1) := rfl

@[simp] theorem takeWhile_bind_apply (p : Char → Bool) (k : List Char → Reader ε β)
    (text : List Char) :
    (takeWhile p >>= k) text = k (text.takeWhile p) (text.dropWhile p) := rfl

@[simp] theorem skipBlank_bind_apply (k : Unit → Reader ε β) (text : List Char) :
    (skipBlank >>= k) text = k () (text.dropWhile isBlank) := rfl

@[simp] theorem skipInlineBlank_bind_apply (k : Unit → Reader ε β) (text : List Char) :
    (skipInlineBlank >>= k) text = k () (text.dropWhile isInlineBlank) := rfl

@[simp] theorem choice_apply (c : Prop) [Decidable c] (p q : Reader ε α) (text : List Char) :
    (if c then p else q) text = if c then p text else q text := by
  split <;> rfl

@[simp] theorem takeOne_bind_apply (c : Char) (k : List Char → Reader ε β) (text : List Char) :
    (takeOne c >>= k) text =
      if text.head? = some c then k [c] (text.drop 1) else k [] text := by
  rw [bind_apply, takeOne, peek_bind_apply, choice_apply]
  by_cases h : text.head? = some c
  · rw [if_pos h, if_pos h]; rfl
  · rw [if_neg h, if_neg h]; rfl

/-- The state after a round. -/
def Round.state {σ : Type} : Round σ → σ
  | .again state => state
  | .done state => state

end Fluent.Text.Reader

namespace Fluent.Grammar.Parser

open Fluent.Text.Reader

@[simp] theorem fail_apply {α : Type} (fault : Fault) (text : List Char) :
    (fail fault : Parser α) text = .error ⟨fault, text⟩ := rfl

/-- The text that a reading leaves or in front of which it fails. -/
def stop {α : Type} : Except Failure (α × List Char) → List Char
  | .ok (_, rest) => rest
  | .error failure => failure.rest

theorem expect_apply (c : Char) (text : List Char) :
    expect c text =
      if text.head? = some c then .ok ((), text.drop 1) else .error ⟨.expectedToken c, text⟩ := by
  rw [expect, peek_bind_apply, choice_apply]
  rfl

end Fluent.Grammar.Parser
