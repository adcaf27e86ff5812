import Fluent.Text.Space

/-!
# Readers of text

A reader takes a part of the text in front of it and leaves the rest, or stops with an error. The
rest is always an end of the text, so it stands for a position in it. Two forms of repetition are
built on this: `iterate` runs rounds for as long as they use up text, and `recursive` lets a reader
use itself on shorter text.
-/

namespace Fluent.Text

/-- A reader of the text in front of it, which stops with errors of type `ε`. -/
abbrev Reader (ε : Type) : Type → Type := StateT (List Char) (Except ε)

namespace Reader

variable {ε : Type}

/-- The next character. -/
def peek : Reader ε (Option Char) := do return (← get).head?

/-- Passes over one character. -/
def advance : Reader ε Unit := modify (List.drop 1)

/-- Passes over the characters that satisfy `p`, up to the first that does not. -/
def skipWhile (p : Char → Bool) : Reader ε Unit := modify (List.dropWhile p)

/-- Reads the characters that satisfy `p`, up to the first that does not. -/
def takeWhile (p : Char → Bool) : Reader ε (List Char) := do
  let text ← get
  set (text.dropWhile p)
  return text.takeWhile p

/-- Reads the character `c` if it is next. -/
def takeOne (c : Char) : Reader ε (List Char) := do
  if (← peek) = some c then
    advance
    return [c]
  else return []

/-- Passes over blank text, line ends included. -/
def skipBlank : Reader ε Unit := skipWhile isBlank

/-- Passes over blank text within a line. -/
def skipInlineBlank : Reader ε Unit := skipWhile isInlineBlank

/-- Whether there is another round to come. -/
inductive Round (σ : Type) where
  | again (state : σ)
  | done (state : σ)

/-- Runs rounds from a first state until one is done or uses up no text. -/
def iterate {σ : Type} (round : σ → Reader ε (Round σ)) (state : σ) : Reader ε σ := fun text =>
  match round state text with
  | .error error => .error error
  | .ok (.done state, rest) => .ok (state, rest)
  | .ok (.again state, rest) =>
    if rest.length < text.length then iterate round state rest else .ok (state, rest)
termination_by text => text.length

/-- The reader that `step` builds from itself, provided that `step` uses it on shorter text only;
on text that is not shorter it stops with the error `stuck`. -/
def recursive {α : Type} (stuck : List Char → ε) (step : Reader ε α → Reader ε α) : Reader ε α :=
  fun text =>
    step (fun rest =>
      if rest.length < text.length then recursive stuck step rest else .error (stuck rest)) text
termination_by text => text.length

end Reader

end Fluent.Text
