import Fluent.Grammar.Fault
import Fluent.Text.Reader

/-!
# Parsers

A parser is a reader that fails with a fault and the rest of the text at which it stopped, so the
fault has a place.
-/

namespace Fluent.Grammar

/-- A fault and the text in front of which it was found. -/
structure Failure where
  fault : Fault
  rest : List Char
  deriving DecidableEq, Repr

/-- A reader that fails with a fault. -/
abbrev Parser : Type → Type := Text.Reader Failure

namespace Parser

open Fluent.Text.Reader

/-- Stops with the fault where the parser stands. -/
def fail {α : Type} (fault : Fault) : Parser α := do throw ⟨fault, ← get⟩

/-- Passes over the character `c`, which has to be next. -/
def expect (c : Char) : Parser Unit := do
  if (← peek) = some c then advance else fail (.expectedToken c)

end Parser

end Fluent.Grammar
