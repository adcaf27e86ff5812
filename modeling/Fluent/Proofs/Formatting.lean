import Mathlib
import Fluent.Bundle.Format

/-!
# Formatting and resolving

Formatting goes past the evaluation for an entry without a value and for plain text, be that the
entry, its value or the pattern. It makes no difference but for the entry without a value, which has
no text, and which is no problem as long as nothing refers to it.

* `Target.Valueless`: the targets that have no text;
* `Bundle.format_eq`, `Bundle.resolve_valueless`: what formatting and resolving come to;
* `Bundle.format_agrees`: formatting against resolving, for every target.
-/

namespace Fluent

/-- The target is an entry without a value, which has attributes at most. -/
def Target.Valueless : Target → Prop
  | .entry _ (.node none _) => True
  | _ => False

namespace Bundle

/-- Formatting a target is resolving it, except that an entry without a value is no problem. -/
theorem format_eq (bundle : Bundle) (bindings : Option Variables) (target : Target)
    (problems : List Problem) :
    ((bundle.format bindings target problems).text,
        (bundle.format bindings target problems).problems) =
      (match target with
        | .entry _ (.node none _) => (none, problems)
        | _ => (some (bundle.resolve bindings target problems).text,
          (bundle.resolve bindings target problems).problems)) ∧
      (bundle.format bindings target problems).formatters =
        (bundle.resolve bindings target problems).formatters := by
  unfold format
  split <;> exact ⟨rfl, rfl⟩

/-- An entry without a value is formatted to no text, without a report. -/
theorem format_valueless (bundle : Bundle) (bindings : Option Variables) {target : Target}
    (valueless : target.Valueless) (problems : List Problem) :
    bundle.format bindings target problems =
      { text := none, problems, formatters := bundle.formatters } := by
  match target, valueless with
  | .entry _ (.node none _), _ => rfl

/-- An entry without a value is resolved to question marks, with a report. -/
theorem resolve_valueless (bundle : Bundle) (bindings : Option Variables) {target : Target}
    (valueless : target.Valueless) (problems : List Problem) :
    bundle.resolve bindings target problems =
      { text := "???", problems := problems ++ [.evaluation .noValue],
        formatters := bundle.formatters } := by
  match target, valueless with
  | .entry _ (.node none _), _ => rfl

/-- Every other target is formatted to what it is resolved to. -/
theorem format_valued (bundle : Bundle) (bindings : Option Variables) {target : Target}
    (valued : ¬target.Valueless) (problems : List Problem) :
    bundle.format bindings target problems =
      { bundle.resolve bindings target problems with
        text := some (bundle.resolve bindings target problems).text } := by
  have general := bundle.format_eq bindings target problems
  revert general
  cases bundle.format bindings target problems with
  | mk text reported kept =>
    rintro ⟨same, rfl⟩
    split at same
    · exact absurd trivial valued
    · obtain ⟨rfl, rfl⟩ := Prod.mk.inj same
      rfl

/-- Formatting has no text and reports nothing exactly for an entry without a value, which is
resolved to question marks with one report; for every other target it comes to the text, the
problems and the formatters of resolving it. -/
theorem format_agrees (bundle : Bundle) (bindings : Option Variables) (target : Target)
    (problems : List Problem) :
    ((bundle.format bindings target problems).text = none ∧
        (bundle.format bindings target problems).problems = problems ↔ target.Valueless) ∧
      (target.Valueless → bundle.resolve bindings target problems =
        { text := "???", problems := problems ++ [.evaluation .noValue],
          formatters := bundle.formatters }) ∧
      (¬target.Valueless → bundle.format bindings target problems =
        { bundle.resolve bindings target problems with
          text := some (bundle.resolve bindings target problems).text }) := by
  refine ⟨⟨fun silent => ?_, fun valueless => ?_⟩,
    fun valueless => bundle.resolve_valueless bindings valueless problems,
    fun valued => bundle.format_valued bindings valued problems⟩
  · by_cases valued : target.Valueless
    · exact valued
    rw [bundle.format_valued bindings valued problems] at silent
    cases silent.1
  · rw [bundle.format_valueless bindings valueless problems]
    exact ⟨rfl, rfl⟩

/-- A bundle with an entry that has no value but an attribute, and with another that refers to
it. -/
def referring : Bundle :=
  ((empty [] {}).insert "n" (.node none (some ((∅ : Table Pattern).insert "x" (.text "y"))))).insert
    "m" (.node (some (.elements [.placeable (.entryRef "n")])) none)

/-- A reference to an entry without a value is resolved as that entry is, but it is a value, and
formatted to the same text. -/
theorem resolve_reference_valueless :
    let target : Target :=
      .entry (some "m") (.node (some (.elements [.placeable (.entryRef "n")])) none)
    referring.messageTarget? "m" = some target ∧
      (referring.format none target []).text = some "???" ∧
      ¬(target.Valueless ↔ (referring.resolve none target []).text = "???" ∧
        (referring.resolve none target []).problems = [.evaluation .noValue]) := by
  intro target
  have text : (referring.resolve none target []).text = "???" := by cbv
  have reported : (referring.resolve none target []).problems = [.evaluation .noValue] := by cbv
  have valued : ¬target.Valueless := fun valueless => valueless
  have formatted := referring.format_valued none valued []
  refine ⟨by cbv, ?_, fun exactly => exactly.mpr ⟨text, reported⟩⟩
  rw [formatted, text]

end Bundle

end Fluent
