import Fluent.Proofs.Placeable
import Fluent.Proofs.Returns.Pattern

/-!
# Placeables without carriage returns

No text inside a placeable holds a carriage return, by induction on the room for braces.

* `tamely_inlineExpression`, `tamely_variants`: what may stand between braces;
* `tamelyAt_placeable`: a placeable with so much room for braces.
-/

namespace Fluent.Grammar

open Fluent.Grammar.Parser Fluent.Text.Reader

/-! ## Inline expressions -/

/-- An expression without a text of its own and with nothing inside it. -/
theorem returnless_single {expression : Expression} (none : (Node.expression expression).texts = [])
    (single : ∀ step next, ¬(Node.expression expression).Holds step next) :
    (Node.expression expression).Returnless :=
  Node.returnless_of_holds (by simp [none]) fun step next holds => (single step next holds).elim

theorem returnless_string {value : String} (none : '\r' ∉ value.toList) :
    (Node.expression (.string value)).Returnless :=
  Node.returnless_of_holds (by simpa [Node.texts] using none) fun _ _ holds => nomatch holds

theorem tamely_literal : Tamely literal fun read => (Node.expression read).Returnless := by
  refine fun next => tamelyAt_get fun text _ head => .choice (fun here => ?_) fun _ =>
    .choice (fun _ => ?_) fun _ => .choice (fun _ => ?_) fun _ => .choice (fun here => ?_) fun _ =>
      tamelyAt_fail _
  · refine tamelyAt_advance (by simp [← head, here]) fun next => ?_
    exact (tamely_identifier next).bind fun _ _ _ =>
      tamelyAt_pure (returnless_single rfl (by rintro _ _ ⟨⟩))
  · exact (tamely_entryIdentifier next).bind fun _ _ _ =>
      tamelyAt_pure (returnless_single rfl (by rintro _ _ ⟨⟩))
  · exact (tamely_number next).bind fun _ _ _ =>
      tamelyAt_pure (returnless_single rfl (by rintro _ _ ⟨⟩))
  · rw [← head, here]
    exact tamelyAt_string.bind fun _ none _ => tamelyAt_pure (returnless_string none)

theorem tamely_closePlaceable : Tamely closePlaceable fun _ => True :=
  fun _ => tamelyAt_skipWhile rfl (tamely_expect (by decide))

section

variable {placeable expression : Parser Expression}

theorem tamely_argument
    (tamely : Tamely expression fun read => (Node.expression read).Returnless) :
    Tamely (argument expression) fun read => (Node.expression read.value).Returnless := by
  refine fun next => (tamely next).bind fun value none next => ?_
  split
  · refine tamelyAt_skipWhile rfl fun next => tamelyAt_peek (.choice (fun here => ?_) fun _ => ?_)
    · refine tamelyAt_advance (by simp [here]) fun next => tamelyAt_skipWhile rfl fun next => ?_
      refine (tamely next).bind fun value none next => ?_
      exact .choice (fun _ => tamelyAt_pure none) fun _ => tamelyAt_fail _
    · exact tamelyAt_pure none
  · exact tamelyAt_pure none

/-- No argument holds a carriage return. -/
def ReturnlessArguments (arguments : List Argument) : Prop :=
  ∀ argument ∈ arguments, (Node.expression argument.value).Returnless

theorem tamely_argumentRound
    (tamely : Tamely expression fun read => (Node.expression read).Returnless)
    (arguments : List Argument) (none : ReturnlessArguments arguments) :
    Tamely (argumentRound expression arguments) (Kept ReturnlessArguments ReturnlessArguments) := by
  refine fun next => tamelyAt_get fun text _ _ => .choice (fun _ => tamelyAt_pure none) fun _ => ?_
  refine tamelyAt_skipWhile rfl fun next => tamelyAt_peek ?_
  refine .choice (fun _ => tamelyAt_pure none) fun _ => ?_
  refine (tamely_argument tamely next).bind fun argument one next => ?_
  have more : ReturnlessArguments (arguments ++ [argument]) := fun other member =>
    (List.mem_append.mp member).elim (none other) fun last => List.mem_singleton.mp last ▸ one
  refine tamelyAt_skipWhile rfl fun next => tamelyAt_peek ?_
  split
  · exact tamelyAt_pure more
  · exact tamelyAt_advance (by decide) fun _ => tamelyAt_pure more
  · exact tamelyAt_fail _

theorem tamely_referenceTail
    (tamely : Tamely expression fun read => (Node.expression read).Returnless) (name : String) :
    Tamely (referenceTail expression name) fun read => (Node.expression read).Returnless := by
  refine fun next => tamelyAt_peek ?_
  split
  · refine tamelyAt_advance (by decide) fun next => ?_
    exact (tamely_identifier next).bind fun _ _ _ =>
      tamelyAt_pure (returnless_single rfl (by rintro _ _ ⟨⟩))
  · refine tamelyAt_advance (by decide) fun next => ?_
    exact (tamely_variantKey next).bind fun _ _ _ =>
      tamelyAt_pure (returnless_single rfl (by rintro _ _ ⟨⟩))
  · refine tamelyAt_advance (by decide) fun next => ?_
    refine TamelyAt.bind (Tamely.iterate (tamely_argumentRound tamely) (fun _ none => none)
      (by simp [ReturnlessArguments]) next) fun arguments none next => ?_
    refine .choice (fun _ => ?_) fun _ => tamelyAt_fail _
    refine (tamely_expect (by decide) next).bind fun _ _ _ => tamelyAt_pure ?_
    refine Node.returnless_of_holds (by simp [Node.texts]) fun step next holds => ?_
    cases holds with
    | argument one => exact none _ one
  · exact tamelyAt_pure (returnless_single rfl (by rintro _ _ ⟨⟩))

variable (tamely : TamelyAt (some '{') placeable fun read => (Node.expression read).Returnless)

include tamely

theorem tamely_inlineExpression :
    Tamely (inlineExpression placeable) fun read => (Node.expression read).Returnless := by
  refine Tamely.recursive fun self inner next => tamelyAt_peek ?_
  refine .choice (fun here => here ▸ tamely) fun _ => ?_
  refine (tamely_literal next).bind fun found none => ?_
  split
  · exact tamely_referenceTail inner _
  · exact fun _ => tamelyAt_pure none

/-! ## Placeables -/

/-- No variant holds a carriage return. -/
def ReturnlessVariants (read : List Variant × Option Nat) : Prop :=
  ∀ member ∈ read.1, (Node.pattern member.value).Returnless

theorem tamely_variantRound (read : List Variant × Option Nat) (none : ReturnlessVariants read) :
    Tamely (variantRound placeable read) (Kept ReturnlessVariants ReturnlessVariants) := by
  refine fun next => tamelyAt_get fun text tame _ => ?_
  refine .choice (fun _ => ?_) fun _ => tamelyAt_pure none
  have onward : Tame (if text.head? = some '*' then text.drop 1 else text) := by
    split
    · obtain ⟨text, rfl⟩ := List.head?_eq_some_iff.mp ‹_›
      exact tame.tail (by decide)
    · exact tame
  refine tamelyAt_set onward fun next => (tamely_expect (by decide) next).bind fun _ _ next => ?_
  refine (tamely_variantKey next).bind fun key _ next => tamelyAt_skipWhile rfl fun next => ?_
  refine (tamely_pattern tamely next).bind fun value one next => ?_
  cases value with
  | none => exact tamelyAt_fail _
  | some value =>
    refine tamelyAt_skipWhile rfl fun next => tamelyAt_pure fun member found => ?_
    obtain found | found := List.mem_append.mp found
    · exact none member found
    · exact List.mem_singleton.mp found ▸ one value rfl

theorem tamely_variants : Tamely (variants placeable) ReturnlessVariants :=
  Tamely.iterate (tamely_variantRound tamely) (fun _ none => none) (by simp [ReturnlessVariants])

theorem tamely_selectTail {selector : Expression} (chosen : (Node.expression selector).Returnless) :
    Tamely (selectTail placeable selector) fun read => (Node.expression read).Returnless := by
  have members : Tamely (selectMembers placeable selector)
      fun read => (Node.expression read).Returnless := by
    refine fun next => (tamely_variants tamely next).bind fun read none next => ?_
    refine .choice (fun _ => tamelyAt_fail _) fun _ => ?_
    refine (tamely_closePlaceable next).bind fun _ _ next => tamelyAt_pure ?_
    refine Node.returnless_of_holds (by simp [Node.texts]) fun step next holds => ?_
    cases holds with
    | selector => exact chosen
    | variant one => exact none _ one
  have onward : Tamely (do
      if (← peek) = some '\n' then
        skipBlank
        selectMembers placeable selector
      else fail .variantsOnNewLine : Parser Expression)
      fun read => (Node.expression read).Returnless :=
    fun next => tamelyAt_peek (.choice (fun _ => tamelyAt_skipWhile rfl members)
      fun _ => tamelyAt_fail _)
  refine fun next => tamelyAt_skipWhile rfl fun next => tamelyAt_get fun text tame _ => ?_
  split
  · exact tamelyAt_set (tame.tail (by decide)) onward
  · exact onward next

theorem tamely_placeableTail {shown : Expression} (none : (Node.expression shown).Returnless) :
    Tamely (placeableTail placeable shown) fun read => (Node.expression read).Returnless := by
  refine fun next => tamelyAt_skipWhile rfl fun next => tamelyAt_get fun text tame _ => ?_
  split
  · refine .choice (fun _ => tamelyAt_fail _) fun _ => ?_
    exact tamelyAt_set (tame.tail (by decide)) fun _ => tamelyAt_pure none
  · split
    · exact tamelyAt_fail _
    · exact tamelyAt_set ((tame.tail (by decide)).tail (by decide)) (tamely_selectTail tamely none)
  · exact tamelyAt_fail _

theorem tamelyAt_placeableBody : TamelyAt (some '{') (placeableBody placeable)
    fun read => (Node.expression read).Returnless := by
  refine tamelyAt_advance (by decide) fun next => tamelyAt_get fun text _ _ => ?_
  refine .choice (fun _ => ?_) fun _ => ?_
  · refine tamelyAt_skipWhile rfl fun next => ?_
    refine (tamely_variants tamely next).bind fun read none next => ?_
    refine (tamely_closePlaceable next).bind fun _ _ next => tamelyAt_pure ?_
    refine Node.returnless_of_holds (by simp [Node.texts]) fun step next holds => ?_
    cases holds with
    | listed one => exact none _ one
  · refine tamelyAt_skipWhile rfl fun next => ?_
    exact (tamely_inlineExpression tamely next).bind fun _ none => tamely_placeableTail tamely none

end

/-- A placeable holds no carriage return, however much room there is for braces. -/
theorem tamelyAt_placeable (room : Nat) : TamelyAt (some '{') (placeable room)
    fun read => (Node.expression read).Returnless := by
  induction room with
  | zero => exact tamelyAt_fail _
  | succ room ih => exact tamelyAt_placeableBody ih

end Fluent.Grammar
