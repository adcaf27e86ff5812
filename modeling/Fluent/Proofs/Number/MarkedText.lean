import Fluent.Number.Reading
import Fluent.Proofs.Delimited
import Fluent.Proofs.Number.Shortest

/-!
# Marked texts tell doubles apart

The marked text of a finite double has a sign, digits before and after a point and an exponent, each
of which can be read off the text. Together they give back the magnitude of the shortest digits, and
those tell doubles apart.

* `Written.text_injective`: the parts of a written number can be read off its text;
* `markedText_injective`: doubles with the same marked text are the same.
-/

namespace Fluent.Number

/-! ## Digits -/

theorem digitsValue_eq (digits : List Char) : digitsValue digits = Nat.ofDigitChars 10 digits 0 :=
  Nat.ofDigitChars_eq_foldl.symm

theorem digitsValue_toDigits (n : Nat) : digitsValue (Nat.toDigits 10 n) = n := by
  rw [digitsValue_eq, Nat.ofDigitChars_ten_toDigits]

theorem digitsValue_append (digits more : List Char) :
    digitsValue (digits ++ more) = 10 ^ more.length * digitsValue digits + digitsValue more := by
  rw [digitsValue_eq, digitsValue_eq, digitsValue_eq, Nat.ofDigitChars_append,
    Nat.ofDigitChars_eq_ofDigitChars_zero]

theorem all_isDigit_toDigits (n : Nat) : (Nat.toDigits 10 n).all Char.isDigit = true :=
  List.all_eq_true.mpr fun _ hc => Nat.isDigit_of_mem_toDigits (by decide) (by decide) hc

theorem digitsValue_leftpad (places n : Nat) :
    digitsValue (List.leftpad places '0' (Nat.toDigits 10 n)) = n := by
  rw [List.leftpad, digitsValue_append, digitsValue_toDigits, digitsValue_eq,
    Nat.ofDigitChars_replicate_zero]
  simp

theorem length_leftpad_toDigits {places n : Nat} (hp : places ≠ 0) (h : n < 10 ^ places) :
    (List.leftpad places '0' (Nat.toDigits 10 n)).length = places := by
  have := (Nat.length_toDigits_le_iff (by decide) (Nat.pos_of_ne_zero hp)).mpr h
  rw [List.length_leftpad]
  omega

theorem wholeText_injective {n m : Int} (h : wholeText n = wholeText m) : n = m := by
  have digit (n : Nat) (text : List Char) : Nat.toDigits 10 n ≠ '-' :: text := by
    intro same
    have hc := all_isDigit_toDigits n
    rw [same] at hc
    cases hc
  have value {n m : Nat} (h : Nat.toDigits 10 n = Nat.toDigits 10 m) : n = m := by
    rw [← digitsValue_toDigits n, h, digitsValue_toDigits]
  unfold wholeText at h
  split at h <;> split at h
  · have := value (List.cons.inj h).2
    omega
  · exact absurd h.symm (digit _ _)
  · exact absurd h (digit _ _)
  · have := value h
    omega

/-! ## Written numbers -/

/-- A number as it is written: its sign, the digits before and after the point, and the exponent if
there is one. -/
structure Written where
  negative : Bool
  whole : List Char
  fraction : List Char
  tens : Option Int

namespace Written

/-- The text of the exponent. -/
def exponentPart (tens : Option Int) : List Char := tens.elim [] fun tens => 'e' :: wholeText tens

/-- The text behind the digits of the whole part. -/
def tail (w : Written) : List Char :=
  (if w.fraction.isEmpty then [] else '.' :: w.fraction) ++ exponentPart w.tens

/-- The text of a written number. -/
def text (w : Written) : List Char := (if w.negative then ['-'] else []) ++ (w.whole ++ w.tail)

/-- The number without its sign. -/
def magnitude (w : Written) : ℚ :=
  digitsValue (w.whole ++ w.fraction) * 10 ^ (w.tens.getD 0 - w.fraction.length)

/-- There are digits before the point, and nothing but digits before and behind it. -/
structure Proper (w : Written) : Prop where
  some : w.whole ≠ []
  whole : w.whole.all Char.isDigit = true
  fraction : w.fraction.all Char.isDigit = true

variable {w w' : Written}

theorem exponentPart_injective {tens tens' : Option Int}
    (h : exponentPart tens = exponentPart tens') : tens = tens' := by
  cases tens with
  | none =>
    cases tens' with
    | none => rfl
    | some tens' => cases h
  | some tens =>
    cases tens' with
    | none => cases h
    | some tens' => rw [wholeText_injective (List.cons.inj h).2]

theorem exponentPart_head (tens : Option Int) :
    (exponentPart tens).head?.any Char.isDigit = false := by
  cases tens <;> rfl

theorem exponentPart_ne_point (tens : Option Int) (text : List Char) :
    exponentPart tens ≠ '.' :: text := by
  cases tens <;> exact fun h => nomatch h

theorem tail_head (w : Written) : w.tail.head?.any Char.isDigit = false := by
  unfold tail
  split
  · exact exponentPart_head w.tens
  · rfl

theorem tail_injective (h : w.Proper) (h' : w'.Proper) (same : w.tail = w'.tail) :
    w.fraction = w'.fraction ∧ w.tens = w'.tens := by
  unfold tail at same
  split at same <;> split at same
  next empty empty' =>
    exact ⟨(List.isEmpty_iff.mp empty).trans (List.isEmpty_iff.mp empty').symm,
      exponentPart_injective same⟩
  next => exact absurd same (exponentPart_ne_point _ _)
  next => exact absurd same.symm (exponentPart_ne_point _ _)
  next =>
    obtain ⟨fraction, tens⟩ := Text.run_cancel h.fraction h'.fraction (exponentPart_head _)
      (exponentPart_head _) (List.cons.inj same).2
    exact ⟨fraction, exponentPart_injective tens⟩

theorem Proper.starts (h : w.Proper) :
    ∃ c rest, w.whole ++ w.tail = c :: rest ∧ c.isDigit = true := by
  obtain ⟨c, rest, hw⟩ := List.exists_cons_of_ne_nil h.some
  have digits := h.whole
  rw [hw, List.all_cons, Bool.and_eq_true] at digits
  exact ⟨c, rest ++ w.tail, by rw [hw]; rfl, digits.1⟩

/-- A text that starts with a sign is no text of digits. -/
theorem Proper.unsigned (h : w.Proper) (text : List Char) : w.whole ++ w.tail ≠ '-' :: text := by
  obtain ⟨c, rest, starts, digit⟩ := h.starts
  rw [starts]
  rintro same
  obtain rfl := (List.cons.inj same).1
  cases digit

theorem Proper.text_digit (h : w.Proper) :
    (w.text.dropWhile (· == '-')).head?.any Char.isDigit = true := by
  obtain ⟨c, rest, starts, digit⟩ := h.starts
  have lead : ((c :: rest).dropWhile (· == '-')).head?.any Char.isDigit = true := by
    rw [List.dropWhile_cons_of_neg]
    · exact digit
    · intro minus
      obtain rfl := beq_iff_eq.mp minus
      cases digit
  rw [text, starts]
  cases w.negative <;> exact lead

theorem Proper.unclosed (h : w.Proper) : w.text.all (· != ')') = true := by
  have digits {text : List Char} (h : text.all Char.isDigit = true) :
      text.all (· != ')') = true := by
    refine List.all_eq_true.mpr fun c hc => ?_
    have digit := List.all_eq_true.mp h c hc
    rw [bne_iff_ne]
    rintro rfl
    cases digit
  have tens : (exponentPart w.tens).all (· != ')') = true := by
    rcases w.tens with _ | tens
    · rfl
    · simp only [exponentPart, Option.elim_some, wholeText]
      split <;> simpa using digits (all_isDigit_toDigits _)
  have sign : (if w.negative then ['-'] else []).all (· != ')') = true := by
    cases w.negative <;> rfl
  have fraction : (if w.fraction.isEmpty then [] else '.' :: w.fraction).all (· != ')') = true := by
    split
    · rfl
    · rw [List.all_cons, digits h.fraction]
      rfl
  simp only [text, tail, List.all_append, sign, digits h.whole, fraction, tens, Bool.and_true]

/-- The parts of a written number can be read off its text. -/
theorem text_injective (h : w.Proper) (h' : w'.Proper) (same : w.text = w'.text) : w = w' := by
  have signs : w.negative = w'.negative ∧ w.whole ++ w.tail = w'.whole ++ w'.tail := by
    unfold text at same
    cases hn : w.negative <;> cases hn' : w'.negative <;> rw [hn, hn'] at same
    · exact ⟨rfl, same⟩
    · exact absurd same (h.unsigned _)
    · exact absurd same.symm (h'.unsigned _)
    · exact ⟨rfl, (List.cons.inj same).2⟩
  obtain ⟨whole, tails⟩ := Text.run_cancel h.whole h'.whole (tail_head w) (tail_head w') signs.2
  obtain ⟨fraction, tens⟩ := tail_injective h h' tails
  cases w
  cases w'
  simp_all

end Written

/-! ## Marked texts -/

/-- Digits with the point after the first one. -/
def scientific (negative : Bool) (d : Digits) : Written where
  negative
  whole := (Nat.toDigits 10 d.digits).take 1
  fraction := (Nat.toDigits 10 d.digits).drop 1
  tens := some (d.exponent + ((Nat.toDigits 10 d.digits).length - 1))

/-- A decimal with at least one digit behind the point. -/
def positional (decimal : Decimal) : Written where
  negative := decimal.negative
  whole := decimal.integerDigits
  fraction := if decimal.places = 0 then ['0'] else decimal.fractionDigits
  tens := none

theorem scientific_text (negative : Bool) (d : Digits) :
    (scientific negative d).text = exponentText negative d := by
  simp [scientific, Written.text, Written.tail, Written.exponentPart, exponentText]

theorem length_fractionDigits (decimal : Decimal) :
    decimal.fractionDigits.length = decimal.places := by
  unfold Decimal.fractionDigits
  split
  · exact Eq.symm ‹_›
  · exact length_leftpad_toDigits ‹_› (Nat.mod_lt _ (Nat.pow_pos (by decide)))

theorem all_isDigit_fractionDigits (decimal : Decimal) :
    decimal.fractionDigits.all Char.isDigit = true := by
  unfold Decimal.fractionDigits
  split
  · rfl
  · rw [List.leftpad, List.all_append, List.all_replicate, all_isDigit_toDigits]
    simp

/-- The digits on both sides of the point. -/
theorem digitsValue_digits (decimal : Decimal) :
    digitsValue (decimal.integerDigits ++ decimal.fractionDigits) = decimal.scaled := by
  have fraction : digitsValue decimal.fractionDigits = decimal.scaled % 10 ^ decimal.places := by
    unfold Decimal.fractionDigits
    split
    · rename_i whole
      rw [whole, pow_zero, Nat.mod_one]
      rfl
    · rw [digitsValue_leftpad, Nat.pow_eq]
  rw [digitsValue_append, length_fractionDigits, fraction, Decimal.integerDigits,
    digitsValue_toDigits, Nat.pow_eq, Nat.div_add_mod]

theorem positional_text (decimal : Decimal) :
    (positional decimal).text =
      if decimal.places = 0 then decimal.text ++ ['.', '0'] else decimal.text := by
  by_cases whole : decimal.places = 0
  · simp [positional, Written.text, Written.tail, Written.exponentPart, Decimal.text, whole]
  · have some : decimal.fractionDigits ≠ [] :=
      List.ne_nil_of_length_pos (by rw [length_fractionDigits]; omega)
    simp [positional, Written.text, Written.tail, Written.exponentPart, Decimal.text, whole, some]

theorem scientific_proper (negative : Bool) (d : Digits) : (scientific negative d).Proper where
  some := by
    have := Nat.toDigits_ne_nil (n := d.digits) (b := 10)
    simp [scientific, this]
  whole := List.all_eq_true.mpr fun _ hc =>
    List.all_eq_true.mp (all_isDigit_toDigits d.digits) _ (List.mem_of_mem_take hc)
  fraction := List.all_eq_true.mpr fun _ hc =>
    List.all_eq_true.mp (all_isDigit_toDigits d.digits) _ (List.mem_of_mem_drop hc)

theorem positional_proper (decimal : Decimal) : (positional decimal).Proper where
  some := Nat.toDigits_ne_nil
  whole := all_isDigit_toDigits _
  fraction := by
    rw [positional]
    split
    · rfl
    · exact all_isDigit_fractionDigits decimal

theorem scientific_magnitude (negative : Bool) (d : Digits) :
    (scientific negative d).magnitude = d.magnitude := by
  have some := Nat.length_toDigits_pos (b := 10) (n := d.digits)
  simp only [scientific, Written.magnitude, List.take_append_drop, digitsValue_toDigits,
    Option.getD_some, List.length_drop, Digits.magnitude]
  congr 2
  omega

/-- The digits of a decimal give its number. -/
theorem positional_magnitude (decimal : Decimal) :
    (positional decimal).magnitude = decimal.scaled * 10 ^ (-decimal.places : Int) := by
  have value := digitsValue_digits decimal
  have places := length_fractionDigits decimal
  by_cases whole : decimal.places = 0
  · have none : decimal.fractionDigits = [] := List.length_eq_zero_iff.mp (places.trans whole)
    have digits : digitsValue (decimal.integerDigits ++ ['0']) = 10 * decimal.scaled := by
      rw [none, List.append_nil] at value
      rw [digitsValue_append, value]
      simp [digitsValue]
    simp [positional, Written.magnitude, whole, digits]
    ring
  · simp [positional, Written.magnitude, whole, value, places]

theorem toDecimal_magnitude (negative : Bool) (d : Digits) :
    ((d.toDecimal negative).scaled : ℚ) * 10 ^ (-(d.toDecimal negative).places : Int) =
      d.magnitude := by
  have ten : (10 : ℚ) ^ d.exponent = _ := zpow_eq_div 10 (by decide) d.exponent
  rw [Digits.magnitude, ten, Digits.toDecimal, zpow_neg, zpow_natCast, Nat.pow_eq, Nat.pow_eq]
  push_cast
  ring

/-- Marked texts are those of written numbers. -/
theorem markedText_finite {x : Float} {negative : Bool} {significand : Nat} {exponent : Int}
    (h : Binary64.ofFloat x = .finite negative significand exponent) :
    ∃ w : Written, w.Proper ∧ markedText x = w.text ∧ w.negative = negative ∧
      w.magnitude = (Digits.shortest significand exponent).magnitude := by
  generalize hd : Digits.shortest significand exponent = d
  simp only [markedText, h, hd]
  split
  · exact ⟨scientific negative d, scientific_proper negative d, (scientific_text negative d).symm,
      rfl, scientific_magnitude negative d⟩
  · exact ⟨positional (d.toDecimal negative), positional_proper _, (positional_text _).symm, rfl,
      (positional_magnitude _).trans (toDecimal_magnitude negative d)⟩

theorem infinityText_injective {negative negative' : Bool}
    (h : infinityText negative = infinityText negative') : negative = negative' := by
  cases negative <;> cases negative' <;> first | rfl | cases h

section

variable {x y : Float} {negative : Bool} {w : Written}

theorem markedText_nan (h : Binary64.ofFloat x = .nan) : markedText x = ['N', 'a', 'N'] := by
  rw [markedText, h]

theorem markedText_infinite (h : Binary64.ofFloat x = .infinite negative) :
    markedText x = infinityText negative := by
  rw [markedText, h]

theorem Written.Proper.ne_nan (h : w.Proper) : w.text ≠ ['N', 'a', 'N'] := by
  intro same
  have digit := h.text_digit
  rw [same] at digit
  cases digit

theorem Written.Proper.ne_infinity (h : w.Proper) : w.text ≠ infinityText negative := by
  intro same
  have digit := h.text_digit
  rw [same] at digit
  cases negative <;> cases digit

/-- Doubles with the same marked text are the same. -/
theorem markedText_injective (h : markedText x = markedText y) : x = y := by
  refine Binary64.ofFloat_injective ?_
  rcases hx : Binary64.ofFloat x with _ | negative | ⟨negative, significand, exponent⟩
  · rw [markedText_nan hx] at h
    rcases hy : Binary64.ofFloat y with _ | negative' | ⟨negative', significand', exponent'⟩
    · rfl
    · rw [markedText_infinite hy] at h
      cases negative' <;> cases h
    · obtain ⟨w, proper, text, -⟩ := markedText_finite hy
      exact absurd (text.symm.trans h.symm) proper.ne_nan
  · rw [markedText_infinite hx] at h
    rcases hy : Binary64.ofFloat y with _ | negative' | ⟨negative', significand', exponent'⟩
    · rw [markedText_nan hy] at h
      cases negative <;> cases h
    · rw [markedText_infinite hy] at h
      rw [infinityText_injective h]
    · obtain ⟨w, proper, text, -⟩ := markedText_finite hy
      exact absurd (text.symm.trans h.symm) proper.ne_infinity
  · obtain ⟨w, proper, text, sign, value⟩ := markedText_finite hx
    rw [text] at h
    rcases hy : Binary64.ofFloat y with _ | negative' | ⟨negative', significand', exponent'⟩
    · exact absurd (h.trans (markedText_nan hy)) proper.ne_nan
    · exact absurd (h.trans (markedText_infinite hy)) proper.ne_infinity
    · obtain ⟨w', proper', text', sign', value'⟩ := markedText_finite hy
      obtain rfl := Written.text_injective proper proper' (h.trans text')
      obtain ⟨rfl, rfl⟩ := Digits.shortest_injective (Binary64.normalized_of_ofFloat hx)
        (Binary64.normalized_of_ofFloat hy) (value.symm.trans value')
      rw [← sign, sign']

/-- A marked text has no parenthesis in it. -/
theorem markedText_unclosed (x : Float) : (markedText x).all (· != ')') = true := by
  rcases hx : Binary64.ofFloat x with _ | negative | ⟨negative, significand, exponent⟩
  · rw [markedText_nan hx]
    rfl
  · rw [markedText_infinite hx]
    cases negative <;> rfl
  · obtain ⟨w, proper, text, -⟩ := markedText_finite hx
    rw [text, proper.unclosed]

end

end Fluent.Number
