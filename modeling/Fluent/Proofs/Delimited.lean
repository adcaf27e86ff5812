import Fluent.Proofs.Rendering.Token
import Fluent.Text.CharCode
import Fluent.Text.Quoted
import Mathlib.Tactic.IntervalCases

/-!
# Codes that show where their words end

What follows a word of a self-delimiting code never makes it a word for something else, so words can
be put one behind the other without marks between them. Quoted text is such a code.

* `SelfDelimiting.flatMap`: the words for the items of a list tell lists apart;
* `quoted_selfDelimiting`: the quoted form of a text shows where it ends.
-/

namespace Fluent.Text

open Fluent.Grammar (takeWhile_run dropWhile_run)

section

variable {α : Type} {P : α → Prop} {code : α → List Char}

/-- A word of the code, in front of any text, is the word for one thing only and ends at one place
only. This is asked of what satisfies `P`. -/
def SelfDelimiting (P : α → Prop) (code : α → List Char) : Prop :=
  ∀ a b rest rest', P a → P b → code a ++ rest = code b ++ rest' → a = b ∧ rest = rest'

/-- A code is self-delimiting if its words are read back in front of any text. -/
theorem SelfDelimiting.of_decode (decode : List Char → Option (α × List Char))
    (h : ∀ a rest, P a → decode (code a ++ rest) = some (a, rest)) : SelfDelimiting P code := by
  intro a b rest rest' ha hb same
  have read := (h a rest ha).symm.trans (same ▸ h b rest' hb)
  exact Prod.mk.inj (Option.some.inj read)

/-- The words for the items of a list, up to a text that starts with no word. -/
theorem SelfDelimiting.flatMap (h : SelfDelimiting P code) {rest rest' : List Char}
    (ends : ∀ a text, P a → rest ≠ code a ++ text) (ends' : ∀ a text, P a → rest' ≠ code a ++ text)
    {items items' : List α} (hp : ∀ a ∈ items, P a) (hp' : ∀ a ∈ items', P a)
    (same : items.flatMap code ++ rest = items'.flatMap code ++ rest') :
    items = items' ∧ rest = rest' := by
  induction items generalizing items' with
  | nil =>
    cases items' with
    | nil => exact ⟨rfl, same⟩
    | cons b items' =>
      rw [List.flatMap_cons, List.append_assoc] at same
      exact absurd same (ends b _ (hp' b List.mem_cons_self))
  | cons a items ih =>
    cases items' with
    | nil =>
      rw [List.flatMap_cons, List.append_assoc] at same
      exact absurd same.symm (ends' a _ (hp a List.mem_cons_self))
    | cons b items' =>
      rw [List.flatMap_cons, List.flatMap_cons, List.append_assoc, List.append_assoc] at same
      obtain ⟨rfl, next⟩ := h a b _ _ (hp a List.mem_cons_self) (hp' b List.mem_cons_self) same
      obtain ⟨rfl, hrest⟩ := ih (fun c hc => hp c (List.mem_cons_of_mem _ hc))
        (fun c hc => hp' c (List.mem_cons_of_mem _ hc)) next
      exact ⟨rfl, hrest⟩

/-- A run of characters ends where another kind of character follows. -/
theorem run_cancel {p : Char → Bool} {run run' tail tail' : List Char} (hr : run.all p = true)
    (hr' : run'.all p = true) (ht : tail.head?.any p = false) (ht' : tail'.head?.any p = false)
    (same : run ++ tail = run' ++ tail') : run = run' ∧ tail = tail' := by
  have first := (takeWhile_run hr ht).symm.trans (same ▸ takeWhile_run hr' ht')
  have second := (dropWhile_run hr ht).symm.trans (same ▸ dropWhile_run hr' ht')
  exact ⟨first, second⟩

end

/-- Every text behind the first one follows a separator. -/
theorem intercalate_cons (separator : Char) (first : List Char) (others : List (List Char)) :
    [separator].intercalate (first :: others) = first ++ others.flatMap (separator :: ·) := by
  induction others generalizing first with
  | nil => simp
  | cons next others ih =>
    rw [List.intercalate_cons_cons, ih]
    simp

/-! ## Quoted text -/

/-- The number that digits to the base sixteen stand for. -/
def hexValue (digits : List Char) : Nat :=
  digits.foldl (fun value c => 16 * value + hexDigitValue c) 0

theorem hexValue_append (digits : List Char) (c : Char) :
    hexValue (digits ++ [c]) = 16 * hexValue digits + hexDigitValue c := by
  rw [hexValue, List.foldl_append]
  rfl

theorem hexDigitValue_digitChar {n : Nat} (h : n < 16) :
    hexDigitValue n.digitChar = n ∧ isHexDigit n.digitChar = true := by
  interval_cases n <;> decide

theorem toDigits_hex (n : Nat) :
    hexValue (Nat.toDigits 16 n) = n ∧ (Nat.toDigits 16 n).all isHexDigit = true := by
  induction n using Nat.strong_induction_on with
  | _ n ih =>
    rcases Nat.lt_or_ge n 16 with small | large
    · obtain ⟨value, digit⟩ := hexDigitValue_digitChar small
      rw [Nat.toDigits_of_lt_base small]
      simp [hexValue, value, digit]
    · obtain ⟨value, digit⟩ := hexDigitValue_digitChar (Nat.mod_lt n (by decide))
      obtain ⟨before, digits⟩ := ih (n / 16) (by omega)
      rw [Nat.toDigits_of_base_le (by decide) large, hexValue_append, before, value,
        List.all_append, digits]
      refine ⟨by omega, ?_⟩
      simp [digit]

/-- The character in front of a text, in the form it has inside quoted text. -/
def readQuotedChar? : List Char → Option (Char × List Char)
  | '\\' :: '"' :: rest => some ('"', rest)
  | '\\' :: '\\' :: rest => some ('\\', rest)
  | '\\' :: 't' :: rest => some ('\t', rest)
  | '\\' :: 'n' :: rest => some ('\n', rest)
  | '\\' :: 'r' :: rest => some ('\r', rest)
  | '\\' :: '0' :: rest => some ('\x00', rest)
  | '\\' :: 'u' :: '{' :: rest =>
    some (.ofNat (hexValue (rest.takeWhile isHexDigit)), (rest.dropWhile isHexDigit).drop 1)
  | c :: rest => some (c, rest)
  | [] => none

theorem readQuotedChar_other {c : Char} (h : c ≠ '\\') (rest : List Char) :
    readQuotedChar? (c :: rest) = some (c, rest) := by
  unfold readQuotedChar?
  split <;> grind

theorem readQuotedChar_quotedChar (c : Char) (rest : List Char) :
    readQuotedChar? (quotedChar c ++ rest) = some (c, rest) := by
  unfold quotedChar
  split_ifs with quote backslash tab feed carriage null markless
  iterate 6
    · subst c
      rfl
  · obtain ⟨value, digits⟩ := toDigits_hex c.toNat
    have stop : ('}' :: rest).head?.any isHexDigit = false := rfl
    simp only [List.cons_append, List.nil_append, List.append_assoc, readQuotedChar?,
      takeWhile_run digits stop, dropWhile_run digits stop, value, Char.ofNat_toNat]
    rfl
  · rw [List.singleton_append]
    exact readQuotedChar_other backslash rest

theorem quotedChar_ne_quote (c : Char) (text rest : List Char) :
    '"' :: text ≠ quotedChar c ++ rest := by
  unfold quotedChar
  split_ifs with quote
  case neg => exact fun same => quote (List.cons.inj same).1.symm
  all_goals exact fun same => absurd (List.cons.inj same).1 (by decide)

/-- Quoted text shows where it ends. -/
theorem quoted_selfDelimiting : SelfDelimiting (fun _ => True) quoted := by
  intro text text' rest rest' _ _ same
  have chars : SelfDelimiting (fun _ => True) quotedChar :=
    .of_decode readQuotedChar? fun c rest _ => readQuotedChar_quotedChar c rest
  simp only [quoted, List.cons_append, List.append_assoc, List.nil_append, List.cons.injEq,
    true_and] at same
  obtain ⟨rfl, hrest⟩ := chars.flatMap (fun c _ _ => quotedChar_ne_quote c _ _)
    (fun c _ _ => quotedChar_ne_quote c _ _) (fun _ _ => trivial) (fun _ _ => trivial) same
  exact ⟨rfl, (List.cons.inj hrest).2⟩

end Fluent.Text
