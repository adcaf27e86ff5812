import Fluent.Proofs.Rendering.Basic
import Fluent.Proofs.Token

/-!
# Written tokens are read back

A token is read back in front of any text that does not go on with it.

* `identifier_append`, `entryIdentifier_append`, `number_append`, `variantKey_append`: names, ids,
  numbers and keys;
* `iterate_spells`: a spelled text is read in rounds, one for each escape;
* `string_spelled`: a quoted string.
-/

namespace Fluent.Grammar

open Fluent.Grammar.Parser Fluent.Text.Reader

section

variable {p : Char → Bool} {run tail : List Char}

theorem takeWhile_run (hr : run.all p = true) (ht : tail.head?.any p = false) :
    (run ++ tail).takeWhile p = run := by
  rw [List.takeWhile_append_of_pos (List.all_eq_true.mp hr)]
  cases tail with
  | nil => simp
  | cons c tail => rw [List.takeWhile_cons_of_neg (by simpa using ht), List.append_nil]

theorem dropWhile_run (hr : run.all p = true) (ht : tail.head?.any p = false) :
    (run ++ tail).dropWhile p = tail := by
  rw [List.dropWhile_append_of_pos (List.all_eq_true.mp hr)]
  cases tail with
  | nil => rfl
  | cons c tail => rw [List.dropWhile_cons_of_neg (by simpa using ht)]

end

/-- A text that starts with one of some characters starts with no blank text, none of them being
blank. -/
theorem dropWhile_lead {p : Char → Bool} {text : List Char} (hs : p ' ' = false)
    (ht : p '\t' = false)
    (h : text.head?.any p = true) : text.dropWhile Text.isInlineBlank = text := by
  cases text with
  | nil => rfl
  | cons c text =>
    refine List.dropWhile_cons_of_neg fun hb => ?_
    rw [Text.isInlineBlank, Bool.or_eq_true, beq_iff_eq, beq_iff_eq] at hb
    rw [List.head?_cons, Option.any_some] at h
    obtain rfl | rfl := hb
    · exact absurd h (Bool.eq_false_iff.mp hs)
    · exact absurd h (Bool.eq_false_iff.mp ht)

theorem exists_cons_of_any_head? {p : Char → Bool} {text : List Char}
    (h : text.head?.any p = true) : ∃ c rest, text = c :: rest ∧ p c = true := by
  cases text with
  | nil => cases h
  | cons c text => exact ⟨c, text, rfl, h⟩

theorem any_head?_append {p : Char → Bool} {text : List Char} (tail : List Char)
    (h : text.head?.any p = true) :
    (text ++ tail).head?.any p = true := by
  obtain ⟨c, rest, rfl, hc⟩ := exists_cons_of_any_head? h
  exact hc

theorem isDigit_of_isAlpha {c : Char} (h : c.isAlpha = true) : c.isDigit = false := by
  have hc : 65 ≤ c.val.toNat := by
    obtain hu | hl := Bool.or_eq_true_iff.mp h
    · exact (of_decide_eq_true hu).1
    · have ha : 97 ≤ c.val.toNat := of_decide_eq_true (Bool.and_eq_true_iff.mp hl).1
      omega
  refine Bool.eq_false_iff.mpr fun hd => ?_
  have h9 : c.val.toNat ≤ 57 := of_decide_eq_true (Bool.and_eq_true_iff.mp hd).2
  omega

theorem isName_cases {name : List Char} (h : isName name = true) :
    name.head?.any Char.isAlpha = true ∧ name.all isIdentifierChar = true := by
  cases name with
  | nil => cases h
  | cons c rest =>
    obtain ⟨hc, hr⟩ := Bool.and_eq_true_iff.mp h
    refine ⟨hc, ?_⟩
    simp [isIdentifierChar, Char.isAlphanum, hc] at hr ⊢
    exact hr

theorem isEntryId_cases {id : List Char} (h : isEntryId id = true) :
    isName id = true ∨ ∃ name, id = '-' :: name ∧ isName name = true := by
  rw [isEntryId.eq_def] at h
  split at h
  · exact .inr ⟨_, rfl, h⟩
  · exact .inl h

theorem isEntryId_of_isName {name : List Char}
    (h : isName name = true) : isEntryId name = true := by
  rw [isEntryId.eq_def]
  split
  · obtain ⟨ha, -⟩ := isName_cases h
    cases ha
  · exact h

section

variable {name tail : List Char}

theorem identifier_append (h : isName name = true) (ht : tail.head?.any isIdentifierChar = false) :
    identifier (name ++ tail) = .ok (String.ofList name, tail) := by
  obtain ⟨ha, hn⟩ := isName_cases h
  rw [identifier_apply, if_pos (any_head?_append _ ha), takeWhile_run hn ht, dropWhile_run hn ht]

theorem entryIdentifier_append (h : isEntryId name = true)
    (ht : tail.head?.any isIdentifierChar = false) :
    entryIdentifier (name ++ tail) = .ok (String.ofList name, tail) := by
  obtain h | ⟨name, rfl, h⟩ := isEntryId_cases h
  · rw [entryIdentifier_apply, identifier_append h ht]
    obtain ⟨ha, -⟩ := isName_cases h
    cases name with
    | nil => cases ha
    | cons c name =>
      rintro ⟨⟩
      exact absurd (show Char.isAlpha '-' = true from ha) (by decide)
  · obtain ⟨ha, hn⟩ := isName_cases h
    rw [List.cons_append, entryIdentifier_hyphen, if_pos (any_head?_append _ ha),
      takeWhile_run hn ht, dropWhile_run hn ht]

theorem number_lead {literal : NumberLiteral} (h : literal.WellFormed) :
    (literal.written.toList.head?.any fun c => c.isDigit || c == '-') = true := by
  obtain ⟨⟨sign, whole, fraction, hw, hs, hne, hd, -⟩, -⟩ := h
  rw [hw]
  obtain rfl | rfl := hs
  · cases whole with
    | nil => exact absurd rfl hne
    | cons c whole =>
      have hc := List.all_eq_true.mp hd c List.mem_cons_self
      simp [hc]
  · rfl

theorem takeOne_sign {sign whole rest : List Char} {β : Type} (hs : sign = [] ∨ sign = ['-'])
    (hd : whole.all Char.isDigit = true) (hne : whole ≠ []) (k : List Char → Parser β) :
    (takeOne '-' >>= k) (sign ++ (whole ++ rest)) = k sign (whole ++ rest) := by
  obtain rfl | rfl := hs
  · rw [List.nil_append, takeOne_bind_apply, if_neg]
    cases whole with
    | nil => exact absurd rfl hne
    | cons c whole =>
      rintro ⟨⟩
      exact absurd (List.all_eq_true.mp hd '-' List.mem_cons_self) (by decide)
  · rfl

/-- A fraction is read in two parts, the point and the digits after it, or there is neither. -/
theorem takeWhile_fraction {fraction : List Char}
    (hf : fraction = [] ∨
      ∃ digits, fraction = '.' :: digits ∧ digits ≠ [] ∧ digits.all Char.isDigit = true)
    (ht : tail.head?.any Char.isDigit = false) (hp : tail.head? ≠ some '.') :
    ∃ point digits, fraction = point ++ digits ∧ (!point.isEmpty && digits.isEmpty) = false ∧
      ∀ {β : Type} (k : List Char → List Char → Parser β),
        (takeOne '.' >>= fun point => takeWhile Char.isDigit >>= k point) (fraction ++ tail) =
          k point digits tail := by
  obtain rfl | ⟨digits, rfl, hd, hall⟩ := hf
  · refine ⟨[], [], rfl, rfl, fun k => ?_⟩
    have htake : tail.takeWhile Char.isDigit = [] := takeWhile_run List.all_nil ht
    have hdrop : tail.dropWhile Char.isDigit = tail := dropWhile_run List.all_nil ht
    rw [List.nil_append, takeOne_bind_apply, if_neg hp, takeWhile_bind_apply, htake, hdrop]
  · have hdigits : digits.isEmpty = false := by simpa using hd
    refine ⟨['.'], digits, rfl, by rw [hdigits, Bool.and_false], fun k => ?_⟩
    rw [List.cons_append, takeOne_bind_apply, List.head?_cons, if_pos rfl, takeWhile_bind_apply,
      List.drop_one, List.tail_cons, takeWhile_run hall ht, dropWhile_run hall ht]

theorem number_append {literal : NumberLiteral} (h : literal.WellFormed)
    (ht : tail.head?.any Char.isDigit = false) (hp : tail.head? ≠ some '.') :
    number (literal.written.toList ++ tail) = .ok (literal, tail) := by
  obtain ⟨⟨sign, whole, fraction, hw, hs, hne, hd, hf⟩, hv⟩ := h
  have hfraction : (fraction ++ tail).head?.any Char.isDigit = false := by
    obtain rfl | ⟨digits, rfl, -, -⟩ := hf
    · exact ht
    · rfl
  have hwhole : whole.isEmpty = false := by simpa using hne
  have hl : literal = ⟨String.ofList literal.written.toList, literal.value⟩ := by
    rw [String.ofList_toList]
  obtain ⟨point, digits, rfl, hdigits, hread⟩ := takeWhile_fraction hf ht hp
  rw [hw, ← List.append_assoc (sign ++ whole)] at hv hl
  rw [hw, List.append_assoc, List.append_assoc, number, takeOne_sign hs hd hne,
    takeWhile_bind_apply, takeWhile_run hd hfraction, dropWhile_run hd hfraction, choice_apply,
    hwhole, if_neg Bool.false_ne_true, hread]
  simp only [hv, choice_apply, hdigits]
  rw [hl]
  rfl

theorem isKeyword_cases {name : List Char} (h : isKeyword name = true) :
    (name.head?.any fun c => c.isAlpha || c == '_') = true ∧ name.all isKeywordChar = true ∧
      name.getLast? ≠ some ' ' := by
  cases name with
  | nil => cases h
  | cons c rest =>
    rw [isKeyword, Bool.and_eq_true, Bool.and_eq_true, bne_iff_ne] at h
    obtain ⟨⟨hc, hr⟩, hl⟩ := h
    refine ⟨hc, ?_, fun he => ?_⟩
    · rw [List.all_cons, hr, Bool.and_true, isKeywordChar, Char.isAlphanum]
      rw [Bool.or_eq_true] at hc
      obtain hc | hc := hc <;> simp [hc]
    · rw [List.getLast?_cons] at he
      cases hr : rest.getLast? with
      | none =>
        rw [hr, Option.getD_none, Option.some_inj] at he
        subst he
        exact absurd hc (by decide)
      | some d =>
        rw [hr, Option.getD_some] at he
        exact hl (hr.trans he)

theorem dropEndWhile_eq_self {p : Char → Bool} {text : List Char}
    (h : ∀ c, text.getLast? = some c → p c = false) : Text.dropEndWhile p text = text := by
  rw [Text.dropEndWhile, ← List.head?_reverse] at *
  cases hr : text.reverse with
  | nil => simpa using hr.symm
  | cons c rest =>
    rw [hr] at h
    rw [List.dropWhile_cons_of_neg (by simpa using h c rfl), ← hr, List.reverse_reverse]

theorem keyword_append (tail : List Char) (h : isKeyword name = true) :
    keyword (name ++ ']' :: tail) = .ok (String.ofList name, ']' :: tail) := by
  obtain ⟨ha, hn, hl⟩ := isKeyword_cases h
  have hend : Text.dropEndWhile (· == ' ') name = name :=
    dropEndWhile_eq_self fun c hc => beq_false_of_ne fun he => hl (he ▸ hc)
  rw [keyword_apply, if_pos (any_head?_append _ ha), takeWhile_run hn rfl, hend]
  simp only [List.drop_left]

theorem variantKey_append {key : VariantKey} (h : key.WellFormed) :
    variantKey (key.render ++ ']' :: tail) = .ok (key, tail) := by
  have after (key : VariantKey) :
      (do skipInlineBlank; expect ']'; return key : Parser _) (']' :: tail) = .ok (key, tail) := rfl
  cases key with
  | number literal =>
    have hlead := any_head?_append (']' :: tail) (number_lead h)
    have hn : number (literal.written.toList ++ ']' :: tail) = .ok (literal, ']' :: tail) :=
      number_append h rfl (by simp)
    rw [VariantKey.render, variantKey, skipInlineBlank_bind_apply,
      dropWhile_lead rfl rfl hlead, peek_bind_apply, choice_apply, if_pos hlead,
      bind_ok (map_ok hn _)]
    exact after _
  | keyword name =>
    have hk := keyword_append tail h
    obtain ⟨ha, -, -⟩ := isKeyword_cases h
    have hlead := any_head?_append (']' :: tail) ha
    have hnumber : ¬((name.toList ++ ']' :: tail).head?.any fun c => c.isDigit || c == '-') := by
      obtain ⟨c, rest, ht, hc⟩ := exists_cons_of_any_head? ha
      rw [Bool.or_eq_true, beq_iff_eq] at hc
      rw [ht, List.cons_append, List.head?_cons, Option.any_some, Bool.or_eq_true, beq_iff_eq]
      obtain hc | rfl := hc
      · rintro (hd | rfl)
        · rw [isDigit_of_isAlpha hc] at hd
          cases hd
        · exact absurd hc (by decide)
      · decide
    rw [VariantKey.render, variantKey, skipInlineBlank_bind_apply,
      dropWhile_lead rfl rfl hlead, peek_bind_apply, choice_apply, if_neg hnumber,
      bind_ok (map_ok hk _), String.ofList_toList]
    exact after _

end

/-! ## Escapes -/

/-- Whether the escape of a character is one of those allowed. -/
def CanEscape (marks : List Char) (c : Char) : Prop :=
  ∀ tail, escape marks (escaped c ++ tail) = .ok (c, tail)

theorem escaped_cons (c : Char) : ∃ form, escaped c = '\\' :: form := by
  rw [escaped]
  split
  · exact ⟨_, rfl⟩
  · split
    · exact ⟨_, rfl⟩
    · split <;> exact ⟨_, rfl⟩

theorem escaped_no_lineFeed (c : Char) : '\n' ∉ escaped c := by
  rw [escaped]
  split
  · decide
  · split
    · decide
    · split
      · decide
      · rename_i hn _ _
        rintro (_ | ⟨_, _ | ⟨_, hm⟩⟩)
        · exact hn rfl
        · cases hm

/-- A form of a text: each character as it is, if it is plain, or as an escape. -/
inductive Spells (plain : Char → Bool) (marks : List Char) : List Char → List Char → Prop
  | nil : Spells plain marks [] []
  | plain {c : Char} {form text : List Char} (hc : plain c = true)
    (rest : Spells plain marks form text) : Spells plain marks (c :: form) (c :: text)
  | escape {c : Char} {form text : List Char} (hc : CanEscape marks c)
    (rest : Spells plain marks form text) : Spells plain marks (escaped c ++ form) (c :: text)

section

variable {plain : Char → Bool} {marks form text : List Char}

theorem Spells.append {form' text' : List Char} (h : Spells plain marks form text)
    (h' : Spells plain marks form' text') : Spells plain marks (form ++ form') (text ++ text') := by
  induction h with
  | nil => exact h'
  | plain hc _ ih => exact .plain hc ih
  | escape hc _ ih =>
    rw [List.append_assoc]
    exact .escape hc ih

theorem spells_spelled (h : ∀ c, plain c = false → CanEscape marks c) (text : List Char) :
    Spells plain marks (spelled plain text) text := by
  induction text with
  | nil => exact .nil
  | cons c text ih =>
    rw [spelled, List.flatMap_cons]
    cases hc : plain c with
    | false => exact .escape (h c hc) ih
    | true => exact .plain hc ih

theorem Spells.no_lineFeed (h : Spells plain marks form text) (hp : plain '\n' = false) :
    '\n' ∉ form := by
  induction h with
  | nil => exact List.not_mem_nil
  | plain hc _ ih =>
    rintro (_ | ⟨_, hm⟩)
    · rw [hp] at hc
      cases hc
    · exact ih hm
  | @escape c form text _ _ ih =>
    rw [List.mem_append, not_or]
    exact ⟨escaped_no_lineFeed c, ih⟩

theorem Spells.plain_of_no_backslash (h : Spells plain marks form text) (hb : '\\' ∉ form) :
    form = text ∧ text.all plain = true := by
  induction h with
  | nil => exact ⟨rfl, rfl⟩
  | plain hc _ ih =>
    obtain ⟨rfl, ha⟩ := ih fun hm => hb (List.mem_cons_of_mem _ hm)
    exact ⟨rfl, by rw [List.all_cons, hc, ha]; rfl⟩
  | @escape c _ _ _ _ _ =>
    obtain ⟨rest, he⟩ := escaped_cons c
    exact absurd (by rw [he]; exact List.mem_cons_self) hb

/-- Rounds that read a form up to each of its escapes come to its last plain characters. -/
theorem iterate_spells {σ : Type} {round : σ → Parser (Round σ)} {push : σ → List Char → σ}
    (hnil : ∀ state, push state [] = state)
    (hpush : ∀ state front last, push (push state front) last = push state (front ++ last))
    (hround : ∀ state run c tail, run.all plain = true → CanEscape marks c →
      round state (run ++ (escaped c ++ tail)) = .ok (.again (push state (run ++ [c])), tail))
    (h : Spells plain marks form text) (state : σ) (run : List Char)
    (hrun : run.all plain = true) :
    ∃ front last, run ++ text = front ++ last ∧ last.all plain = true ∧
      ∀ tail, iterate round state (run ++ (form ++ tail)) =
        iterate round (push state front) (last ++ tail) := by
  induction h generalizing state run with
  | nil => exact ⟨[], run, List.append_nil run, hrun, fun tail => by rw [hnil]; rfl⟩
  | @plain c form text hc _ ih =>
    obtain ⟨front, last, ht, hl, hi⟩ := ih state (run ++ [c]) (by simp [hrun, hc])
    exact ⟨front, last, by simpa using ht, hl, fun tail => by simpa using hi tail⟩
  | @escape c form text hc _ ih =>
    obtain ⟨front, last, ht, hl, hi⟩ := ih (push state (run ++ [c])) [] rfl
    rw [List.nil_append] at ht
    refine ⟨run ++ [c] ++ front, last, by simp [ht], hl, fun tail => ?_⟩
    have hlt : (form ++ tail).length < (run ++ (escaped c ++ (form ++ tail))).length := by
      obtain ⟨rest, he⟩ := escaped_cons c
      simp only [he, List.length_append, List.length_cons]
      omega
    rw [iterate, List.append_assoc (escaped c), hround state run c _ hrun hc]
    simp only [if_pos hlt]
    rw [← hpush state (run ++ [c])]
    exact hi tail

end

theorem stringRound_escape {read run tail : List Char} {c : Char}
    (hrun : run.all isStringChar = true) (hc : CanEscape ['{', '\\', '"'] c) :
    stringRound read (run ++ (escaped c ++ tail)) = .ok (.again (read ++ (run ++ [c])), tail) := by
  obtain ⟨form, he⟩ := escaped_cons c
  have hhead : (escaped c ++ tail).head?.any isStringChar = false := by rw [he]; rfl
  have hx := hc tail
  rw [stringRound_apply, takeWhile_run hrun hhead, dropWhile_run hrun hhead]
  rw [he] at hx ⊢
  exact (bind_ok hx _).trans (by rw [List.append_assoc]; rfl)

theorem string_spelled (text tail : List Char) :
    string ('"' :: spelled isStringChar text ++ '"' :: tail) = .ok (String.ofList text, tail) := by
  have hs : Spells isStringChar ['{', '\\', '"'] (spelled isStringChar text) text := by
    refine spells_spelled (fun c hc => ?_) text
    simp only [isStringChar, Bool.and_eq_false_iff, bne_eq_false_iff_eq, or_assoc] at hc
    obtain rfl | rfl | rfl := hc <;> exact fun tail => rfl
  obtain ⟨front, last, ht, hl, hi⟩ := iterate_spells List.append_nil List.append_assoc
    (fun _ _ _ _ => stringRound_escape) hs [] [] rfl
  have hlast : iterate stringRound ([] ++ front) (last ++ '"' :: tail) =
      .ok (text, tail) := by
    rw [iterate, stringRound_apply, takeWhile_run hl rfl, dropWhile_run hl rfl]
    simp only [List.nil_append] at ht ⊢
    rw [ht]
  have hread : iterate stringRound [] (spelled isStringChar text ++ '"' :: tail) =
      .ok (text, tail) := (hi _).trans hlast
  rw [string, List.cons_append, advance_bind_apply, List.drop_one, List.tail_cons, bind_ok hread]
  rfl

end Fluent.Grammar
