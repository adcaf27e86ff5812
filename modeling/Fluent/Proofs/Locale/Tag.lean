import Mathlib
import Fluent.Locale.Tag
import Fluent.Proofs.Separators

/-!
# Canonical tags

The canonical form of a subtag depends on its letters, not on their case, and on the subtags in
front of it. So all spellings of a tag are read as the same tag, the tag's own text is one of them,
and so is the text of the subtags at its front.

* `SameSpelling`: texts that differ in case, in separators and in white space around them only;
* `parse_congr`: they are read alike;
* `forms`: the canonical subtags of a text, with `forms_take` for those at its front;
* `MadeOf`: a tag with its subtags, and `MadeOf.front` for those at its front.
-/

namespace Fluent.LanguageTag

/-! ## Case -/

theorem not_isDigit_of_isAlpha {c : Char} (letter : c.isAlpha = true) : c.isDigit = false := by
  simp only [Char.isAlpha, Char.isUpper, Char.isLower, Char.isDigit, Bool.or_eq_true,
    Bool.and_eq_true, decide_eq_true_eq, UInt32.le_iff_toNat_le, ge_iff_le, Bool.and_eq_false_iff,
    decide_eq_false_iff_not] at *
  have : 'A'.val.toNat = 65 := rfl
  have : '9'.val.toNat = 57 := rfl
  have : 'a'.val.toNat = 97 := rfl
  have : '0'.val.toNat = 48 := rfl
  omega

theorem isDigit_toLower (c : Char) : c.toLower.isDigit = c.isDigit := by
  cases upper : c.isUpper with
  | false => rw [Char.toLower_eq_of_not_isUpper (by simp [upper])]
  | true =>
    have letter : c.isAlpha = true := by rw [Char.isAlpha, upper, Bool.true_or]
    rw [not_isDigit_of_isAlpha letter,
      not_isDigit_of_isAlpha ((Char.isAlpha_toLower_eq_isAlpha c).trans letter)]

theorem isAlphanum_toLower (c : Char) : c.toLower.isAlphanum = c.isAlphanum := by
  rw [Char.isAlphanum, Char.isAlphanum, Char.isAlpha_toLower_eq_isAlpha, isDigit_toLower]

/-- A subtag in lower case. -/
def lower (subtag : List Char) : List Char := subtag.map Char.toLower

@[simp] theorem length_lower (subtag : List Char) : (lower subtag).length = subtag.length :=
  List.length_map _

theorem all_lower {p : Char → Bool} (same : ∀ c, p c.toLower = p c) (subtag : List Char) :
    (lower subtag).all p = subtag.all p := by
  rw [lower, List.all_map]
  exact congrArg subtag.all (funext same)

@[simp] theorem lower_lower (subtag : List Char) : lower (lower subtag) = lower subtag := by
  simp [lower, Char.toLower_toLower_eq_toLower]

@[simp] theorem lower_upper (subtag : List Char) :
    lower (subtag.map Char.toUpper) = lower subtag := by
  simp [lower, Char.toLower_toUpper_eq_toLower]

@[simp] theorem upper_lower (subtag : List Char) :
    (lower subtag).map Char.toUpper = subtag.map Char.toUpper := by
  simp [lower, Char.toUpper_toLower_eq_toUpper]

@[simp] theorem lower_titleCase (subtag : List Char) :
    lower (titleCase subtag) = lower subtag := by
  cases subtag <;>
    simp [titleCase, lower, Char.toLower_toUpper_eq_toLower, Char.toLower_toLower_eq_toLower]

@[simp] theorem titleCase_lower (subtag : List Char) :
    titleCase (lower subtag) = titleCase subtag := by
  cases subtag <;>
    simp [titleCase, lower, Char.toUpper_toLower_eq_toUpper, Char.toLower_toLower_eq_toLower]

@[simp] theorem isScript_lower (subtag : List Char) :
    isScript (lower subtag) = isScript subtag := by
  rw [isScript, isScript, length_lower, all_lower Char.isAlpha_toLower_eq_isAlpha]

@[simp] theorem isRegion_lower (subtag : List Char) :
    isRegion (lower subtag) = isRegion subtag := by
  rw [isRegion, isRegion, length_lower, all_lower Char.isAlpha_toLower_eq_isAlpha,
    all_lower isDigit_toLower]

@[simp] theorem isLanguage_lower (subtag : List Char) :
    isLanguage (lower subtag) = isLanguage subtag := by
  rw [isLanguage, isLanguage, length_lower, all_lower Char.isAlpha_toLower_eq_isAlpha]

@[simp] theorem checkSubtag_lower (subtag : List Char) :
    checkSubtag (lower subtag) = checkSubtag subtag := by
  rw [checkSubtag, checkSubtag, all_lower isAlphanum_toLower]
  cases subtag <;> rfl

/-- The canonical form of a subtag does not show its case. -/
@[simp] theorem canonical_lower (seen : Seen) (subtag : List Char) :
    canonical seen (lower subtag) = canonical seen subtag := by
  rw [canonical, canonical]
  simp only [length_lower, isScript_lower, isRegion_lower, titleCase_lower, upper_lower]
  rw [← lower, lower_lower]
  rfl

/-- The canonical form of a subtag differs from it in case only. -/
theorem lower_canonical (seen : Seen) (subtag : List Char) :
    lower (canonical seen subtag).1 = lower subtag := by
  rw [canonical]
  split
  · exact lower_lower subtag
  · split
    · exact lower_titleCase subtag
    · split
      · exact lower_upper subtag
      · exact lower_lower subtag

theorem canonical_singleton (seen : Seen) (subtag : List Char) :
    (canonical seen subtag).2.singleton = (seen.singleton || subtag.length = 1) := by
  rw [canonical]
  by_cases single : subtag.length = 1
  · simp [single]
  · rw [if_neg single]
    split
    · simp [single]
    · split <;> simp [single]

/-! ## Spellings -/

/-- The text without white space around it, in which neither case nor the choice of a separator
shows. -/
def spelling (text : String) : List Char :=
  (Text.trim text.toList).map fun c => if isSeparator c then '-' else c.toLower

/-- Two texts differ in the case of ASCII letters, in their separators and in white space around
them only. -/
def SameSpelling (text text' : String) : Prop := spelling text = spelling text'

/-- The canonical subtags of the pieces of a text, each with whether it takes part in lookup. -/
def forms : List (List Char) → Except Refusal (List (List Char × Bool))
  | [] => .error (.invalidInput "language tag is empty")
  | language :: rest => do
    checkSubtag language
    if !isLanguage language then throw (.invalidInput "invalid language subtag")
    let others ← readSubtags ⟨false, false, false⟩ rest
    return (lower language, true) :: others

theorem toLower_ne_hyphen {c : Char} (other : c ≠ '-') : c.toLower ≠ '-' := by
  intro hyphen
  cases upper : c.isUpper with
  | false => exact other ((Char.toLower_eq_of_not_isUpper (by simp [upper])).symm.trans hyphen)
  | true =>
    have letter : c.isAlpha = true := by rw [Char.isAlpha, upper, Bool.true_or]
    rw [← Char.isAlpha_toLower_eq_isAlpha, hyphen] at letter
    cases letter

theorem splitOn_spelling (text : String) : (spelling text).splitOn '-' =
    ((Text.trim text.toList).splitOnP isSeparator).map lower := by
  rw [List.splitOn_eq_splitOnP, spelling]
  refine Text.splitOnP_map (fun c => ?_) (fun c inner => if_neg (by simp [inner])) _
  cases separates : isSeparator c with
  | true => rfl
  | false =>
    rw [isSeparator, Bool.or_eq_false_iff, beq_eq_false_iff_ne] at separates
    exact beq_eq_false_iff_ne.mpr (toLower_ne_hyphen separates.1)

theorem readSubtags_cons (seen : Seen) (subtag : List Char) (rest : List (List Char)) :
    readSubtags seen (subtag :: rest) = do
      checkSubtag subtag
      let others ← readSubtags (canonical seen subtag).2 rest
      return ((canonical seen subtag).1, !(canonical seen subtag).2.singleton) :: others := rfl

/-- What is read of a subtag does not show its case. -/
theorem readSubtags_lower (seen : Seen) (rest : List (List Char)) :
    readSubtags seen (rest.map lower) = readSubtags seen rest := by
  induction rest generalizing seen with
  | nil => rfl
  | cons subtag rest ih =>
    rw [List.map_cons, readSubtags_cons, readSubtags_cons, checkSubtag_lower, canonical_lower, ih]

theorem forms_lower (raw : List (List Char)) : forms (raw.map lower) = forms raw := by
  cases raw with
  | nil => rfl
  | cons language rest =>
    simp only [List.map_cons, forms, checkSubtag_lower, isLanguage_lower, lower_lower,
      readSubtags_lower]

theorem forms_congr {raw raw' : List (List Char)} (same : raw.map lower = raw'.map lower) :
    forms raw = forms raw' := by
  rw [← forms_lower raw, same, forms_lower]

/-- A text is read by its spelling. -/
theorem parse_eq (text : String) : parse text =
    if (spelling text).isEmpty then .error (.invalidInput "language tag is empty")
    else (forms ((spelling text).splitOn '-')).map ofSubtags := by
  rw [splitOn_spelling, forms_lower, spelling, List.isEmpty_map, parse, Text.pieces_eq_splitOnP]
  generalize Text.trim text.toList = trimmed
  cases trimmed with
  | nil => rfl
  | cons c rest =>
    simp only [List.isEmpty_cons, Bool.false_eq_true, if_false]
    cases split : (c :: rest).splitOnP isSeparator with
    | nil => exact absurd split (List.splitOnP_ne_nil _ _)
    | cons language others =>
      simp only [forms]
      cases checkSubtag language with
      | error => rfl
      | ok =>
        cases isLanguage language with
        | false => rfl
        | true => cases readSubtags ⟨false, false, false⟩ others <;> rfl

/-- All spellings of a tag are read alike. -/
theorem parse_congr {text text' : String} (same : SameSpelling text text') :
    parse text = parse text' := by
  rw [parse_eq, parse_eq, same]

/-! ## Subtags at the front of a tag -/

/-- A subtag as it can stand in a tag. -/
structure IsSubtag (subtag : List Char) : Prop where
  some : subtag ≠ []
  all : subtag.all Char.isAlphanum = true

theorem checkSubtag_eq_ok {subtag : List Char} : checkSubtag subtag = .ok () ↔ IsSubtag subtag := by
  constructor
  · intro ok
    rw [checkSubtag] at ok
    cases subtag with
    | nil => cases ok
    | cons c rest => exact ⟨List.cons_ne_nil c rest, by simpa using ok⟩
  · rintro ⟨some, all⟩
    simp [checkSubtag, some, all]

theorem readSubtags_eq_ok {seen : Seen} {subtag : List Char} {rest : List (List Char)}
    {read : List (List Char × Bool)} : readSubtags seen (subtag :: rest) = .ok read ↔
      IsSubtag subtag ∧ ∃ others, readSubtags (canonical seen subtag).2 rest = .ok others ∧
        read = ((canonical seen subtag).1, !(canonical seen subtag).2.singleton) :: others := by
  rw [readSubtags_cons, ← checkSubtag_eq_ok]
  cases checkSubtag subtag with
  | error refusal => exact ⟨nofun, nofun⟩
  | ok =>
    change (readSubtags _ rest >>= _) = _ ↔ _
    cases readSubtags (canonical seen subtag).2 rest with
    | error refusal => exact ⟨nofun, nofun⟩
    | ok others =>
      change Except.ok _ = _ ↔ _
      simp [eq_comm]

theorem forms_eq_ok {language : List Char} {rest : List (List Char)}
    {read : List (List Char × Bool)} : forms (language :: rest) = .ok read ↔
      IsSubtag language ∧ isLanguage language = true ∧
        ∃ others, readSubtags ⟨false, false, false⟩ rest = .ok others ∧
          read = (lower language, true) :: others := by
  rw [forms, ← checkSubtag_eq_ok]
  cases checkSubtag language with
  | error refusal => exact ⟨nofun, nofun⟩
  | ok =>
    cases isLanguage language with
    | false => exact ⟨nofun, nofun⟩
    | true =>
      change (readSubtags _ rest >>= _) = _ ↔ _
      cases readSubtags ⟨false, false, false⟩ rest with
      | error refusal => exact ⟨nofun, nofun⟩
      | ok others =>
        change Except.ok _ = _ ↔ _
        simp [eq_comm]

/-- Canonical subtags differ from those that are read in case only, there is one for each of them,
and those in front of one that takes no part in lookup take part in it. -/
structure Canonizes (raw : List (List Char)) (read : List (List Char × Bool)) : Prop where
  lower : (read.map Prod.fst).map lower = raw.map lower
  subtags : ∀ subtag ∈ raw, IsSubtag subtag
  matching : read.filter Prod.snd = read.takeWhile Prod.snd

theorem Canonizes.cons {raw : List (List Char)} {read : List (List Char × Bool)}
    (others : Canonizes raw read) {subtag : List Char} (proper : IsSubtag subtag)
    {form : List Char} (same : LanguageTag.lower form = LanguageTag.lower subtag) {matching : Bool}
    (silent : matching = false → ∀ other ∈ read, other.2 = false) :
    Canonizes (subtag :: raw) ((form, matching) :: read) where
  lower := by simp only [List.map_cons, same, others.lower]
  subtags := List.forall_mem_cons.mpr ⟨proper, others.subtags⟩
  matching := by
    cases matching with
    | true => simp [others.matching]
    | false => simpa using silent rfl

theorem readSubtags_silent {seen : Seen} {rest : List (List Char)}
    {read : List (List Char × Bool)} (ok : readSubtags seen rest = .ok read)
    (singleton : seen.singleton = true) : ∀ other ∈ read, other.2 = false := by
  induction rest generalizing seen read with
  | nil =>
    obtain rfl := Except.ok.inj ok
    simp
  | cons subtag rest ih =>
    obtain ⟨-, others, reads, rfl⟩ := readSubtags_eq_ok.mp ok
    have after : (canonical seen subtag).2.singleton = true := by
      rw [canonical_singleton, singleton, Bool.true_or]
    exact List.forall_mem_cons.mpr ⟨by simp [after], ih reads after⟩

theorem readSubtags_canonizes {seen : Seen} {rest : List (List Char)}
    {read : List (List Char × Bool)} (ok : readSubtags seen rest = .ok read) :
    Canonizes rest read := by
  induction rest generalizing seen read with
  | nil =>
    obtain rfl := Except.ok.inj ok
    exact ⟨rfl, by simp, rfl⟩
  | cons subtag rest ih =>
    obtain ⟨proper, others, reads, rfl⟩ := readSubtags_eq_ok.mp ok
    exact (ih reads).cons proper (lower_canonical seen subtag) fun silent =>
      readSubtags_silent reads (by simpa using silent)

theorem readSubtags_take {seen : Seen} {rest : List (List Char)} {read : List (List Char × Bool)}
    (ok : readSubtags seen rest = .ok read) (n : Nat) :
    readSubtags seen (rest.take n) = .ok (read.take n) := by
  induction rest generalizing seen read n with
  | nil =>
    obtain rfl := Except.ok.inj ok
    simp only [List.take_nil]
    rfl
  | cons subtag rest ih =>
    obtain ⟨proper, others, reads, rfl⟩ := readSubtags_eq_ok.mp ok
    cases n with
    | zero => rfl
    | succ n => exact readSubtags_eq_ok.mpr ⟨proper, _, ih reads n, rfl⟩

theorem forms_canonizes {raw : List (List Char)} {read : List (List Char × Bool)}
    (ok : forms raw = .ok read) : Canonizes raw read ∧ read ≠ [] := by
  cases raw with
  | nil => cases ok
  | cons language rest =>
    obtain ⟨proper, -, others, reads, rfl⟩ := forms_eq_ok.mp ok
    exact ⟨(readSubtags_canonizes reads).cons proper (lower_lower language) nofun,
      List.cons_ne_nil _ _⟩

theorem forms_take {raw : List (List Char)} {read : List (List Char × Bool)}
    (ok : forms raw = .ok read) (n : Nat) :
    forms (raw.take (n + 1)) = .ok (read.take (n + 1)) := by
  cases raw with
  | nil => cases ok
  | cons language rest =>
    obtain ⟨proper, isLanguage, others, reads, rfl⟩ := forms_eq_ok.mp ok
    exact forms_eq_ok.mpr ⟨proper, isLanguage, _, readSubtags_take reads n, rfl⟩

/-- Canonical subtags are their own canonical form. -/
theorem forms_idem {raw : List (List Char)} {read : List (List Char × Bool)}
    (ok : forms raw = .ok read) : forms (read.map Prod.fst) = .ok read := by
  rw [forms_congr (forms_canonizes ok).1.lower, ok]

/-! ## Texts of tags -/

theorem not_isWhiteSpace_of_isAlphanum {c : Char} (h : c.isAlphanum = true) :
    Text.isWhiteSpace c = false := by
  have code : c.val.toNat = c.toNat := rfl
  have bounds : 'A'.val.toNat = 65 ∧ 'Z'.val.toNat = 90 ∧ 'a'.val.toNat = 97 ∧
    'z'.val.toNat = 122 ∧ '0'.val.toNat = 48 ∧ '9'.val.toNat = 57 := by decide
  simp only [Char.isAlphanum, Char.isAlpha, Char.isUpper, Char.isLower, Char.isDigit,
    Bool.or_eq_true, Bool.and_eq_true, decide_eq_true_eq, UInt32.le_iff_toNat_le, ge_iff_le] at h
  simp only [Text.isWhiteSpace, Text.inRanges, Text.whiteSpaceRanges, List.any_cons, List.any_nil,
    Bool.or_eq_false_iff, Bool.and_eq_false_iff, decide_eq_false_iff_not, and_true]
  omega

theorem trim_eq_self {text : List Char} (bare : ∀ c ∈ text, Text.isWhiteSpace c = false) :
    Text.trim text = text := by
  have kept {part : List Char} (bare : ∀ c ∈ part, Text.isWhiteSpace c = false) :
      part.dropWhile Text.isWhiteSpace = part :=
    List.dropWhile_eq_self_iff.mpr fun some => by simp [bare _ (List.getElem_mem some)]
  rw [Text.trim, Text.dropEndWhile, kept bare,
    kept fun c member => bare c (List.mem_reverse.mp member), List.reverse_reverse]

theorem IsSubtag.lower {subtag : List Char} (proper : IsSubtag subtag) :
    IsSubtag (LanguageTag.lower subtag) where
  some := mt List.map_eq_nil_iff.mp proper.some
  all := (all_lower isAlphanum_toLower subtag).trans proper.all

theorem splitOn_join {raw : List (List Char)} (some : raw ≠ [])
    (subtags : ∀ subtag ∈ raw, IsSubtag subtag) :
    (['-'].intercalate raw).splitOn '-' = raw := by
  refine List.splitOn_intercalate '-' (fun subtag member hyphen => ?_) some
  cases List.all_eq_true.mp (subtags subtag member).all _ hyphen

/-- The text of subtags with hyphens between them is read by its subtags. -/
theorem parse_join {raw : List (List Char)} (some : raw ≠ [])
    (subtags : ∀ subtag ∈ raw, IsSubtag subtag) :
    parse (String.ofList (['-'].intercalate raw)) = (forms raw).map ofSubtags := by
  have alphanum {c : Char} (member : c ∈ ['-'].intercalate raw) : c = '-' ∨ c.isAlphanum := by
    refine (Text.mem_intercalate member).imp_right fun ⟨subtag, mem, inside⟩ => ?_
    exact List.all_eq_true.mp (subtags subtag mem).all c inside
  have written : spelling (String.ofList (['-'].intercalate raw)) =
      ['-'].intercalate (raw.map lower) := by
    have bare : ∀ c ∈ ['-'].intercalate raw, Text.isWhiteSpace c = false := by
      intro c member
      obtain rfl | letter := alphanum member
      · decide
      · exact not_isWhiteSpace_of_isAlphanum letter
    have kept : ∀ c ∈ ['-'].intercalate raw,
        (if isSeparator c then '-' else c.toLower) = c.toLower := by
      intro c member
      obtain rfl | letter := alphanum member
      · decide
      · refine if_neg fun separates => ?_
        rw [isSeparator, Bool.or_eq_true, beq_iff_eq, beq_iff_eq] at separates
        obtain rfl | rfl := separates <;> cases letter
    rw [spelling, String.toList_ofList, trim_eq_self bare, List.map_congr_left kept,
      Text.map_intercalate]
    rfl
  have split : (['-'].intercalate (raw.map lower)).splitOn '-' = raw.map lower := by
    refine splitOn_join (by simpa using some) fun subtag member => ?_
    obtain ⟨subtag, mem, rfl⟩ := List.mem_map.mp member
    exact (subtags subtag mem).lower
  have text : (['-'].intercalate (raw.map lower)).isEmpty = false := by
    refine Bool.eq_false_iff.mpr fun empty => ?_
    rw [List.isEmpty_iff.mp empty, List.splitOn_nil] at split
    obtain ⟨subtag, mem, none⟩ := List.mem_map.mp (split ▸ List.mem_singleton_self _)
    exact (subtags subtag mem).some (List.map_eq_nil_iff.mp none)
  rw [parse_eq, written, text, split, forms_lower]
  rfl

/-- A tag with the subtags that make it. -/
structure MadeOf (read : List (List Char × Bool)) (tag : LanguageTag) : Prop where
  tag_eq : tag = ofSubtags read
  forms_eq : forms (read.map Prod.fst) = .ok read

theorem madeOf_of_parse {text : String} {tag : LanguageTag} (parsed : parse text = .ok tag) :
    ∃ read, MadeOf read tag := by
  rw [parse_eq] at parsed
  split at parsed
  · cases parsed
  · cases reads : forms ((spelling text).splitOn '-') with
    | error => rw [reads] at parsed; cases parsed
    | ok read =>
      rw [reads] at parsed
      obtain rfl := Except.ok.inj parsed
      exact ⟨read, rfl, forms_idem reads⟩

/-- The text of a tag is read as the tag. -/
theorem MadeOf.parse_normalized {read : List (List Char × Bool)} {tag : LanguageTag}
    (made : MadeOf read tag) : parse tag.normalized = .ok tag := by
  obtain ⟨canonizes, some⟩ := forms_canonizes made.forms_eq
  rw [made.tag_eq, ofSubtags, parse_join (by simpa using some) canonizes.subtags, made.forms_eq]
  rfl

theorem ofSubtags_eq {read : List (List Char × Bool)} (matching : ∀ subtag ∈ read, subtag.2 = true)
    {front : List String} (names : front = read.map fun subtag => String.ofList subtag.1) :
    ofSubtags read = ⟨"-".intercalate front, front⟩ := by
  have text : String.ofList (['-'].intercalate (read.map Prod.fst)) = "-".intercalate front := by
    rw [← String.toList_inj, String.toList_ofList, String.toList_intercalate, names, List.map_map]
    congr 2
    funext subtag
    exact String.toList_ofList.symm
  rw [ofSubtags, text, List.filter_eq_self.mpr matching, ← names]

/-- All subtags of a tag. -/
def subtags (tag : LanguageTag) : List String :=
  (Text.pieces (· == '-') tag.normalized.toList).map String.ofList

theorem MadeOf.subtags_eq {read : List (List Char × Bool)} {tag : LanguageTag}
    (made : MadeOf read tag) : tag.subtags = read.map fun subtag => String.ofList subtag.1 := by
  obtain ⟨canonizes, some⟩ := forms_canonizes made.forms_eq
  rw [subtags, made.tag_eq, ofSubtags, String.toList_ofList, Text.pieces_eq_splitOn,
    splitOn_join (by simpa using some) canonizes.subtags, List.map_map]
  rfl

/-- The text of a tag is that of its subtags with hyphens between them. -/
theorem intercalate_subtags (tag : LanguageTag) : "-".intercalate tag.subtags = tag.normalized := by
  have texts : String.toList ∘ String.ofList = id := funext fun _ => String.toList_ofList
  rw [← String.toList_inj, String.toList_intercalate, subtags, Text.pieces_eq_splitOn, List.map_map,
    texts, List.map_id]
  exact List.intercalate_splitOn '-'

/-- The subtags at the front of a tag are a tag, up to the last that takes part in lookup. -/
theorem MadeOf.front {read : List (List Char × Bool)} {tag : LanguageTag}
    (made : MadeOf read tag) {front : List String} (some : front ≠ [])
    (isFront : front <+: tag.matchSubtags) :
    ∃ read, MadeOf read ⟨"-".intercalate front, front⟩ ∧
      front = read.map fun subtag => String.ofList subtag.1 := by
  obtain ⟨n, length⟩ := Nat.exists_eq_succ_of_ne_zero (mt List.length_eq_zero_iff.mp some)
  have matchSubtags : tag.matchSubtags =
      (read.takeWhile Prod.snd).map fun subtag => String.ofList subtag.1 := by
    rw [made.tag_eq, ofSubtags, (forms_canonizes made.forms_eq).1.matching]
  have within : n + 1 ≤ (read.takeWhile Prod.snd).length := by
    have bound := isFront.length_le
    rwa [length, matchSubtags, List.length_map] at bound
  have take : read.take (n + 1) = (read.takeWhile Prod.snd).take (n + 1) := by
    conv_lhs => rw [← List.takeWhile_append_dropWhile (p := Prod.snd) (l := read)]
    exact List.take_append_of_le_length within
  have names : front = (read.take (n + 1)).map fun subtag => String.ofList subtag.1 := by
    rw [take, List.map_take, ← matchSubtags, ← Nat.succ_eq_add_one, ← length]
    exact List.prefix_iff_eq_take.mp isFront
  have matching : ∀ subtag ∈ read.take (n + 1), subtag.2 = true := fun subtag member =>
    List.mem_takeWhile_imp (List.mem_of_mem_take (take ▸ member))
  refine ⟨_, ⟨(ofSubtags_eq matching names).symm, ?_⟩, names⟩
  rw [List.map_take]
  exact forms_take made.forms_eq n

end Fluent.LanguageTag
