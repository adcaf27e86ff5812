import Fluent.Proofs.Locale.Tag

/-!
# Which texts are tags

The reading of a tag is canonical: the text of what is read is read as the same tag, and so are all
texts that differ from a tag in nothing but what canonical tags do not show. Which texts are read is
a matter of their form alone.

* `Respells`: texts with the same characters, but for case, the choice of separators and white space
  around them;
* `IsTag`: the form of a tag, with `exists_forms_iff` for what it comes to subtag by subtag;
* `MadeOf.matchSubtags_eq`: the subtags that take part in lookup;
* `parse_canonical`: the three together.
-/

namespace Fluent

/-! ## White space around a text -/

namespace Text

theorem dropEndWhile_append {p : Char → Bool} {body after : List Char}
    (all : ∀ c ∈ after, p c = true) : dropEndWhile p (body ++ after) = dropEndWhile p body := by
  have gone : ∀ c ∈ after.reverse, p c = true := fun c member => all c (List.mem_reverse.mp member)
  rw [dropEndWhile, dropEndWhile, List.reverse_append, List.dropWhile_append_of_pos gone]

theorem dropWhile_append_white {before body after : List Char}
    (white : ∀ c ∈ before, isWhiteSpace c = true) :
    (before ++ body ++ after).dropWhile isWhiteSpace = (body ++ after).dropWhile isWhiteSpace := by
  rw [List.append_assoc, List.dropWhile_append_of_pos white]

/-- White space around a text does not show when it is trimmed. -/
theorem trim_append {before body after : List Char} (white : ∀ c ∈ before, isWhiteSpace c = true)
    (white' : ∀ c ∈ after, isWhiteSpace c = true) : trim (before ++ body ++ after) = trim body := by
  rw [trim, trim, dropWhile_append_white white, List.dropWhile_append]
  split
  · rename_i blank
    rw [List.isEmpty_iff.mp blank, List.dropWhile_eq_nil_iff.mpr white']
  · exact dropEndWhile_append white'

/-- Trimming depends on nothing but which characters are white space. -/
theorem forall₂_trim {R : Char → Char → Prop}
    (same : ∀ c c', R c c' → isWhiteSpace c = isWhiteSpace c') {text text' : List Char}
    (related : List.Forall₂ R text text') : List.Forall₂ R (trim text) (trim text') := by
  have dropped {part part' : List Char} (related : List.Forall₂ R part part') :
      List.Forall₂ R (part.dropWhile isWhiteSpace) (part'.dropWhile isWhiteSpace) := by
    induction related with
    | nil => exact .nil
    | @cons c c' part part' first others ih =>
      rw [List.dropWhile_cons, List.dropWhile_cons, same c c' first]
      split
      · exact ih
      · exact .cons first others
  exact List.forall₂_reverse_iff.mpr (dropped (List.forall₂_reverse_iff.mpr (dropped related)))

end Text

namespace LanguageTag

/-! ## Spellings -/

/-- Characters that differ in the case of an ASCII letter only, or two separators. -/
def SameCharacter (c c' : Char) : Prop :=
  c.toLower = c'.toLower ∨ isSeparator c = true ∧ isSeparator c' = true

/-- Texts that differ in the case of ASCII letters, in their separators and in white space around
them only. -/
inductive Respells : String → String → Prop
  | intro {before body after before' body' after' : List Char}
    (white : ∀ c ∈ before ++ after, Text.isWhiteSpace c = true)
    (white' : ∀ c ∈ before' ++ after', Text.isWhiteSpace c = true)
    (same : List.Forall₂ SameCharacter body body') :
    Respells (String.ofList (before ++ body ++ after)) (String.ofList (before' ++ body' ++ after'))

theorem isWhiteSpace_toLower (c : Char) :
    Text.isWhiteSpace c.toLower = Text.isWhiteSpace c := by
  cases upper : c.isUpper with
  | false => rw [Char.toLower_eq_of_not_isUpper (by simp [upper])]
  | true =>
    have letter : c.isAlphanum = true := by
      rw [Char.isAlphanum, Char.isAlpha, upper, Bool.true_or, Bool.true_or]
    rw [not_isWhiteSpace_of_isAlphanum letter,
      not_isWhiteSpace_of_isAlphanum ((isAlphanum_toLower c).trans letter)]

theorem isSeparator_cases {c : Char} (separates : isSeparator c = true) : c = '-' ∨ c = '_' := by
  simpa [isSeparator] using separates

theorem SameCharacter.isWhiteSpace_eq {c c' : Char} (same : SameCharacter c c') :
    Text.isWhiteSpace c = Text.isWhiteSpace c' := by
  obtain same | ⟨separates, separates'⟩ := same
  · rw [← isWhiteSpace_toLower c, same, isWhiteSpace_toLower]
  · obtain rfl | rfl := isSeparator_cases separates <;>
      obtain rfl | rfl := isSeparator_cases separates' <;> rfl

/-- Of characters that differ in case only, both are separators or none is. -/
theorem isSeparator_toLower (c : Char) : isSeparator c.toLower = isSeparator c := by
  cases upper : c.isUpper with
  | false => rw [Char.toLower_eq_of_not_isUpper (by simp [upper])]
  | true =>
    have other {d : Char} (letter : d.isAlpha = true) : isSeparator d = false := by
      refine Bool.eq_false_iff.mpr fun separates => ?_
      obtain rfl | rfl := isSeparator_cases separates <;> cases letter
    have letter : c.isAlpha = true := by rw [Char.isAlpha, upper, Bool.true_or]
    rw [other letter, other ((Char.isAlpha_toLower_eq_isAlpha c).trans letter)]

theorem SameCharacter.spelled_eq {c c' : Char} (same : SameCharacter c c') :
    (if isSeparator c then '-' else c.toLower) = if isSeparator c' then '-' else c'.toLower := by
  obtain same | ⟨separates, separates'⟩ := same
  · rw [← isSeparator_toLower c, ← isSeparator_toLower c', same]
  · rw [if_pos separates, if_pos separates']

/-- What is written differently, but for case, separators and white space around it, is spelled the
same. -/
theorem Respells.sameSpelling {text text' : String} (respells : Respells text text') :
    SameSpelling text text' := by
  obtain ⟨white, white', same⟩ := respells
  simp only [List.forall_mem_append] at white white'
  rw [SameSpelling, spelling, spelling, String.toList_ofList, String.toList_ofList,
    Text.trim_append white.1 white.2, Text.trim_append white'.1 white'.2]
  have trimmed := Text.forall₂_trim (fun _ _ => SameCharacter.isWhiteSpace_eq) same
  refine List.forall₂_eq_eq_eq ▸ List.forall₂_map_left_iff.mpr (List.forall₂_map_right_iff.mpr ?_)
  exact trimmed.imp fun _ _ => SameCharacter.spelled_eq

/-! ## The form of a tag -/

/-- A text that starts with two to eight letters, followed by any number of runs of letters and
digits, with a separator in front of each run. -/
def IsTag (text : List Char) : Prop :=
  ∃ (language : List Char) (runs : List (Char × List Char)),
    text = language ++ runs.flatMap (fun run => run.1 :: run.2) ∧
    (2 ≤ language.length ∧ language.length ≤ 8 ∧ ∀ c ∈ language, c.isAlpha = true) ∧
    ∀ run ∈ runs, isSeparator run.1 = true ∧ run.2 ≠ [] ∧ ∀ c ∈ run.2, c.isAlphanum = true

theorem not_isSeparator_of_isAlphanum {c : Char} (h : c.isAlphanum = true) :
    isSeparator c = false := by
  refine Bool.eq_false_iff.mpr fun separates => ?_
  obtain rfl | rfl := isSeparator_cases separates <;> cases h

/-- A text is its first piece and the others, with a separator in front of each. -/
theorem exists_runs (text : List Char) :
    ∃ (first : List Char) (runs : List (Char × List Char)),
      text = first ++ runs.flatMap (fun run => run.1 :: run.2) ∧
      text.splitOnP isSeparator = first :: runs.map Prod.snd ∧
      ∀ run ∈ runs, isSeparator run.1 = true := by
  induction text with
  | nil => exact ⟨[], [], rfl, List.splitOnP_nil, nofun⟩
  | cons c text ih =>
    obtain ⟨first, runs, split, pieces, separated⟩ := ih
    rw [List.splitOnP_cons_eq_if_modifyHead, pieces, split]
    by_cases separates : isSeparator c = true
    · refine ⟨[], (c, first) :: runs, rfl, if_pos separates, ?_⟩
      exact List.forall_mem_cons.mpr ⟨separates, separated⟩
    · exact ⟨c :: first, runs, rfl, if_neg separates, separated⟩

/-- Pieces without separators are what a text with separators between them is made of. -/
theorem splitOnP_runs {first : List Char} {runs : List (Char × List Char)}
    (inner : ∀ c ∈ first, isSeparator c = false)
    (separated : ∀ run ∈ runs, isSeparator run.1 = true ∧ ∀ c ∈ run.2, isSeparator c = false) :
    (first ++ runs.flatMap (fun run => run.1 :: run.2)).splitOnP isSeparator =
      first :: runs.map Prod.snd := by
  induction runs generalizing first with
  | nil => simpa using List.splitOnP_eq_singleton inner
  | cons run runs ih =>
    obtain ⟨⟨separates, inner'⟩, separated⟩ := List.forall_mem_cons.mp separated
    rw [List.flatMap_cons, List.cons_append,
      List.splitOnP_append_cons_of_forall_mem inner _ separates, ih inner' separated]
    rfl

theorem exists_readSubtags_iff (seen : Seen) {rest : List (List Char)} :
    (∃ read, readSubtags seen rest = .ok read) ↔ ∀ subtag ∈ rest, IsSubtag subtag := by
  induction rest generalizing seen with
  | nil => exact ⟨fun _ => nofun, fun _ => ⟨[], rfl⟩⟩
  | cons subtag rest ih =>
    rw [List.forall_mem_cons, ← ih (canonical seen subtag).2]
    constructor
    · rintro ⟨read, ok⟩
      obtain ⟨proper, others, reads, -⟩ := readSubtags_eq_ok.mp ok
      exact ⟨proper, others, reads⟩
    · rintro ⟨proper, others, reads⟩
      exact ⟨_, readSubtags_eq_ok.mpr ⟨proper, others, reads, rfl⟩⟩

/-- The pieces of a text make a tag if the first one names a language and all are subtags. -/
theorem exists_forms_iff {language : List Char} {rest : List (List Char)} :
    (∃ read, forms (language :: rest) = .ok read) ↔
      isLanguage language = true ∧ ∀ subtag ∈ language :: rest, IsSubtag subtag := by
  rw [List.forall_mem_cons, ← exists_readSubtags_iff ⟨false, false, false⟩]
  constructor
  · rintro ⟨read, ok⟩
    obtain ⟨proper, names, others, reads, -⟩ := forms_eq_ok.mp ok
    exact ⟨names, proper, others, reads⟩
  · rintro ⟨names, proper, others, reads⟩
    exact ⟨_, forms_eq_ok.mpr ⟨proper, names, others, reads, rfl⟩⟩

theorem isLanguage_iff {language : List Char} : isLanguage language = true ↔
    2 ≤ language.length ∧ language.length ≤ 8 ∧ ∀ c ∈ language, c.isAlpha = true := by
  simp [isLanguage, and_assoc]

theorem isTag_iff {text : List Char} :
    IsTag text ↔ ∃ read, forms (text.splitOnP isSeparator) = .ok read := by
  constructor
  · rintro ⟨language, runs, rfl, names, separated⟩
    have letters : ∀ c ∈ language, c.isAlphanum = true := fun c member => by
      rw [Char.isAlphanum, names.2.2 c member, Bool.true_or]
    rw [splitOnP_runs (fun c member => not_isSeparator_of_isAlphanum (letters c member))
      fun run member => ⟨(separated run member).1, fun c inside =>
        not_isSeparator_of_isAlphanum ((separated run member).2.2 c inside)⟩]
    have some : language ≠ [] := List.ne_nil_of_length_pos (by omega)
    refine exists_forms_iff.mpr ⟨isLanguage_iff.mpr names, List.forall_mem_cons.mpr ⟨?_, ?_⟩⟩
    · exact ⟨some, List.all_eq_true.mpr letters⟩
    · intro subtag member
      obtain ⟨run, isThere, rfl⟩ := List.mem_map.mp member
      exact ⟨(separated run isThere).2.1, List.all_eq_true.mpr (separated run isThere).2.2⟩
  · intro ok
    obtain ⟨language, runs, split, pieces, separated⟩ := exists_runs text
    rw [pieces, exists_forms_iff, List.forall_mem_cons] at ok
    obtain ⟨names, -, subtags⟩ := ok
    refine ⟨language, runs, split, isLanguage_iff.mp names, fun run member => ?_⟩
    have proper := subtags run.2 (List.mem_map_of_mem member)
    exact ⟨separated run member, proper.some, List.all_eq_true.mp proper.all⟩

/-- A text is read if it has the form of a tag, white space around it aside. -/
theorem exists_parse_iff {text : String} :
    (∃ tag, parse text = .ok tag) ↔ IsTag (Text.trim text.toList) := by
  rw [isTag_iff, parse_eq, splitOn_spelling, forms_lower, spelling, List.isEmpty_map]
  split
  · rename_i empty
    rw [List.isEmpty_iff.mp empty, List.splitOnP_nil]
    constructor <;> rintro ⟨_, accepted⟩ <;> cases accepted
  · cases forms ((Text.trim text.toList).splitOnP isSeparator) with
    | error refusal => constructor <;> rintro ⟨_, accepted⟩ <;> cases accepted
    | ok read => exact ⟨fun _ => ⟨read, rfl⟩, fun _ => ⟨_, rfl⟩⟩

/-! ## Subtags that take part in lookup -/

/-- Up to a subtag of one character, subtags take part in lookup; that one does not. -/
theorem readSubtags_takeWhile {seen : Seen} {rest : List (List Char)}
    {read : List (List Char × Bool)} (ok : readSubtags seen rest = .ok read)
    (none : seen.singleton = false) :
    read.takeWhile Prod.snd = read.takeWhile fun subtag => subtag.1.length ≠ 1 := by
  induction rest generalizing seen read with
  | nil =>
    obtain rfl := Except.ok.inj ok
    rfl
  | cons subtag rest ih =>
    obtain ⟨-, others, reads, rfl⟩ := readSubtags_eq_ok.mp ok
    have length : (canonical seen subtag).1.length = subtag.length := by
      have same := congrArg List.length (lower_canonical seen subtag)
      rwa [length_lower, length_lower] at same
    have singleton := canonical_singleton seen subtag
    rw [none, Bool.false_or] at singleton
    by_cases single : subtag.length = 1
    · simp [singleton, length, single]
    · have more : (canonical seen subtag).2.singleton = false := by simp [singleton, single]
      simp [more, length, single, ih reads more]

theorem forms_takeWhile {raw : List (List Char)} {read : List (List Char × Bool)}
    (ok : forms raw = .ok read) :
    read.takeWhile Prod.snd = read.takeWhile fun subtag => subtag.1.length ≠ 1 := by
  cases raw with
  | nil => cases ok
  | cons language rest =>
    obtain ⟨-, names, others, reads, rfl⟩ := forms_eq_ok.mp ok
    have two := (isLanguage_iff.mp names).1
    have many : language.length ≠ 1 := by omega
    simp [many, readSubtags_takeWhile reads rfl]

/-- The subtags that take part in lookup are those in front of the first one of one character. -/
theorem MadeOf.matchSubtags_eq {read : List (List Char × Bool)} {tag : LanguageTag}
    (made : MadeOf read tag) :
    tag.matchSubtags = tag.subtags.takeWhile fun subtag => subtag.length ≠ 1 := by
  have shown : tag.matchSubtags =
      (read.takeWhile Prod.snd).map fun subtag => String.ofList subtag.1 := by
    rw [made.tag_eq, ofSubtags, (forms_canonizes made.forms_eq).1.matching]
  rw [shown, made.subtags_eq, forms_takeWhile made.forms_eq, List.takeWhile_map]
  simp [Function.comp_def]

/-! ## Reading is canonical -/

/-- **Canonical tags.** What is read of a text is read of its own text again, and what takes part in
lookup is what its own text shows in front of the first subtag of one character. Texts that differ
in case, separators and surrounding white space only are read alike, as the same tag or with the
same refusal. A text is read if and only if it has the form of a tag. -/
theorem parse_canonical (text : String) :
    (∀ tag, parse text = .ok tag → parse tag.normalized = .ok tag ∧
      tag.matchSubtags = tag.subtags.takeWhile fun subtag => subtag.length ≠ 1) ∧
    (∀ text', Respells text text' → parse text = parse text') ∧
    ((∃ tag, parse text = .ok tag) ↔ IsTag (Text.trim text.toList)) := by
  refine ⟨fun tag parsed => ?_, fun text' respells => parse_congr respells.sameSpelling,
    exists_parse_iff⟩
  obtain ⟨read, made⟩ := madeOf_of_parse parsed
  exact ⟨made.parse_normalized, made.matchSubtags_eq⟩

/-- A tag with a region and an extension, and another spelling of it. -/
theorem parse_canonical_brazil :
    let tag : LanguageTag := ⟨"pt-BR-u-co", ["pt", "BR"]⟩
    parse " PT_br-U-Co\n" = .ok tag ∧ parse tag.normalized = .ok tag ∧
      tag.matchSubtags = (tag.subtags.takeWhile fun subtag => subtag.length ≠ 1) ∧
      Respells " PT_br-U-Co\n" "pt-BR_u_co" ∧ parse "pt-BR_u_co" = .ok tag := by
  intro tag
  have parsed : parse " PT_br-U-Co\n" = .ok tag := rfl
  have same : List.Forall₂ SameCharacter "PT_br-U-Co".toList "pt-BR_u_co".toList := by
    simp [SameCharacter, isSeparator]
  have white : ∀ c ∈ [' '] ++ ['\n'], Text.isWhiteSpace c = true := by simpa using ⟨rfl, rfl⟩
  have none : ∀ c ∈ ([] ++ [] : List Char), Text.isWhiteSpace c = true := by simp
  have respells : Respells " PT_br-U-Co\n" "pt-BR_u_co" :=
    @Respells.intro [' '] _ ['\n'] [] _ [] white none same
  obtain ⟨canonical, alike, -⟩ := parse_canonical " PT_br-U-Co\n"
  obtain ⟨again, shown⟩ := canonical tag parsed
  exact ⟨parsed, again, shown, respells, (alike _ respells).symm.trans parsed⟩

end LanguageTag

end Fluent
