import Mathlib
import DocGraft.Proofs.TextLines
import DocGraft.Proofs.TextRules
import DocGraft.Signature.Declaration

/-!
# Words and names in declarations

Declarations are made of words and marks. What the steps of their reduction do with a single word is
known from its characters alone.
-/

namespace DocGraft.Text

open List

variable {c : Char} {s w : Text}

/-! ### Words -/

/-- A text is a word: word characters, at least one. -/
structure IsWord (w : Text) : Prop where
  ne_nil : w ≠ []
  all : ∀ c ∈ w, isWord c

theorem IsWord.of_all (h : (!w.isEmpty && w.all isWord) = true) : IsWord w := by
  rw [Bool.and_eq_true, all_eq_true, Bool.not_eq_true', isEmpty_eq_false_iff] at h
  exact ⟨h.1, h.2⟩

theorem IsWord.notMem (h : IsWord w) (hc : isWord c = false) : c ∉ w :=
  fun hmem => absurd (h.all c hmem) (by simp [hc])

theorem IsWord.exists_cons (h : IsWord w) : ∃ c v, w = c :: v ∧ isWord c := by
  obtain ⟨c, v, rfl⟩ := exists_cons_of_ne_nil h.ne_nil
  exact ⟨c, v, rfl, h.all c mem_cons_self⟩

theorem takeWhile_word (hw : ∀ c ∈ w, isWord c) (hs : ∀ c ∈ s.head?, isWord c = false) :
    (w ++ s).takeWhile isWord = w := by
  exact takeWhile_append_of_head hw hs

theorem ends_word {d : Char} (h : isWord d = false) (t : Text) :
    ∀ c ∈ (d :: t).head?, isWord c = false := by
  simpa using h

/-- A word begins a text with something else behind it only if it is the first word of the text. -/
theorem eq_of_after?_word {v rest : Text} (hv : ∀ c ∈ v, isWord c) (hw : ∀ c ∈ w, isWord c)
    (hs : ∀ c ∈ s.head?, isWord c = false) (hrest : ∀ c ∈ rest.head?, isWord c = false)
    (h : after? v (w ++ s) = some rest) : w = v ∧ s = rest := by
  have htext := after?_eq_some_iff.mp h
  obtain rfl : w = v := by rw [← takeWhile_word hw hs, htext, takeWhile_word hv hrest]
  exact ⟨rfl, append_cancel_left htext⟩

theorem exists_range_of_inRanges {n : Nat} {ranges : List (Nat × Nat)} (h : inRanges n ranges) :
    ∃ range ∈ ranges, range.1 ≤ n ∧ n ≤ range.2 := by
  induction ranges with
  | nil => simp [inRanges] at h
  | cons range ranges ih =>
    grind [inRanges]

theorem isWord_of_isBlank (h : isBlank c) : isWord c = false := by
  -- The ranges of white space are short, so their characters can be looked up one by one.
  have hall :
      (blankRanges.all fun range => (List.range' range.1 (range.2 + 1 - range.1)).all fun n =>
      !inRuns false n wordRuns) = true := by
    decide +kernel
  obtain ⟨range, hmem, hlow, hhigh⟩ := exists_range_of_inRanges h
  grind [isWord]

theorem isBlank_of_isWord (h : isWord c) : isBlank c = false := by
  by_contra hblank
  exact absurd (isWord_of_isBlank (by simpa using hblank)) (by simp [h])

end DocGraft.Text

namespace DocGraft.Signature

open List Text

variable {c : Char} {keyword name s w : Text} {word : Text}

/-! ### From text to tokens -/

/-- The text of a list of tokens, with single spaces around and between them. -/
def tokenText (ws : List Text) : Text :=
  ' ' :: ws.flatMap (· ++ [' '])

@[simp] theorem tokenText_nil : tokenText [] = [' '] := rfl

theorem tokenText_cons (w : Text) (ws : List Text) :
    tokenText (w :: ws) = ' ' :: (w ++ tokenText ws) := by
  simp [tokenText]

theorem spaceDelimiters_append (s t : Text) :
    spaceDelimiters (s ++ t) = spaceDelimiters s ++ spaceDelimiters t := by
  simp [spaceDelimiters]

theorem spaceDelimiters_cons (c : Char) (s : Text) :
    spaceDelimiters (c :: s) =
      (if c = '(' ∨ c = ')' ∨ c = ',' then [' ', c, ' '] else [c]) ++ spaceDelimiters s := by
  simp [spaceDelimiters]

theorem spaceDelimiters_of_notMem (hopen : '(' ∉ s) (hclose : ')' ∉ s) (hcomma : ',' ∉ s) :
    spaceDelimiters s = s := by
  have hplain : ∀ c ∈ s, ¬ (c = '(' ∨ c = ')' ∨ c = ',') := by
    rintro c hc (rfl | rfl | rfl)
    · exact hopen hc
    · exact hclose hc
    · exact hcomma hc
  rw [spaceDelimiters, flatMap_congr fun c hc => if_neg (hplain c hc)]
  simp

theorem squeezeSpacesFrom_append (hw : w ≠ []) (hspace : ' ' ∉ w) (spaced : Bool) (t : Text) :
    squeezeSpacesFrom spaced (w ++ t) = w ++ squeezeSpacesFrom false t := by
  induction w generalizing spaced with
  | nil => exact absurd rfl hw
  | cons c w ih =>
    rw [mem_cons, not_or] at hspace
    rw [cons_append, squeezeSpacesFrom, if_neg (Ne.symm hspace.1)]
    cases w with
    | nil => rfl
    | cons d w => grind

theorem flatten_of_notMem (h : ∀ c ∈ ['\r', '\n', '\t'], c ∉ s) : flatten s = s := by
  have hsame : ∀ c ∈ s, (if c = '\r' ∨ c = '\n' ∨ c = '\t' then ' ' else c) = c := by
    intro c hc
    refine if_neg ?_
    rintro (rfl | rfl | rfl)
    · exact h _ (by simp) hc
    · exact h _ (by simp) hc
    · exact h _ (by simp) hc
  rw [flatten, map_congr_left hsame, map_id']

/-! ### Reading tokens -/

theorem eq_of_append_space {v t : Text} (hv : ' ' ∉ v) (hw : ' ' ∉ w)
    (h : v ++ ' ' :: s = w ++ ' ' :: t) : v = w ∧ s = t := by
  obtain rfl : v = w := by
    rw [← takeWhile_ne_append_cons hv s, h, takeWhile_ne_append_cons hw t]
  exact ⟨rfl, (List.cons.inj (append_cancel_left h)).2⟩

theorem declaredType?_append (hw : ' ' ∉ w) (t : Text) :
    declaredType? (w ++ t) = declaredType? t := by
  induction w with
  | nil => rfl
  | cons c w ih =>
    rw [mem_cons, not_or] at hw
    rw [cons_append, declaredType?, if_neg (Ne.symm hw.1), ih hw.2]
    rfl

/-- The keywords that open the declaration of a type. -/
def typeWords : List Text :=
  ["class", "interface", "@interface", "enum"].map String.toList

theorem lastMember?_append (hw : ' ' ∉ w) (t : Text) : lastMember? (w ++ t) = lastMember? t := by
  induction w with
  | nil => rfl
  | cons c w ih =>
    rw [mem_cons, not_or] at hw
    rw [cons_append, lastMember?, if_neg (Ne.symm hw.1), ih hw.2, Option.or_none]

theorem lastMember?_tokenText_cons (hw : ' ' ∉ w) (ws : List Text) :
    lastMember? (tokenText (w :: ws)) =
      (lastMember? (tokenText ws)).or (wholeMember? (w ++ tokenText ws)) := by
  rw [tokenText_cons, lastMember?, if_pos rfl, lastMember?_append hw]

/-! ### Names -/

/-- The words that have a meaning in a declaration. -/
def reservedWords : List Text :=
  ["class", "interface", "enum", "extends", "implements", "throws", "final", "package"].map
    String.toList

theorem isWord_of_mem_reserved (h : word ∈ reservedWords) : ∀ c ∈ word, isWord c := by
  have hall : (reservedWords.all fun word => word.all isWord) = true := by decide
  grind

/-- A text is a name: a word that has no meaning of its own in a declaration. -/
structure IsName (name : Text) : Prop extends IsWord name where
  notReserved : name ∉ reservedWords

theorem IsName.ne (h : IsName name) (hword : word ∈ reservedWords) : name ≠ word :=
  fun heq => h.notReserved (heq ▸ hword)

theorem IsName.not_keyword (h : IsName name) : name ∉ typeWords := by
  intro hmem
  have hcases : ∀ word ∈ typeWords, word ∈ reservedWords ∨ '@' ∈ word := by
    decide
  rcases hcases name hmem with hmem | hmem
  · exact h.notReserved hmem
  · exact h.notMem (by decide) hmem

/-- The words that never stand in the declaration of a member. -/
def foreignWords : List Text :=
  ["class", "interface", "enum", "throws", "package"].map String.toList

theorem IsName.not_foreign (h : IsName name) : name ∉ foreignWords := by
  have hsub : ∀ word ∈ foreignWords, word ∈ reservedWords := by decide
  exact fun hmem => h.notReserved (hsub name hmem)

theorem simpleName_word (h : IsWord name) : simpleName name = name := by
  have hdot : '.' ∉ name.tail := fun hmem => h.notMem (by decide) (mem_of_mem_tail hmem)
  rw [simpleName, fields_of_notMem (h.notMem (by decide)), dropQualifier, if_neg hdot]
  rfl

theorem supertypesRule_of_not_isBlank (hc : isBlank c = false) (before : Option Char)
    (rest : Text) : supertypesRule before (c :: rest) = none := by
  unfold supertypesRule
  grind

theorem annotationName?_of_ne (hc : c ≠ '@') (s : Text) : annotationName? (c :: s) = none := by
  unfold annotationName?
  grind

theorem filter_word (h : IsWord w) : w.filter (· ≠ ' ') = w := by
  rw [filter_eq_self]
  intro c hc
  have hne : c ≠ ' ' := fun heq => h.notMem (by decide) (heq ▸ hc)
  simpa using hne

theorem ne_paren_of_mem_word (h : IsWord w) : ∀ c ∈ w, (c ≠ '(' : Bool) := by
  intro c hc
  have hne : c ≠ '(' := fun heq => h.notMem (by decide) (heq ▸ hc)
  simpa using hne

/-- The member that a name makes up by itself. -/
theorem compact_word (h : IsWord name) :
    (name.filter (· ≠ ' ')).takeWhile (· ≠ '(') = name ∧
      (name.filter (· ≠ ' ')).dropWhile (· ≠ '(') = [] := by
  rw [filter_word h]
  exact ⟨takeWhile_eq_self_iff.mpr (ne_paren_of_mem_word h),
    dropWhile_eq_nil_iff.mpr (ne_paren_of_mem_word h)⟩

theorem of_mem_typeWords (h : keyword ∈ typeWords) :
    keyword ≠ [] ∧ ∀ c ∈ keyword, isWord c ∨ c = '@' := by
  have hall : (typeWords.all fun keyword =>
      keyword ≠ [] && keyword.all fun c => isWord c || c = '@') = true := by
    decide
  simpa using all_eq_true.mp hall keyword h

theorem afterTypeKeyword?_append (h : keyword ∈ typeWords) (rest : Text) :
    afterTypeKeyword? (keyword ++ ' ' :: rest) = some rest := by
  simp only [typeWords, map_cons, map_nil, mem_cons, not_mem_nil, or_false] at h
  rcases h with rfl | rfl | rfl | rfl <;> simp [afterTypeKeyword?, after?]

/-- A keyword that declares a type is no annotation. -/
theorem annotationName?_type (h : keyword ∈ typeWords) (hc : isWord c = false) (s : Text) :
    annotationName? (keyword ++ c :: s) = none := by
  simp only [typeWords, map_cons, map_nil, mem_cons, not_mem_nil, or_false] at h
  rcases h with rfl | rfl | rfl | rfl
  · exact annotationName?_of_ne (by decide) _
  · exact annotationName?_of_ne (by decide) _
  · have hinterface : startsWithInterface ("interface".toList ++ c :: s) = true := by
      rw [startsWithInterface, after?_append]
      simp [hc]
    have hcons : "@interface".toList ++ c :: s = '@' :: ("interface".toList ++ c :: s) := by
      simp
    rw [hcons, annotationName?]
    exact if_pos (.inr hinterface)
  · exact annotationName?_of_ne (by decide) _

/-! ### Methods -/

theorem parameterNameRule_of_ne (hc : c ≠ ' ') (before : Option Char) (t : Text) :
    parameterNameRule before (c :: t) = none := by
  unfold parameterNameRule
  grind

theorem parameterNameRule_mark (hc : isWord c = false) (before : Option Char) (t : Text) :
    parameterNameRule before (' ' :: c :: t) = none := by
  simp [run, hc, parameterNameRule]

theorem wholeMember?_mark (hc : isWord c = false) (t : Text) : wholeMember? (c :: t) = none := by
  simp [wholeMember?, hc]

end DocGraft.Signature
