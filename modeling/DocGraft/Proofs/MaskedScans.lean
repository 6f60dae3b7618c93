import DocGraft.Proofs.DeclarationWords
import DocGraft.Proofs.PlaceholderPlaces
import DocGraft.Source.Scanner

/-!
# Scans of masked text

The masked text of a source is made of words and marks. A scan for the keywords of types and a scan
for the end of a declaration look at whole words only, and a scan for the end of a body only at
braces. So each of them passes over a text that has nothing for it, whatever stands around.
-/

namespace DocGraft.Source

open List Text Signature Scanner

variable {before : Option Char} {c d : Char} {m s w : Text}

/-! ### Keywords of types -/

/-- No type is declared in a text, if what follows does not go on with its last word. -/
def Keyless (s : Text) : Prop :=
  ∀ pos before t, (∀ c ∈ t.head?, isWord c = false) →
    ∃ b, typeKeywordsFrom pos 0 before (s ++ t) = typeKeywordsFrom (pos + s.length) 0 b t

theorem keyless_nil : Keyless [] :=
  fun _ before _ _ => ⟨before, rfl⟩

theorem mem_typeWords_of_declaring {keyword : String} (h : keyword ∈ declaringKeywords) :
    keyword.toList ∈ typeWords := by
  have hall : ∀ keyword ∈ declaringKeywords, keyword.toList ∈ typeWords := by decide
  exact hall keyword h

theorem typeKeyword?_mark (hword : isWord c = false) (hat : c ≠ '@') (before : Option Char)
    (s : Text) : typeKeyword? before (c :: s) = none := by
  by_contra hsome
  obtain ⟨keyword, hkeyword⟩ := Option.ne_none_iff_exists'.mp hsome
  obtain ⟨d, hd, hhead⟩ := head?_of_typeKeyword? hkeyword
  obtain rfl : c = d := by simpa using hhead
  have hall : (['c', 'i', 'e'].all isWord) = true := by decide
  rcases mem_cons.mp hd with rfl | hd
  · exact hat rfl
  · grind

/-- Inside a word no keyword begins. -/
theorem typeKeyword?_inside (hd : isWord d) (s : Text) : typeKeyword? (some d) s = none := by
  rw [typeKeyword?, if_pos]
  simp [hd]

theorem typeKeyword?_word (hw : IsWord w) (hkey : w ∉ typeWords)
    (hs : ∀ c ∈ s.head?, isWord c = false) (before : Option Char) :
    typeKeyword? before (w ++ s) = none := by
  rw [typeKeyword?]
  split_ifs
  · rfl
  rw [find?_eq_none]
  intro keyword hmem hfound
  have hmem := mem_typeWords_of_declaring hmem
  obtain ⟨rest, hrest, hblank⟩ := (Option.any_eq_true _ _).mp hfound
  obtain ⟨d, hd, hblank⟩ := (Option.any_eq_true _ _).mp hblank
  have hend : ∀ c ∈ rest.head?, isWord c = false := by
    rw [hd]
    simpa using isWord_of_isBlank hblank
  -- Only the keyword with the mark is no word, and no word begins with that mark.
  by_cases hword : ∀ c ∈ keyword.toList, isWord c
  · exact hkey ((eq_of_after?_word hword hw.all hs hend hrest).1 ▸ hmem)
  · have hhead : keyword.toList.head? = some '@' := by
      have hall : (typeWords.all fun word => word.all isWord || word.head? = some '@') = true := by
        decide
      grind
    obtain ⟨c, v, rfl, hc⟩ := hw.exists_cons
    obtain ⟨u, hu⟩ := head?_eq_some_iff.mp hhead
    rw [after?_eq_some_iff, hu] at hrest
    obtain rfl : c = '@' := (List.cons.inj hrest).1
    exact absurd hc (by decide)

theorem typeKeywordsFrom_of_none (h : typeKeyword? before (c :: s) = none) (pos : Nat) :
    typeKeywordsFrom pos 0 before (c :: s) = typeKeywordsFrom (pos + 1) 0 (some c) s := by
  rw [typeKeywordsFrom, h]

theorem exists_typeKeywordsFrom_inside {v : Text} (hv : ∀ c ∈ v, isWord c) (hd : isWord d)
    (pos : Nat) (t : Text) :
    ∃ b, typeKeywordsFrom pos 0 (some d) (v ++ t) = typeKeywordsFrom (pos + v.length) 0 b t := by
  induction v generalizing pos d with
  | nil => exact ⟨some d, rfl⟩
  | cons c v ih =>
    obtain ⟨hc, hv⟩ := forall_mem_cons.mp hv
    obtain ⟨b, hb⟩ := ih hv hc (pos + 1)
    refine ⟨b, ?_⟩
    simp [typeKeywordsFrom_of_none (typeKeyword?_inside hd _), hb, Nat.add_assoc, Nat.add_comm 1]

theorem typeKeywordsFrom_marks (hm : ∀ c ∈ m, isWord c = false ∧ c ≠ '@') (pos : Nat)
    (before : Option Char) (t : Text) :
    typeKeywordsFrom pos 0 before (m ++ t) =
      typeKeywordsFrom (pos + m.length) 0 (before.toList ++ m).getLast? t := by
  induction m generalizing pos before with
  | nil => cases before <;> rfl
  | cons c m ih =>
    obtain ⟨hc, hm⟩ := forall_mem_cons.mp hm
    have hlast : (before.toList ++ c :: m).getLast? = ((some c).toList ++ m).getLast? :=
      getLast?_append_of_ne_nil _ (cons_ne_nil c m)
    simp [typeKeywordsFrom_of_none (typeKeyword?_mark hc.1 hc.2 before _), ih hm, hlast,
      Nat.add_assoc, Nat.add_comm 1]

theorem Keyless.marks (hs : Keyless s) (hm : ∀ c ∈ m, isWord c = false ∧ c ≠ '@') :
    Keyless (m ++ s) := by
  intro pos before t ht
  obtain ⟨b, hb⟩ := hs (pos + m.length) (before.toList ++ m).getLast? t ht
  exact ⟨b, by rw [append_assoc, typeKeywordsFrom_marks hm, hb, length_append,
    Nat.add_assoc]⟩

theorem Keyless.mark (hs : Keyless s) (hword : isWord c = false) (hat : c ≠ '@') :
    Keyless (c :: s) :=
  hs.marks (m := [c]) (by simpa using ⟨hword, hat⟩)

theorem Keyless.word (hs : Keyless s) (hhead : ∀ c ∈ s.head?, isWord c = false) (hw : IsWord w)
    (hkey : w ∉ typeWords) : Keyless (w ++ s) := by
  intro pos before t ht
  have hend : ∀ c ∈ (s ++ t).head?, isWord c = false := by
    cases s with
    | nil => exact ht
    | cons c s => exact hhead
  have hnone := typeKeyword?_word hw hkey hend before
  obtain ⟨c, v, rfl, hc⟩ := hw.exists_cons
  obtain ⟨b, hb⟩ := exists_typeKeywordsFrom_inside
    (fun d hd => hw.all d (mem_cons_of_mem c hd)) hc (pos + 1) (s ++ t)
  obtain ⟨b', hb'⟩ := hs (pos + 1 + v.length) b t ht
  rw [append_assoc, cons_append] at *
  refine ⟨b', ?_⟩
  rw [typeKeywordsFrom_of_none hnone, hb, hb', length_append, length_cons]
  congr 1
  omega

/-- A line without keywords is passed over. -/
theorem Keyless.typeKeywordsFrom_line (hs : Keyless s) (pos : Nat) (before : Option Char)
    (t : Text) :
    typeKeywordsFrom pos 0 before (s ++ '\n' :: t) =
      typeKeywordsFrom (pos + (s.length + 1)) 0 (some '\n') t := by
  obtain ⟨b, hb⟩ := hs pos before ('\n' :: t) (ends_word (by decide) t)
  rw [hb, typeKeywordsFrom_of_none (typeKeyword?_mark (by decide) (by decide) b t), Nat.add_assoc]

theorem exists_typeKeywordsFrom_skip (pos : Nat) (before : Option Char) (w t : Text) :
    ∃ b, typeKeywordsFrom pos w.length before (w ++ t) =
      typeKeywordsFrom (pos + w.length) 0 b t := by
  induction w generalizing pos before with
  | nil => exact ⟨before, rfl⟩
  | cons c w ih =>
    obtain ⟨b, hb⟩ := ih (pos + 1) (some c)
    refine ⟨b, ?_⟩
    rw [cons_append, length_cons, typeKeywordsFrom, hb, Nat.add_assoc, Nat.add_comm 1]

/-- The keyword at the beginning of a text is the only one that begins there. -/
theorem exists_typeKeyword? {keyword : Text} (h : keyword ∈ typeWords)
    (hbefore : ∀ c ∈ before, isBlank c) (hd : isBlank d) (t : Text) :
    ∃ word : String, typeKeyword? before (keyword ++ d :: t) = some word ∧
      word.toList = keyword := by
  have hfree : ¬ (before.any fun c => isWord c || c = '$' || c = '.' || c = '@') = true := by
    rw [Option.any_eq_true]
    rintro ⟨c, hc, hcond⟩
    have hblank := hbefore c hc
    simp only [Bool.or_eq_true, decide_eq_true_eq] at hcond
    rcases hcond with ((hword | rfl) | rfl) | rfl
    · exact absurd (isWord_of_isBlank hblank) (by simp [hword])
    · exact absurd hblank (by decide)
    · exact absurd hblank (by decide)
    · exact absurd hblank (by decide)
  have htake : ∀ word ∈ typeWords, ∀ rest : Text, rest.head?.any isBlank →
      (word ++ rest).takeWhile (fun c => !isBlank c) = word := by
    intro word hword rest hrest
    have hall : (typeWords.all fun word => word.all fun c => !isBlank c) = true := by decide
    rw [takeWhile_append_of_pos (all_eq_true.mp (all_eq_true.mp hall word hword))]
    obtain ⟨d, hd, hblank⟩ := (Option.any_eq_true _ _).mp hrest
    obtain ⟨rest, rfl⟩ := head?_eq_some_iff.mp hd
    rw [takeWhile_cons_of_neg (by simp [hblank]), append_nil]
  have hblank : ((d :: t).head?).any isBlank = true := by
    rw [head?_cons, Option.any_some, hd]
  rw [typeKeyword?, if_neg hfree]
  obtain ⟨word, hword⟩ : ∃ word, declaringKeywords.find? (fun word =>
      (after? word.toList (keyword ++ d :: t)).any fun rest => rest.head?.any isBlank) =
        some word := by
    rw [← Option.isSome_iff_exists, find?_isSome]
    have hmem : ∀ word ∈ typeWords, ∃ keyword ∈ declaringKeywords, keyword.toList = word := by
      decide
    obtain ⟨word, hword, rfl⟩ := hmem keyword h
    refine ⟨word, hword, ?_⟩
    grind [after?_append]
  refine ⟨word, hword, ?_⟩
  have hfound := find?_some hword
  obtain ⟨rest, hrest, hend⟩ := (Option.any_eq_true _ _).mp hfound
  have hmem := mem_typeWords_of_declaring (mem_of_find?_eq_some hword)
  grind [after?_eq_some_iff.mp hrest]

/-- The keyword of a type is found where a word can begin. -/
theorem exists_typeKeywordsFrom_keyword {keyword : Text} (h : keyword ∈ typeWords) (pos : Nat)
    (hbefore : ∀ c ∈ before, isBlank c) (hd : isBlank d) (t : Text) :
    ∃ b, typeKeywordsFrom pos 0 before (keyword ++ d :: t) =
      pos :: typeKeywordsFrom (pos + keyword.length) 0 b (d :: t) := by
  obtain ⟨word, hword, rfl⟩ := exists_typeKeyword? h hbefore hd t
  obtain ⟨c, v, hv⟩ := exists_cons_of_ne_nil (of_mem_typeWords h).1
  obtain ⟨b, hb⟩ := exists_typeKeywordsFrom_skip (pos + 1) (some c) v (d :: t)
  have hlen : word.length - 1 = v.length := by
    rw [← String.length_toList, hv]
    rfl
  refine ⟨b, ?_⟩
  rw [hv, cons_append] at hword ⊢
  rw [typeKeywordsFrom, hword]
  simp only [hlen, hb, length_cons]
  congr 2
  omega

/-! ### The end of a declaration -/

/-- No declaration ends in a text, if what follows is a mark, and not that of a comment. -/
def Unended (s : Text) : Prop :=
  ∀ before c t, isWord c = false → isBlank c = false → c ≠ '/' →
    ∃ b, declarationLength? before (s ++ c :: t) = (declarationLength? b (c :: t)).map
      (· + s.length)

theorem unended_nil : Unended [] :=
  fun before c t _ _ _ => ⟨before, by simp⟩

theorem throwsAt_mark (hc : isWord c = false) (before : Option Char) (s : Text) :
    throwsAt before (c :: s) = false := by
  have hne : 't' ≠ c := by
    rintro rfl
    exact absurd hc (by decide)
  simp [throwsAt, after?, hne]

theorem throwsAt_inside (hd : isWord d) (s : Text) : throwsAt (some d) s = false := by
  simp [throwsAt, hd]

theorem throwsAt_word (hw : IsWord w) (hne : w ≠ "throws".toList)
    (hs : ∀ c ∈ s.head?, isWord c = false) (before : Option Char) :
    throwsAt before (w ++ s) = false := by
  rw [throwsAt, Bool.and_eq_false_iff]
  right
  by_contra hthrows
  rw [Bool.not_eq_false, Option.any_eq_true] at hthrows
  obtain ⟨rest, hrest, hend⟩ := hthrows
  have hword : ∀ c ∈ rest.head?, isWord c = false := by
    intro c hc
    simpa [Option.mem_def.mp hc] using hend
  have hall : ("throws".toList.all isWord) = true := by decide
  exact hne (eq_of_after?_word (all_eq_true.mp hall) hw.all hs hword hrest).1

/-- The characters with which a declaration ends. -/
def declarationEnds : Text :=
  ['{', '=', ';', '}']

theorem declarationLength?_cons (hthrows : throwsAt before (c :: s) = false)
    (hc : c ∉ declarationEnds) (hcomma : c = ',' → startsWith "/*".toList (trimStart s) = false) :
    declarationLength? before (c :: s) = (declarationLength? (some c) s).map (· + 1) := by
  have hcomma' : (decide (c = ',') && startsWith "/*".toList (trimStart s)) = false := by
    grind
  simp only [declarationEnds, mem_cons, not_mem_nil, or_false, not_or] at hc
  rw [declarationLength?, hthrows, hcomma']
  simp [hc]

theorem of_mem_declarationEnds (hc : c ∈ declarationEnds) :
    isWord c = false ∧ isBlank c = false ∧ c ≠ '/' := by
  have hall : (declarationEnds.all fun c => !isWord c && (!isBlank c && c ≠ '/')) =
      true := by decide
  simpa using all_eq_true.mp hall c hc

theorem notMem_declarationEnds (hc : isWord c) : c ∉ declarationEnds := fun hmem => by
  simp [(of_mem_declarationEnds hmem).1] at hc

/-- No comment begins in a text, and none with its last character. -/
structure Uncommented (s : Text) : Prop where
  chain : s.IsChain fun c d => c = '/' → d ≠ '*' ∧ d ≠ '/'
  last : s.getLast? ≠ some '/'

theorem uncommented_of_notMem (h : '/' ∉ s) : Uncommented s := by
  refine ⟨?_, fun hlast => h (mem_of_getLast? hlast)⟩
  induction s with
  | nil => exact .nil
  | cons c s ih =>
    rw [mem_cons, not_or] at h
    exact isChain_cons.mpr ⟨fun _ _ hc => absurd hc.symm h.1, ih h.2⟩

theorem Uncommented.of_cons (h : Uncommented (c :: s)) : Uncommented s := by
  refine ⟨h.chain.tail, ?_⟩
  cases s with
  | nil => simp
  | cons d s => rw [← getLast?_cons_cons (a := c)]; exact h.last

theorem Uncommented.of_append (h : Uncommented (w ++ s)) : Uncommented s := by
  induction w with
  | nil => exact h
  | cons c w ih => exact ih h.of_cons

/-- No comment begins behind a text without comments, if a mark other than a slash follows. -/
theorem startsWith_comment_trimStart (hs : Uncommented s) (hblank : isBlank c = false)
    (hc : c ≠ '/') (t : Text) : startsWith "/*".toList (trimStart (s ++ c :: t)) = false := by
  induction s with
  | nil =>
    rw [nil_append, trimStart, dropWhile_cons_of_neg (by simp [hblank])]
    simp [startsWith, after?, Ne.symm hc]
  | cons d s ih =>
    rw [cons_append, trimStart]
    by_cases hd : isBlank d
    · rw [dropWhile_cons_of_pos hd]
      exact ih hs.of_cons
    · rw [dropWhile_cons_of_neg hd]
      by_cases hslash : d = '/'
      · -- A slash is not the last character, and what follows it makes no comment.
        cases s with
        | nil => exact absurd (congrArg some hslash) hs.last
        | cons e s =>
          have hstar := ((isChain_cons_cons.mp hs.chain).1 hslash).1
          simp [startsWith, after?, Ne.symm hstar]
      · simp [startsWith, after?, Ne.symm hslash]

/-- No comma in a text has a block comment behind it, white space apart, if a mark other than a
slash follows. -/
def Uncut (s : Text) : Prop :=
  ∀ u, ',' :: u <:+ s → ∀ c t, isBlank c = false → c ≠ '/' →
    startsWith "/*".toList (trimStart (u ++ c :: t)) = false

theorem Uncommented.uncut (hs : Uncommented s) : Uncut s := by
  rintro u ⟨v, rfl⟩ c t hblank hc
  exact startsWith_comment_trimStart hs.of_append.of_cons hblank hc t

theorem Uncut.of_append (h : Uncut (w ++ s)) : Uncut s :=
  fun u hu => h u (hu.trans (suffix_append w s))

theorem Unended.mark (hs : Unended s) (hword : isWord c = false) (hc : c ∉ declarationEnds)
    (huncut : Uncut (c :: s)) : Unended (c :: s) := by
  intro before d t hd hblank hne
  obtain ⟨b, hb⟩ := hs (some c) d t hd hblank hne
  refine ⟨b, ?_⟩
  have hcomma : c = ',' → startsWith "/*".toList (trimStart (s ++ d :: t)) = false := by
    rintro rfl
    exact huncut s suffix_rfl d t hblank hne
  simp [declarationLength?_cons (throwsAt_mark hword before _) hc hcomma, hb]

theorem exists_declarationLength?_inside {v : Text} (hv : ∀ c ∈ v, isWord c) (hd : isWord d)
    (t : Text) :
    ∃ b, declarationLength? (some d) (v ++ t) = (declarationLength? b t).map (· + v.length) := by
  induction v generalizing d with
  | nil => exact ⟨some d, by simp⟩
  | cons c v ih =>
    obtain ⟨hc, hv⟩ := forall_mem_cons.mp hv
    obtain ⟨b, hb⟩ := ih hv hc
    refine ⟨b, ?_⟩
    have hcomma : c ≠ ',' := by
      rintro rfl
      exact absurd hc (by decide)
    rw [cons_append, declarationLength?_cons (throwsAt_inside hd _)
      (notMem_declarationEnds hc) (fun h => absurd h hcomma), hb, Option.map_map]
    rfl

/-- No declaration ends in a word other than `throws`. -/
theorem exists_declarationLength?_word (hw : IsWord w) (hne : w ≠ "throws".toList)
    (hs : ∀ c ∈ s.head?, isWord c = false) (before : Option Char) :
    ∃ b, declarationLength? before (w ++ s) = (declarationLength? b s).map (· + w.length) := by
  have hthrows := throwsAt_word hw hne hs before
  obtain ⟨c, v, rfl, hc⟩ := hw.exists_cons
  have hcomma : c ≠ ',' := by
    rintro rfl
    exact absurd hc (by decide)
  obtain ⟨b, hb⟩ := exists_declarationLength?_inside
    (fun d hd => hw.all d (mem_cons_of_mem c hd)) hc s
  rw [cons_append] at *
  refine ⟨b, ?_⟩
  rw [declarationLength?_cons hthrows (notMem_declarationEnds hc) (fun h => absurd h hcomma), hb,
    Option.map_map]
  rfl

/-- No declaration ends in marks other than those that end one. -/
theorem exists_declarationLength?_marks
    (hm : ∀ c ∈ m, isWord c = false ∧ c ∉ declarationEnds ∧ c ≠ ',') (before : Option Char)
    (s : Text) :
    ∃ b, declarationLength? before (m ++ s) = (declarationLength? b s).map (· + m.length) := by
  induction m generalizing before with
  | nil => exact ⟨before, by simp⟩
  | cons c m ih =>
    obtain ⟨hc, hm⟩ := forall_mem_cons.mp hm
    obtain ⟨b, hb⟩ := ih hm (some c)
    refine ⟨b, ?_⟩
    simp [declarationLength?_cons (throwsAt_mark hc.1 _ _) hc.2.1 fun h => absurd h hc.2.2, hb]

theorem Unended.word (hs : Unended s) (hhead : ∀ c ∈ s.head?, isWord c = false) (hw : IsWord w)
    (hne : w ≠ "throws".toList) : Unended (w ++ s) := by
  intro before d t hd hblank hslash
  have hend : ∀ c ∈ (s ++ d :: t).head?, isWord c = false := by
    cases s with
    | nil => exact ends_word hd t
    | cons c s => exact hhead
  obtain ⟨b, hb⟩ := exists_declarationLength?_word hw hne hend before
  obtain ⟨b', hb'⟩ := hs b d t hd hblank hslash
  refine ⟨b', ?_⟩
  rw [append_assoc, hb, hb', Option.map_map]
  congr 1
  funext n
  grind

/-- A declaration ends before its body, its value or a semicolon. -/
theorem Unended.declarationLength? (hs : Unended s) (hc : c ∈ declarationEnds)
    (before : Option Char) (t : Text) :
    declarationLength? before (s ++ c :: t) = some s.length := by
  obtain ⟨hword, hblank, hslash⟩ := of_mem_declarationEnds hc
  obtain ⟨b, hb⟩ := hs before c t hword hblank hslash
  have hzero : Scanner.declarationLength? b (c :: t) = some 0 := by
    rw [Scanner.declarationLength?, if_pos]
    simp only [declarationEnds, mem_cons, not_mem_nil, or_false] at hc
    rcases hc with rfl | rfl | rfl | rfl <;> simp
  grind

/-- White space before a declaration without annotations is passed over. -/
theorem annotationsLength_blank (hm : ∀ c ∈ m, isBlank c) (hc : isBlank c = false) {t : Text}
    (hname : annotationName? (c :: t) = none) : annotationsLength (m ++ c :: t) = m.length := by
  have hrun : Text.run isBlank (m ++ c :: t) = m.length := run_append hm (by simpa using hc)
  simp [annotationsLength, annotationsLengthFrom, hrun, hname]

/-! ### The end of a body -/

/-- The braces of a text match: inside a body they do not end it. -/
def Balanced (s : Text) : Prop :=
  ∀ pos (depth : Int) t, 0 < depth →
    braceEndFrom pos depth true (s ++ t) = braceEndFrom (pos + s.length) depth true t

theorem balanced_nil : Balanced [] :=
  fun _ _ _ _ => rfl

theorem Balanced.append {s' : Text} (hs : Balanced s) (hs' : Balanced s') : Balanced (s ++ s') := by
  intro pos depth t hdepth
  rw [append_assoc, hs pos depth _ hdepth, hs' _ depth t hdepth, length_append, Nat.add_assoc]

theorem braceEndFrom_append (hopen : '{' ∉ m) (hclose : '}' ∉ m) (pos : Nat) (depth : Int)
    (opened : Bool) (t : Text) :
    braceEndFrom pos depth opened (m ++ t) = braceEndFrom (pos + m.length) depth opened t := by
  induction m generalizing pos with
  | nil => rfl
  | cons c m ih =>
    rw [mem_cons, not_or] at hopen hclose
    simp [braceEndFrom, if_neg (Ne.symm hopen.1), if_neg (Ne.symm hclose.1), ih hopen.2 hclose.2,
      Nat.add_assoc, Nat.add_comm 1]

theorem balanced_of_notMem (hopen : '{' ∉ m) (hclose : '}' ∉ m) : Balanced m :=
  fun pos depth t _ => braceEndFrom_append hopen hclose pos depth true t

theorem Balanced.braces (hs : Balanced s) : Balanced ('{' :: (s ++ ['}'])) := by
  intro pos depth t hdepth
  have hinner : ¬ (true && decide (depth + 1 - 1 = 0)) = true := by
    grind
  rw [cons_append, braceEndFrom, if_pos rfl, append_assoc,
    hs (pos + 1) (depth + 1) _ (by omega), singleton_append, braceEndFrom,
    if_neg (by decide), if_pos rfl, if_neg hinner, add_sub_cancel_right]
  congr 1
  grind

/-- A body ends behind the closing brace that belongs to its opening brace. -/
theorem Balanced.braceEnd? (hs : Balanced s) {head : Text} (hopen : '{' ∉ head)
    (hclose : '}' ∉ head) (a t : Text) :
    braceEnd? (a ++ (head ++ '{' :: (s ++ '}' :: t))) a.length =
      some (a.length + head.length + 1 + s.length + 1) := by
  rw [Source.braceEnd?, drop_left, braceEndFrom_append hopen hclose, braceEndFrom, if_pos rfl,
    hs _ _ _ (by decide), braceEndFrom, if_neg (by decide), if_pos rfl, if_pos (by decide)]

end DocGraft.Source
