import DocGraft.Proofs.MarkupLayout

/-!
# Markup that cannot end a comment

Page markup goes into a source comment, where `*/` ends the comment and `\u` begins a Unicode
escape. Both pairs are defused before the block markup is laid out. Most of the steps that follow
write a line break or a tag where they delete white space, so they bring no two characters of the
text together. The exception is the one that deletes the ends of paragraphs: what stood before and
behind them forms a pair that nobody looks for any more. No other step makes or removes a pair.

The steps are followed backwards from the comment text to the markup. For each of them it is said
what stands behind the places of the first character, seen through the ends of paragraphs.

The main results are `Markup.behindEnds_tagName`, `Markup.behindEnds_defuseFrom`,
`Markup.behindEnds_leadingSpace` and `Markup.commentText_defused_iff`.
-/

namespace DocGraft.Text

variable {c d : Char} {cased : Bool} {s : Text}

/-! ### Names in lower case -/

theorem mapRuns_cases (n : Nat) (runs : List (Nat × Nat × Nat × Nat)) :
    mapRuns n runs = n ∨ ∃ run ∈ runs, run.1 ≤ n ∧ n ≤ run.2.1 ∧
      mapRuns n runs = run.2.2.2 + (n - run.1) := by
  induction runs with
  | nil => exact .inl rfl
  | cons run runs ih =>
    obtain ⟨first, last, step, image⟩ := run
    rw [mapRuns]
    split_ifs with hfirst hlast hstep
    · exact .inl rfl
    · exact .inr ⟨_, List.mem_cons_self, by omega, hlast, rfl⟩
    · exact .inl rfl
    · grind

/-- The runs of capitals whose small letters are ASCII characters. -/
theorem lowerRuns_ascii : ∀ run ∈ lowerRuns, 0x80 ≤ run.2.2.2 ∨
    run = (0x41, 0x5a, 1, 0x61) ∨ run = (0x212a, 0x212a, 1, 0x6b) := by
  decide +kernel

/-- An ASCII character is the small letter of itself, of an ASCII capital, or of the Kelvin sign. -/
theorem lowerChar_ascii (h : lowerChar c = d) (hzero : d.toNat ≠ 0) (hd : d.toNat < 0x80) :
    c = d ∨ (0x41 ≤ c.toNat ∧ c.toNat ≤ 0x5a ∧ d.toNat = c.toNat + 0x20) ∨ d = 'k' := by
  have hnat : mapRuns c.toNat lowerRuns = d.toNat := by
    grind [lowerChar, Char.toNat_ofNat]
  rcases mapRuns_cases c.toNat lowerRuns with hself | ⟨run, hmem, hfirst, hlast, himage⟩
  · exact .inl (Char.toNat_inj.mp (by omega))
  · rcases lowerRuns_ascii run hmem with hrun | rfl | rfl
    · omega
    · grind
    · dsimp only at hfirst hlast himage
      refine .inr (.inr (Char.toNat_inj.mp ?_))
      change d.toNat = 0x6b
      omega

/-- The characters of a text in lower case. -/
theorem exists_of_mem_lowerCaseFrom (h : d ∈ lowerCaseFrom cased s) :
    (∃ c ∈ s, d = lowerChar c) ∨ d ∈ ['ς', 'σ', 'i', '\u0307'] := by
  induction s generalizing cased with
  | nil => simp [lowerCaseFrom] at h
  | cons c s ih =>
    rw [lowerCaseFrom, List.mem_append] at h
    rcases h with h | h
    · grind
    · grind

/-- Marks are not made by writing a text in lower case. -/
theorem mem_of_mem_lowerCase (h : d ∈ lowerCase s) (hd : d ∈ ['*', '\\', '/', '<', '>']) :
    d ∈ s := by
  have hmark : ∀ e ∈ ['*', '\\', '/', '<', '>'],
      e.toNat ≠ 0 ∧ e.toNat < 0x61 ∧ e ∉ ['ς', 'σ', 'i', '\u0307'] := by
    simp
  obtain ⟨hzero, hcapital, hnone⟩ := hmark d hd
  rcases exists_of_mem_lowerCaseFrom h with ⟨c, hc, hlower⟩ | hother
  · rcases lowerChar_ascii hlower.symm hzero (by omega) with rfl | hletter | rfl
    · exact hc
    · omega
    · exact absurd hcapital (by decide)
  · exact absurd hother hnone

theorem lowerChar_eq_p (h : lowerChar c = 'p') : c = 'p' ∨ c = 'P' := by
  rcases lowerChar_ascii h (by decide) (by decide) with rfl | ⟨-, -, hc⟩ | hk
  · exact .inl rfl
  · refine .inr (Char.toNat_inj.mp ?_)
    grind
  · exact absurd hk (by decide)

/-- Only the letter itself and its capital begin a text that begins with `p` in lower case. -/
theorem lowerCaseFrom_cons_eq_p {t : Text} (h : lowerCaseFrom cased (c :: s) = 'p' :: t) :
    (c = 'p' ∨ c = 'P') ∧ ∃ cased', t = lowerCaseFrom cased' s := by
  rw [lowerCaseFrom] at h
  generalize (if isCaseIgnorable c then cased else isCased c) = cased' at h
  split_ifs at h
  · exact absurd (List.cons.inj h).1 (by decide)
  · exact absurd (List.cons.inj h).1 (by decide)
  · exact absurd (List.cons.inj h).1 (by decide)
  · obtain ⟨hc, ht⟩ := List.cons.inj h
    exact ⟨lowerChar_eq_p hc, _, ht.symm⟩

theorem lowerCaseFrom_eq_nil (h : lowerCaseFrom cased s = []) : s = [] := by
  cases s with
  | nil => rfl
  | cons c s =>
    rw [lowerCaseFrom, List.append_eq_nil_iff] at h
    split_ifs at h <;> simp at h

end DocGraft.Text

namespace DocGraft.Markup

open List Text

variable {before : Option Char} {c : Char} {letters : List Char} {s w : Text} {a b p : Char}

/-! ### Ends of paragraphs -/

/-- The first character behind the ends of paragraphs with which a text begins. The name of a
paragraph is one of `letters`. -/
def behindEnds (letters : List Char) : Text → Option Char
  | '<' :: '/' :: p :: '>' :: s => if p ∈ letters then behindEnds letters s else some '<'
  | s => s.head?

/-- Induction along the ends of paragraphs with which a text begins. -/
theorem ends_induction (letters : List Char) {P : Text → Prop}
    (other : ∀ s, (∀ p ∈ letters, ¬ ['<', '/', p, '>'] <+: s) → P s)
    (close : ∀ p ∈ letters, ∀ s, P s → P ('<' :: '/' :: p :: '>' :: s)) (s : Text) : P s := by
  induction hn : s.length using Nat.strong_induction_on generalizing s with
  | _ n ih =>
    by_cases hs : ∃ p ∈ letters, ['<', '/', p, '>'] <+: s
    · obtain ⟨p, hp, t, rfl⟩ := hs
      grind
    · grind

theorem behindEnds_close (hp : p ∈ letters) (s : Text) :
    behindEnds letters ('<' :: '/' :: p :: '>' :: s) = behindEnds letters s := by
  rw [behindEnds, if_pos hp]

theorem behindEnds_other (h : ∀ p ∈ letters, ¬ ['<', '/', p, '>'] <+: s) :
    behindEnds letters s = s.head? := by
  rw [behindEnds.eq_def]
  grind

theorem behindEnds_of_notMem (h : '<' ∉ s) : behindEnds letters s = s.head? :=
  behindEnds_other fun _ _ hlead => h (hlead.subset mem_cons_self)

/-- Deleting the ends of paragraphs brings up what stands behind them. -/
theorem head?_deleteEnds (before : Option Char) (s : Text) :
    (substituteFrom (literalRule "</p>".toList []) 0 before s).head? = behindEnds ['p'] s := by
  induction s using ends_induction ['p'] generalizing before with
  | other s h =>
    rw [behindEnds_other h]
    cases s with
    | nil => rfl
    | cons c s =>
      have hrule : literalRule "</p>".toList [] before (c :: s) = none := by
        rw [literalRule, if_neg]
        exact fun hstarts => h 'p' (mem_singleton.mpr rfl) (startsWith_iff.mp hstarts)
      rw [substituteFrom_cons_of_none hrule]
      rfl
  | close p hp s ih =>
    obtain rfl := mem_singleton.mp hp
    have hrule : literalRule "</p>".toList [] before ("</p>".toList ++ s) = some ([], 4) := by
      rw [literalRule, if_pos (startsWith_iff.mpr (prefix_append _ s))]
      rfl
    change (substituteFrom _ 0 before ("</p>".toList ++ s)).head? = _
    rw [substituteFrom_of_some (by decide) hrule, nil_append, ih, behindEnds_close hp]

/-! ### Spaces at the beginning of lines -/

theorem leadingSpaceRule_of_ne (hc : c ≠ '\n') (s : Text) : leadingSpaceRule (some c) s = none := by
  rw [leadingSpaceRule, if_neg]
  simp [hc]

theorem prefix_substituteFrom_leadingSpace (hw : '\n' ∉ w) (hc : c ≠ '\n') (s : Text) :
    w <+: substituteFrom leadingSpaceRule 0 (some c) s ↔ w <+: s := by
  induction w generalizing c s with
  | nil => simp
  | cons d w ih =>
    rw [mem_cons, not_or] at hw
    cases s with
    | nil => rfl
    | cons e s =>
      rw [substituteFrom_cons_of_none (leadingSpaceRule_of_ne hc _), cons_prefix_cons,
        cons_prefix_cons]
      refine and_congr_right fun hde => ?_
      subst hde
      exact ih hw.2 (Ne.symm hw.1) s

/-- Removing spaces at the beginning of lines does not change what stands behind ends of
paragraphs within a line. -/
theorem behindEnds_leadingSpace (hc : c ≠ '\n') (s : Text) :
    behindEnds ['p'] (substituteFrom leadingSpaceRule 0 (some c) s) = behindEnds ['p'] s := by
  induction s using ends_induction ['p'] generalizing c with
  | other s h =>
    rw [behindEnds_other h, behindEnds_other]
    · cases s with
      | nil => rfl
      | cons d s => rw [substituteFrom_cons_of_none (leadingSpaceRule_of_ne hc _)]; rfl
    · intro p hp hlead
      obtain rfl := mem_singleton.mp hp
      exact h 'p' hp ((prefix_substituteFrom_leadingSpace (by decide) hc s).mp hlead)
  | close p hp s ih =>
    obtain rfl := mem_singleton.mp hp
    rw [substituteFrom_cons_of_none (leadingSpaceRule_of_ne hc _),
      substituteFrom_cons_of_none (leadingSpaceRule_of_ne (by decide) _),
      substituteFrom_cons_of_none (leadingSpaceRule_of_ne (by decide) _),
      substituteFrom_cons_of_none (leadingSpaceRule_of_ne (by decide) _), behindEnds_close hp,
      behindEnds_close hp, ih (by decide)]

/-! ### Defusing in one pass -/

/-- The text behind `before` with the second character of each `*/` and the first one of each `\u`
written by a reference. -/
def defuseFrom : (before : Option Char) → Text → Text
  | _, [] => []
  | before, c :: s =>
    (if before = some '*' ∧ c = '/' then "&#47;".toList
      else if c = '\\' ∧ s.head? = some 'u' then "&#92;".toList else [c]) ++ defuseFrom (some c) s

theorem head?_replace_closing (s : Text) :
    (replace "*/".toList "*&#47;".toList s).head? = s.head? := by
  by_cases h : "*/".toList <+: s
  · obtain ⟨t, rfl⟩ := h
    rw [Text.replace_append (by decide)]
    rfl
  · cases s with
    | nil => rfl
    | cons c s => rw [Text.replace_cons h, head?_cons, head?_cons]

theorem defuse_closing (s : Text) : defuse ('*' :: '/' :: s) = "*&#47;".toList ++ defuse s := by
  have hfirst : replace "*/".toList "*&#47;".toList ('*' :: '/' :: s) = _ :=
    Text.replace_append (show "*/".toList ≠ [] by decide) _ s
  rw [defuse, hfirst]
  exact Text.replace_append_of_notMem (d := '\\') (by decide) _ _ _

theorem defuse_escape (s : Text) : defuse ('\\' :: 'u' :: s) = "&#92;u".toList ++ defuse s := by
  have hfirst : replace "*/".toList "*&#47;".toList ('\\' :: 'u' :: s) = _ :=
    Text.replace_append_of_notMem (d := '*') (w := ['\\', 'u']) (by decide) _ _ s
  rw [defuse, hfirst]
  exact Text.replace_append (show "\\u".toList ≠ [] by decide) _ _

theorem defuse_cons (hclosing : ¬ (c = '*' ∧ s.head? = some '/'))
    (hescape : ¬ (c = '\\' ∧ s.head? = some 'u')) : defuse (c :: s) = c :: defuse s := by
  have hpair : ∀ (d e : Char) (t : Text), [d, e] <+: c :: t → c = d ∧ t.head? = some e := by
    rintro d e t ⟨rest, hrest⟩
    obtain ⟨rfl, rfl⟩ := List.cons.inj hrest
    exact ⟨rfl, rfl⟩
  have hfirst : ¬ "*/".toList <+: c :: s := fun hlead => hclosing (hpair '*' '/' s hlead)
  rw [defuse, Text.replace_cons hfirst, Text.replace_cons, defuse]
  intro hlead
  obtain ⟨hc, hs⟩ := hpair '\\' 'u' _ hlead
  grind [head?_replace_closing]

/-- The two replacements do not meet, so they can be made in one pass. -/
theorem defuse_eq_defuseFrom (h : before = some '*' → s.head? ≠ some '/') :
    defuse s = defuseFrom before s := by
  induction hn : s.length using Nat.strong_induction_on generalizing s before with
  | _ n ih =>
    cases s with
    | nil => rfl
    | cons c s =>
      rw [length_cons] at hn
      by_cases hclosing : c = '*' ∧ s.head? = some '/'
      · obtain ⟨rfl, hs⟩ := hclosing
        obtain ⟨t, rfl⟩ := head?_eq_some_iff.mp hs
        rw [length_cons] at hn
        rw [defuse_closing, @ih t.length (by omega) (some '/') t (by simp) rfl]
        simp [defuseFrom]
      by_cases hescape : c = '\\' ∧ s.head? = some 'u'
      · obtain ⟨rfl, hs⟩ := hescape
        obtain ⟨t, rfl⟩ := head?_eq_some_iff.mp hs
        rw [length_cons] at hn
        rw [defuse_escape, @ih t.length (by omega) (some 'u') t (by simp) rfl]
        simp [defuseFrom]
      · have hbehind : some c = some '*' → s.head? ≠ some '/' := fun hc hs =>
          hclosing ⟨Option.some.inj hc, hs⟩
        have hfirst : ¬ (before = some '*' ∧ c = '/') := fun hc => h hc.1 (congrArg some hc.2)
        rw [defuse_cons hclosing hescape, ih s.length (by omega) hbehind rfl, defuseFrom,
          if_neg hfirst, if_neg hescape, singleton_append]

/-- The places of a star, and those of a backslash that does not begin a Unicode escape, are
kept. -/
theorem suffix_defuseFrom (ha : a = '*' ∨ a = '\\') {r : Text} :
    a :: r <:+ defuseFrom before s ↔
      ∃ t, a :: t <:+ s ∧ (a = '\\' → t.head? ≠ some 'u') ∧ r = defuseFrom (some a) t := by
  induction s generalizing before with
  | nil => simp [defuseFrom]
  | cons c s ih =>
    have hslash : a ≠ '/' := by rintro rfl; simp at ha
    have hreference : a ∉ "&#47;".toList ∧ a ∉ "&#92;".toList := by
      rcases ha with rfl | rfl <;> decide
    rw [defuseFrom]
    split_ifs with hclosing hescape
    · obtain ⟨-, rfl⟩ := hclosing
      rw [suffix_append_of_notMem hreference.1, ih]
      simp [suffix_cons_iff, hslash]
    · obtain ⟨rfl, hs⟩ := hescape
      rw [suffix_append_of_notMem hreference.2, ih]
      simp only [suffix_cons_iff, List.cons.injEq]
      constructor
      · rintro ⟨t, ht, h⟩
        exact ⟨t, .inr ht, h⟩
      · grind
    · rw [singleton_append, suffix_cons_iff, ih]
      simp only [suffix_cons_iff, List.cons.injEq]
      constructor
      · rintro (⟨rfl, rfl⟩ | ⟨t, ht, h⟩)
        · grind
        · exact ⟨t, .inr ht, h⟩
      · grind

theorem prefix_of_prefix_defuseFrom (hw : '&' ∉ w) (h : w <+: defuseFrom before s) : w <+: s := by
  induction w generalizing before s with
  | nil => simp
  | cons d w ih =>
    rw [mem_cons, not_or] at hw
    cases s with
    | nil => simp [defuseFrom] at h
    | cons c s =>
      grind [defuseFrom]

/-- What stands behind ends of paragraphs is defused only right behind a star. -/
theorem behindEnds_defuseFrom (hb : b = '/' ∨ b = 'u') (before : Option Char) (s : Text) :
    behindEnds ['p'] (defuseFrom before s) = some b ↔
      behindEnds ['p'] s = some b ∧ ¬ (before = some '*' ∧ b = '/' ∧ s.head? = some '/') := by
  induction s using ends_induction ['p'] generalizing before with
  | other s h =>
    rw [behindEnds_other h, behindEnds_other]
    · cases s with
      | nil => simp [defuseFrom]
      | cons c s =>
        rw [defuseFrom]
        grind
    · intro p hp hlead
      obtain rfl := mem_singleton.mp hp
      exact h 'p' hp (prefix_of_prefix_defuseFrom (by decide) hlead)
  | close p hp s ih =>
    obtain rfl := mem_singleton.mp hp
    simp [defuseFrom, behindEnds_close hp, ih]

/-! ### Names of tags -/

theorem tagNameRule_eq_some {out : Text} {n : Nat} (h : tagNameRule before s = some (out, n)) :
    ∃ slash name rest, s = '<' :: (slash ++ name) ++ rest ∧ (slash = [] ∨ slash = ['/']) ∧
      name ≠ [] ∧ (∀ c ∈ name, isWord c) ∧ (∀ c ∈ rest.head?, isWord c = false) ∧
      out = '<' :: (slash ++ lowerCase name) ∧ n = ('<' :: (slash ++ name)).length := by
  have hparts : ∀ t : Text, t.takeWhile isWord ≠ [] → ∃ name rest, t = name ++ rest ∧
      t.takeWhile isWord = name ∧ name ≠ [] ∧ (∀ c ∈ name, isWord c) ∧
        ∀ c ∈ rest.head?, isWord c = false := by
    intro t ht
    refine ⟨_, t.dropWhile isWord, takeWhile_append_dropWhile.symm, rfl, ht,
      fun c => mem_takeWhile_imp, fun c hc => ?_⟩
    have hnot := head?_dropWhile_not isWord t
    grind
  rw [tagNameRule.eq_def] at h
  split at h
  · next t =>
    dsimp only at h
    split_ifs at h with hslash hname hname
    · obtain ⟨t, rfl⟩ := head?_eq_some_iff.mp hslash
      obtain ⟨name, rest, ht, htake, hparts⟩ := hparts t hname
      rw [Option.some.injEq, Prod.mk.injEq] at h
      obtain ⟨rfl, rfl⟩ := h
      refine ⟨['/'], name, rest, by simp [ht], .inr rfl, hparts.1, hparts.2.1, hparts.2.2, ?_, ?_⟩
      · simp [htake]
      · simp [htake]; omega
    · obtain ⟨name, rest, rfl, htake, hparts⟩ := hparts t hname
      rw [Option.some.injEq, Prod.mk.injEq] at h
      obtain ⟨rfl, rfl⟩ := h
      refine ⟨[], name, rest, by simp, .inl rfl, hparts.1, hparts.2.1, hparts.2.2, ?_, ?_⟩
      · simp [htake]
      · simp [htake]; omega
  · cases h

/-- The name of a tag has no marks in it when it is written in lower case. -/
theorem notMem_lowerCase {name : Text} (hname : ∀ c ∈ name, isWord c) {d : Char}
    (hd : d ∈ ['*', '\\', '/', '<', '>']) : d ∉ lowerCase name := by
  intro hmem
  have hword := hname d (mem_of_mem_lowerCase hmem hd)
  have hnone : isWord d = false := by
    simp only [mem_cons, not_mem_nil, or_false] at hd
    rcases hd with rfl | rfl | rfl | rfl | rfl <;> decide
  simp [hnone] at hword

theorem passes_tagNameRule (ha : a ∈ ['*', '\\']) : Passes a tagNameRule := by
  intro before s out n h
  obtain ⟨slash, name, rest, rfl, hslash, -, hname, -, rfl, rfl⟩ := tagNameRule_eq_some h
  have hword : isWord a = false ∧ a ≠ '<' ∧ a ∉ slash := by
    simp only [mem_cons, not_mem_nil, or_false] at ha
    rcases hslash with rfl | rfl <;> rcases ha with rfl | rfl <;> decide
  have hlower := notMem_lowerCase hname (mem_append_left ['/', '<', '>'] ha)
  grind

theorem head?_tagName (before : Option Char) (s : Text) :
    (substituteFrom tagNameRule 0 before s).head? = s.head? := by
  cases s with
  | nil => rfl
  | cons c s =>
    cases hrule : tagNameRule before (c :: s) with
    | some place =>
      obtain ⟨out, n⟩ := place
      obtain ⟨slash, name, rest, hs, -, -, -, -, rfl, rfl⟩ := tagNameRule_eq_some hrule
      rw [hs] at hrule ⊢
      rw [substituteFrom_of_some (by simp) hrule]
      rfl
    | none => rw [substituteFrom_cons_of_none hrule, head?_cons, head?_cons]

theorem tagNameRule_of_ne (hc : c ≠ '<') (s : Text) : tagNameRule before (c :: s) = none := by
  rw [tagNameRule.eq_def]
  simp [hc]

theorem tagNameRule_close (hp : p ∈ ['p', 'P']) (before : Option Char) (s : Text) :
    tagNameRule before (['<', '/', p] ++ '>' :: s) = some (['<', '/', 'p'], 3) := by
  have hend : isWord '>' = false := by decide
  simp only [mem_cons, not_mem_nil, or_false] at hp
  rcases hp with rfl | rfl
  · have hword : isWord 'p' = true := by decide
    have hlower : lowerCase ['p'] = ['p'] := by decide
    simp [tagNameRule, hword, hend, hlower]
  · have hword : isWord 'P' = true := by decide
    have hlower : lowerCase ['P'] = ['p'] := by decide
    simp [tagNameRule, hword, hend, hlower]

/-- An end of a paragraph with its name in lower case was one before. -/
theorem exists_close_of_tagName
    (h : ['<', '/', 'p', '>'] <+: substituteFrom tagNameRule 0 before s) :
    ∃ p ∈ ['p', 'P'], ['<', '/', p, '>'] <+: s := by
  have hhead : ∀ {before : Option Char} {c : Char} {w t : Text},
      c :: w <+: substituteFrom tagNameRule 0 before t → t.head? = some c := by
    rintro before c w t ⟨rest, hrest⟩
    rw [← head?_tagName before t, ← hrest]
    rfl
  cases s with
  | nil => simp [substituteFrom] at h
  | cons c s =>
    cases hrule : tagNameRule before (c :: s) with
    | none =>
      -- The characters up to the letter are kept, so that a name begins there.
      rw [substituteFrom_cons_of_none hrule, cons_prefix_cons] at h
      obtain ⟨rfl, h⟩ := h
      obtain ⟨s, rfl⟩ := head?_eq_some_iff.mp (hhead h)
      rw [substituteFrom_cons_of_none (tagNameRule_of_ne (by decide) s), cons_prefix_cons] at h
      obtain ⟨s, rfl⟩ := head?_eq_some_iff.mp (hhead h.2)
      have hword : isWord 'p' = true := by decide
      simp [tagNameRule, hword] at hrule
    | some place =>
      obtain ⟨out, n⟩ := place
      obtain ⟨slash, name, rest, hs, hslash, hne, hname, -, rfl, rfl⟩ := tagNameRule_eq_some hrule
      rw [hs] at hrule h ⊢
      rw [substituteFrom_of_some (by simp) hrule, cons_append, cons_prefix_cons] at h
      obtain ⟨-, h⟩ := h
      obtain ⟨c, name, rfl⟩ := exists_cons_of_ne_nil hne
      obtain ⟨d, lower, hlower⟩ : ∃ d lower, lowerCase (c :: name) = d :: lower :=
        exists_cons_of_ne_nil fun hnil => hne (lowerCaseFrom_eq_nil hnil)
      rcases hslash with rfl | rfl
      · rw [nil_append, hlower, cons_append, cons_prefix_cons] at h
        refine absurd ?_ (notMem_lowerCase hname (d := '/') (by simp))
        grind
      · rw [singleton_append, hlower, cons_append, cons_append,
          cons_prefix_cons, cons_prefix_cons] at h
        obtain ⟨-, rfl, h⟩ := h
        obtain ⟨hc, cased, rfl⟩ := lowerCaseFrom_cons_eq_p hlower
        obtain rfl : name = [] := by
          by_contra hnonempty
          obtain ⟨d, lower, htail⟩ : ∃ d lower, lowerCaseFrom cased name = d :: lower :=
            exists_cons_of_ne_nil fun hnil => hnonempty (lowerCaseFrom_eq_nil hnil)
          rw [htail, cons_append, cons_prefix_cons] at h
          refine absurd ?_ (notMem_lowerCase hname (d := '>') (by simp))
          rw [hlower, htail, ← h.1]
          simp
        obtain ⟨rest, rfl⟩ := head?_eq_some_iff.mp (hhead h)
        exact ⟨c, by simpa using hc, rest, by simp⟩

/-- Writing the names of tags in lower case makes ends of paragraphs of their capital forms. -/
theorem behindEnds_tagName (before : Option Char) (s : Text) :
    behindEnds ['p'] (substituteFrom tagNameRule 0 before s) = behindEnds ['p', 'P'] s := by
  induction s using ends_induction ['p', 'P'] generalizing before with
  | other s h =>
    rw [behindEnds_other h, behindEnds_other, head?_tagName]
    intro p hp hlead
    obtain rfl := mem_singleton.mp hp
    obtain ⟨p, hp, hlead⟩ := exists_close_of_tagName hlead
    exact h p hp hlead
  | close p hp s ih =>
    change behindEnds ['p'] (substituteFrom tagNameRule 0 before (['<', '/', p] ++ '>' :: s)) = _
    rw [substituteFrom_of_some (by simp) (tagNameRule_close hp before s),
      substituteFrom_cons_of_none (tagNameRule_of_ne (by decide) s), behindEnds_close hp]
    exact (behindEnds_close (mem_singleton.mpr rfl) _).trans (ih _)

/-! ### Pairs in comment text -/

/-- A text has `a`, then one or more ends of paragraphs, and `b` right behind them. -/
def Bridged (a b : Char) (s : Text) : Prop :=
  ∃ ends : List Text, ends ≠ [] ∧ (∀ close ∈ ends, close = "</p>".toList ∨ close = "</P>".toList) ∧
    a :: (ends.flatten ++ [b]) <:+: s

theorem behindEnds_eq_some_iff (hb : b ≠ '<') (s : Text) :
    behindEnds letters s = some b ↔ ∃ ends : List Text,
      (∀ close ∈ ends, ∃ p ∈ letters, close = ['<', '/', p, '>']) ∧ ends.flatten ++ [b] <+: s := by
  induction s using ends_induction letters with
  | other s h =>
    rw [behindEnds_other h]
    constructor
    · intro hs
      obtain ⟨t, rfl⟩ := head?_eq_some_iff.mp hs
      exact ⟨[], by simp, t, rfl⟩
    · rintro ⟨ends, hends, hlead⟩
      cases ends with
      | nil =>
        obtain ⟨t, rfl⟩ := hlead
        rfl
      | cons close ends =>
        obtain ⟨p, hp, rfl⟩ := hends close mem_cons_self
        rw [flatten_cons, append_assoc] at hlead
        exact absurd ((prefix_append _ _).trans hlead) (h p hp)
  | close p hp s ih =>
    rw [behindEnds_close hp, ih]
    constructor
    · rintro ⟨ends, hends, hlead⟩
      refine ⟨['<', '/', p, '>'] :: ends, ?_, ?_⟩
      · grind
      · simpa using hlead
    · rintro ⟨ends, hends, hlead⟩
      cases ends with
      | nil => grind
      | cons close ends =>
        rw [forall_mem_cons] at hends
        obtain ⟨⟨q, -, rfl⟩, hends⟩ := hends
        grind

theorem bridged_iff (hb : b ≠ '<') : Bridged a b s ↔
    ∃ t, a :: t <:+ s ∧ behindEnds ['p', 'P'] t = some b ∧ t.head? ≠ some b := by
  have hclose : ∀ close : Text, (∃ p ∈ ['p', 'P'], close = ['<', '/', p, '>']) ↔
      close = "</p>".toList ∨ close = "</P>".toList := by
    simp
  simp only [Bridged, behindEnds_eq_some_iff hb, hclose]
  constructor
  · rintro ⟨ends, hne, hends, u, v, rfl⟩
    refine ⟨ends.flatten ++ [b] ++ v, ⟨u, by simp⟩, ⟨ends, hends, prefix_append _ _⟩, ?_⟩
    obtain ⟨close, ends, rfl⟩ := exists_cons_of_ne_nil hne
    rcases hends close mem_cons_self with rfl | rfl <;> simpa using hb.symm
  · rintro ⟨t, ⟨u, rfl⟩, ⟨ends, hends, v, rfl⟩, hhead⟩
    refine ⟨ends, ?_, hends, u, v, by simp⟩
    rintro rfl
    exact hhead rfl

section Pairs

variable {a b : Char} (hpair : a = '*' ∧ b = '/' ∨ a = '\\' ∧ b = 'u')

include hpair

/-- A pair that shows behind ends of paragraphs in defused text was not a pair before. -/
theorem exists_behindEnds_defuse (s : Text) :
    (∃ t, a :: t <:+ substitute leadingSpaceRule (defuse s) ∧ behindEnds ['p'] t = some b) ↔
      ∃ t, a :: t <:+ s ∧ behindEnds ['p'] t = some b ∧ t.head? ≠ some b := by
  have ha : a = '*' ∨ a = '\\' := hpair.imp And.left And.left
  have hb : b = '/' ∨ b = 'u' := hpair.imp And.right And.right
  have hnewline : a ≠ '\n' := by rcases ha with rfl | rfl <;> decide
  rw [substitute, (passes_leadingSpaceRule ha).exists_suffix,
    defuse_eq_defuseFrom (show none = some '*' → s.head? ≠ some '/' by simp)]
  simp only [behindEnds_leadingSpace hnewline, suffix_defuseFrom ha]
  constructor
  · rintro ⟨r, ⟨t, ht, hescape, rfl⟩, hr⟩
    obtain ⟨hbehind, hclosing⟩ := (behindEnds_defuseFrom hb _ t).mp hr
    refine ⟨t, ht, hbehind, fun hhead => ?_⟩
    rcases hpair with ⟨rfl, rfl⟩ | ⟨rfl, rfl⟩
    · exact hclosing ⟨rfl, rfl, hhead⟩
    · exact hescape rfl hhead
  · rintro ⟨t, ht, hbehind, hhead⟩
    refine ⟨_, ⟨t, ht, ?_, rfl⟩, (behindEnds_defuseFrom hb _ t).mpr ⟨hbehind, ?_⟩⟩
    · rintro rfl
      rcases hpair with ⟨h, -⟩ | ⟨-, rfl⟩
      · cases h
      · exact hhead
    · grind

theorem hasPair_commentText (markup : Text) :
    HasPair a b (commentText markup) ↔ Bridged a b markup := by
  have ha : a = '*' ∨ a = '\\' := hpair.imp And.left And.left
  have hb : b = '/' ∨ b = 'u' := hpair.imp And.right And.right
  have hlt : b ≠ '<' := by rcases hb with rfl | rfl <;> decide
  rw [commentText, hasPair_trim (isBlank_first ha) (isBlank_second hb), bridged_iff hlt]
  by_cases htagged : '<' ∈ markup
  · simp only [htagged, if_true]
    rw [hasPair_layOutBlocks ha hb, hasPair_iff_suffix, Text.replace, substitute,
      (passes_deleteEnds ha).exists_suffix]
    simp only [head?_deleteEnds]
    rw [exists_behindEnds_defuse hpair, substitute,
      (passes_tagNameRule (by simpa using ha)).exists_suffix]
    simp only [behindEnds_tagName, head?_tagName]
  · -- Without tags nothing is deleted, and a pair can only be one that was there and is defused.
    have hplain : ∀ letters t, a :: t <:+ markup → behindEnds letters t = t.head? :=
      fun letters t ht => behindEnds_of_notMem fun hmem =>
        htagged (ht.subset (mem_cons_of_mem a hmem))
    simp only [htagged, if_false]
    rw [hasPair_iff_suffix]
    constructor
    · rintro ⟨r, hr, hhead⟩
      have hbehind : behindEnds ['p'] r = some b := by
        rw [behindEnds_eq_some_iff hlt]
        obtain ⟨v, rfl⟩ := head?_eq_some_iff.mp hhead
        exact ⟨[], by simp, v, rfl⟩
      obtain ⟨t, ht, hbehind, hhead⟩ := (exists_behindEnds_defuse hpair markup).mp ⟨r, hr, hbehind⟩
      exact absurd (hplain _ t ht ▸ hbehind) hhead
    · grind

end Pairs

/-- The text of a comment can close the comment, or begin a Unicode escape, only where ends of
paragraphs stand between the two characters in the markup: these are deleted when everything else
has been defused. -/
theorem commentText_defused_iff (markup : Text) :
    ("*/".toList <:+: commentText markup ↔ Bridged '*' '/' markup) ∧
      ("\\u".toList <:+: commentText markup ↔ Bridged '\\' 'u' markup) :=
  ⟨hasPair_commentText (.inl ⟨rfl, rfl⟩) markup, hasPair_commentText (.inr ⟨rfl, rfl⟩) markup⟩

/-- An end of a paragraph between a star and a slash hides the end of the comment. -/
theorem commentText_closes_behind_paragraph :
    "*/".toList <:+: commentText "a *</p>/ b".toList := by
  decide +kernel

end DocGraft.Markup
