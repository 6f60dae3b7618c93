import DocGraft.Markup.CommentText
import DocGraft.Proofs.TextRules
import DocGraft.Text.Blank

/-!
# Laying out markup beside pairs of characters

Block markup is laid out by a dozen substitutions, which delete white space and move tags to lines
of their own. In comment text two pairs of characters matter, `*/` and `\u`. A substitution spares
both of them: it takes tags and white space, and it writes a line break or a tag at the place. Only
the first step deletes text and writes nothing for it.
-/

/-! ## Pairs of characters in texts -/

namespace DocGraft.Text

open List

variable {a b : Char} {rule : Rule} {before : Option Char} {r s u : Text}

/-- A text has `a` with `b` right behind it. -/
def HasPair (a b : Char) (s : Text) : Prop :=
  [a, b] <:+: s

theorem hasPair_iff_suffix : HasPair a b s ↔ ∃ r, a :: r <:+ s ∧ r.head? = some b := by
  constructor
  · rintro ⟨u, v, rfl⟩
    exact ⟨b :: v, ⟨u, by simp⟩, rfl⟩
  · rintro ⟨r, ⟨u, rfl⟩, hr⟩
    obtain ⟨v, rfl⟩ := head?_eq_some_iff.mp hr
    exact ⟨u, v, by simp⟩

theorem suffix_append_of_notMem (hu : a ∉ u) : a :: r <:+ u ++ s ↔ a :: r <:+ s := by
  induction u with
  | nil => rfl
  | cons c u ih =>
    rw [mem_cons, not_or] at hu
    rw [cons_append, suffix_cons_iff, ih hu.2, or_iff_right]
    intro h
    exact hu.1 (List.cons.inj h).1

/-- Text in front without the first character has no part in a pair. -/
theorem hasPair_append_left (hu : a ∉ u) : HasPair a b (u ++ s) ↔ HasPair a b s := by
  simp only [hasPair_iff_suffix, suffix_append_of_notMem hu]

theorem hasPair_append_right {v : Text} (hv : b ∉ v) : HasPair a b (s ++ v) ↔ HasPair a b s := by
  have hreverse : ∀ t : Text, HasPair a b t ↔ HasPair b a t.reverse := fun t => by
    grind [HasPair]
  rw [hreverse, hreverse, reverse_append, hasPair_append_left (by simpa using hv)]

/-- Trimming white space keeps the pairs of other characters. -/
theorem hasPair_trim (ha : isBlank a = false) (hb : isBlank b = false) (s : Text) :
    HasPair a b (trim s) ↔ HasPair a b s := by
  have hfront : a ∉ s.takeWhile isBlank := fun hmem => by
    simp [mem_takeWhile_imp hmem] at ha
  have hback : b ∉ ((s.dropWhile isBlank).reverse.takeWhile isBlank).reverse := fun hmem => by
    simp [mem_takeWhile_imp (mem_reverse.mp hmem)] at hb
  have hend : s.dropWhile isBlank =
      trim s ++ ((s.dropWhile isBlank).reverse.takeWhile isBlank).reverse := by
    simp [trim, trimBoth, trimEnd, ← reverse_append]
  rw [← hasPair_append_right hback, ← hend, ← hasPair_append_left hfront,
    takeWhile_append_dropWhile]

/-! ### Rules that pass over a character -/

/-- A rule that neither takes nor writes the character `a`. -/
def Passes (a : Char) (rule : Rule) : Prop :=
  ∀ before s out n, rule before s = some (out, n) →
    ∃ u rest, s = u ++ rest ∧ u ≠ [] ∧ u.length = n ∧ a ∉ u ∧ a ∉ out

/-- A rule keeps the places of a character that it passes over, and goes on behind each of them. -/
theorem Passes.suffix_substituteFrom (h : Passes a rule) :
    a :: r <:+ substituteFrom rule 0 before s ↔
      ∃ t, a :: t <:+ s ∧ r = substituteFrom rule 0 (some a) t := by
  induction hn : s.length using Nat.strong_induction_on generalizing s before with
  | _ n ih =>
    cases s with
    | nil => simp [substituteFrom]
    | cons c s =>
      cases hrule : rule before (c :: s) with
      | some place =>
        obtain ⟨out, k⟩ := place
        obtain ⟨u, rest, hs, hne, rfl, hu, hout⟩ := h before _ out k hrule
        have hshorter : rest.length < n := by
          have hpos := length_pos_of_ne_nil hne
          grind
        rw [hs] at hrule ⊢
        rw [substituteFrom_of_some hne hrule, suffix_append_of_notMem hout, ih _ hshorter rfl]
        simp only [suffix_append_of_notMem hu]
      | none =>
        rw [substituteFrom_cons_of_none hrule, suffix_cons_iff, ih s.length (by simp [← hn]) rfl]
        simp only [suffix_cons_iff, List.cons.injEq]
        constructor
        · rintro (⟨rfl, rfl⟩ | ⟨t, ht, hr⟩)
          · exact ⟨s, .inl ⟨rfl, rfl⟩, rfl⟩
          · exact ⟨t, .inr ht, hr⟩
        · grind

theorem Passes.exists_suffix (h : Passes a rule) {P : Text → Prop} :
    (∃ r, a :: r <:+ substituteFrom rule 0 before s ∧ P r) ↔
      ∃ t, a :: t <:+ s ∧ P (substituteFrom rule 0 (some a) t) := by
  constructor
  · rintro ⟨r, hr, hP⟩
    obtain ⟨t, ht, rfl⟩ := h.suffix_substituteFrom.mp hr
    exact ⟨t, ht, hP⟩
  · rintro ⟨t, ht, hP⟩
    exact ⟨_, h.suffix_substituteFrom.mpr ⟨t, ht, rfl⟩, hP⟩

/-- A rule that neither makes nor removes a pair. It passes over the first character, and where it
applies right behind one, the second character stands there neither before nor afterwards. -/
structure Spares (a b : Char) (rule : Rule) : Prop where
  /-- The rule passes over the first character. -/
  passes : Passes a rule
  behind : ∀ s out n, rule (some a) s = some (out, n) → s.head? ≠ some b ∧
    ∀ before, (out ++ substituteFrom rule 0 before (s.drop n)).head? ≠ some b

theorem Spares.head?_substituteFrom (h : Spares a b rule) (s : Text) :
    (substituteFrom rule 0 (some a) s).head? = some b ↔ s.head? = some b := by
  cases s with
  | nil => rfl
  | cons c s =>
    cases hrule : rule (some a) (c :: s) with
    | some place =>
      obtain ⟨out, n⟩ := place
      obtain ⟨hread, hwritten⟩ := h.behind _ out n hrule
      obtain ⟨u, rest, hs, hne, rfl, -, -⟩ := h.passes _ _ _ _ hrule
      rw [hs] at hrule hread hwritten ⊢
      grind [substituteFrom_of_some hne hrule]
    | none => rw [substituteFrom_cons_of_none hrule, head?_cons, head?_cons]

/-- The pairs of a text to which a rule is applied that spares them. -/
theorem Spares.hasPair_substitute (h : Spares a b rule) (s : Text) :
    HasPair a b (substitute rule s) ↔ HasPair a b s := by
  simp [hasPair_iff_suffix, substitute, h.passes.exists_suffix, h.head?_substituteFrom]

end DocGraft.Text

/-! ## Laying out markup beside pairs of characters -/

namespace DocGraft.Markup

open List Text

/-- A text without stars and backslashes. -/
def Unmarked (s : Text) : Prop :=
  '*' ∉ s ∧ '\\' ∉ s

instance (s : Text) : Decidable (Unmarked s) :=
  inferInstanceAs (Decidable (_ ∧ _))

theorem Unmarked.append {s t : Text} (hs : Unmarked s) (ht : Unmarked t) : Unmarked (s ++ t) := by
  rw [Unmarked, mem_append, mem_append, not_or, not_or]
  exact ⟨⟨hs.1, ht.1⟩, hs.2, ht.2⟩

theorem unmarked_takeWhile (s : Text) : Unmarked (s.takeWhile isBlank) :=
  ⟨fun hmem => absurd (mem_takeWhile_imp hmem) (by decide),
    fun hmem => absurd (mem_takeWhile_imp hmem) (by decide)⟩

section Layout

variable {a b : Char} (ha : a = '*' ∨ a = '\\') (hb : b = '/' ∨ b = 'u') {s : Text}

include ha

theorem Unmarked.notMem (h : Unmarked s) : a ∉ s := by
  rcases ha with rfl | rfl
  · exact h.1
  · exact h.2

theorem isBlank_first : isBlank a = false := by
  rcases ha with rfl | rfl <;> decide

omit ha in
include hb in
theorem isBlank_second : isBlank b = false := by
  rcases hb with rfl | rfl <;> decide

theorem passes_deleteEnds : Passes a (literalRule "</p>".toList []) := by
  intro before s out n h
  rw [literalRule, Option.ite_none_right_eq_some, startsWith_iff, Option.some.injEq,
    Prod.mk.injEq] at h
  obtain ⟨⟨rest, rfl⟩, rfl, rfl⟩ := h
  grind

theorem passes_leadingSpaceRule : Passes a leadingSpaceRule := by
  intro before s out n h
  rw [leadingSpaceRule, Option.ite_none_right_eq_some, Option.some.injEq, Prod.mk.injEq] at h
  obtain ⟨⟨-, hs⟩, rfl, rfl⟩ := h
  obtain ⟨rest, rfl⟩ := head?_eq_some_iff.mp hs
  refine ⟨[' '], rest, rfl, by simp, rfl, ?_, by simp⟩
  rcases ha with rfl | rfl <;> decide

include hb

/-- A rule that takes markup with white space around it and writes markup, perhaps on a line of its
own. -/
theorem spares_of_markup {rule : Rule}
    (h : ∀ before s out n, rule before s = some (out, n) → ∃ gap mark gap' rest,
      s = gap ++ (mark ++ gap') ++ rest ∧ n = (gap ++ (mark ++ gap')).length ∧
      (∀ c ∈ gap ++ gap', isBlank c) ∧ mark.head? = some '<' ∧ Unmarked mark ∧ Unmarked out ∧
      (out.head? = some '\n' ∨ out.head? = some '<')) : Spares a b rule where
  passes := by
    intro before s out n hrule
    obtain ⟨gap, mark, gap', rest, rfl, rfl, hgap, hmark, hread, hwritten, -⟩ := h _ _ _ _ hrule
    have hblank : a ∉ gap ++ gap' := fun hmem =>
      absurd (hgap a hmem) (by rw [isBlank_first ha]; simp)
    have hne : mark ≠ [] := by rintro rfl; cases hmark
    rw [mem_append, not_or] at hblank
    refine ⟨_, rest, rfl, by simp [hne], rfl, ?_, hwritten.notMem ha⟩
    simp only [mem_append, not_or]
    exact ⟨hblank.1, hread.notMem ha, hblank.2⟩
  behind := by
    intro s out n hrule
    obtain ⟨gap, mark, gap', rest, rfl, rfl, hgap, hmark, -, -, hout⟩ := h _ _ _ _ hrule
    have hlt : b ≠ '<' ∧ b ≠ '\n' := by rcases hb with rfl | rfl <;> decide
    constructor
    · cases gap with
      | nil =>
        obtain ⟨mark, rfl⟩ := head?_eq_some_iff.mp hmark
        simpa using hlt.1.symm
      | cons c gap =>
        have hc := hgap c (by simp)
        simp only [cons_append, head?_cons, ne_eq, Option.some.injEq]
        rintro rfl
        simp [isBlank_second hb] at hc
    · grind

theorem spares_literalRule {old new : Text} (hold : old.head? = some '<' ∧ Unmarked old)
    (hnew : new.head? = some '<' ∧ Unmarked new) : Spares a b (literalRule old new) := by
  refine spares_of_markup ha hb fun before s out n hrule => ?_
  rw [literalRule, Option.ite_none_right_eq_some, startsWith_iff, Option.some.injEq,
    Prod.mk.injEq] at hrule
  obtain ⟨⟨rest, rfl⟩, rfl, rfl⟩ := hrule
  exact ⟨[], old, [], rest, by simp, by simp, by simp, hold.1, hold.2, hnew.2, .inr hnew.1⟩

theorem spares_blockRule {lead trail : String} {both : Bool} {marks : List String}
    (hlead : lead.toList.head? = some '\n' ∧ Unmarked lead.toList) (htrail : Unmarked trail.toList)
    (hmarks : ∀ mark ∈ marks, mark.toList.head? = some '<' ∧ Unmarked mark.toList) :
    Spares a b (blockRule lead trail both marks) := by
  refine spares_of_markup ha hb fun before s out n hrule => ?_
  rw [blockRule, Option.map_eq_some_iff] at hrule
  obtain ⟨mark, hfind, hout⟩ := hrule
  rw [Prod.mk.injEq] at hout
  obtain ⟨rfl, rfl⟩ := hout
  obtain ⟨hhead, hunmarked⟩ := hmarks mark (mem_of_find?_eq_some hfind)
  obtain ⟨t, ht⟩ := startsWith_iff.mp (by simpa using find?_some hfind)
  rw [drop_run] at ht
  have hs : s = s.takeWhile isBlank ++ mark.toList ++ t := by
    simp [ht]
  have hdrop : s.drop (run isBlank s + mark.length) = t := by
    have hlength : run isBlank s + mark.length = (s.takeWhile isBlank ++ mark.toList).length := by
      rw [length_append, String.length_toList, run]
    rw [hlength]
    nth_rewrite 2 [hs]
    exact drop_left
  obtain ⟨lead', hlead'⟩ := head?_eq_some_iff.mp hlead.1
  have hgap : ∀ c ∈ s.takeWhile isBlank, isBlank c := fun c => mem_takeWhile_imp
  have hwritten : Unmarked (lead.toList ++ mark.toList ++ trail.toList) :=
    (hlead.2.append hunmarked).append htrail
  have hout : (lead.toList ++ mark.toList ++ trail.toList).head? = some '\n' := by
    simp [hlead']
  cases both with
  | false =>
    grind [run, String.length_toList]
  | true =>
    refine ⟨s.takeWhile isBlank, mark.toList, t.takeWhile isBlank, t.dropWhile isBlank, ?_, ?_, ?_,
      hhead, hunmarked, hwritten, .inl hout⟩
    · rw [← append_assoc, append_assoc _ (t.takeWhile _), takeWhile_append_dropWhile, ← hs]
    · rw [hdrop]
      simp [run, Nat.add_assoc, String.length_toList]
    · intro c hc
      rcases mem_append.mp hc with hc | hc <;> exact mem_takeWhile_imp hc

theorem spares_lineBreakRule : Spares a b lineBreakRule := by
  refine spares_of_markup ha hb fun before s out n hrule => ?_
  rw [lineBreakRule, Option.bind_eq_some_iff] at hrule
  obtain ⟨t, ht, hrule⟩ := hrule
  rw [after?_eq_some_iff] at ht
  dsimp only at hrule
  rw [Option.ite_none_right_eq_some, startsWith_iff, drop_run, Option.some.injEq,
    Prod.mk.injEq] at hrule
  obtain ⟨⟨rest, hrest⟩, rfl, rfl⟩ := hrule
  refine ⟨[], "<br".toList ++ t.takeWhile isBlank ++ "/>".toList, [], rest, ?_,
    ?_, by simp, rfl, ?_,
    by decide, .inr rfl⟩
  · rw [nil_append, append_nil, append_assoc, append_assoc, hrest, takeWhile_append_dropWhile, ht]
  · simp [run]
  · exact (Unmarked.append (by decide) (unmarked_takeWhile t)).append (by decide)

/-- The rule for a table in a quotation. -/
theorem spares_quotedTable : Spares a b (fun _ s =>
    let gap := run isBlank s
    if startsWith "<blockquote>\n<table".toList (s.drop gap) then
      some ("\n\n<blockquote><table".toList, gap + 19)
    else none) := by
  refine spares_of_markup ha hb fun before s out n hrule => ?_
  dsimp only at hrule
  rw [Option.ite_none_right_eq_some, startsWith_iff, drop_run, Option.some.injEq,
    Prod.mk.injEq] at hrule
  obtain ⟨⟨rest, hrest⟩, rfl, rfl⟩ := hrule
  refine ⟨s.takeWhile isBlank, "<blockquote>\n<table".toList, [], rest, ?_, ?_, ?_, rfl, by decide,
    by decide, .inl rfl⟩
  · rw [append_nil, append_assoc, hrest, takeWhile_append_dropWhile]
  · simp [run]
  · intro c hc
    rw [append_nil] at hc
    exact mem_takeWhile_imp hc

omit ha hb in
theorem trailingParagraphsFrom_eq_some {n taken k : Nat}
    (h : trailingParagraphsFrom n taken s = some k) :
    ∃ u rest, s = u ++ rest ∧ k = taken + u.length ∧ u ≠ [] ∧
      (∀ c ∈ u, isBlank c ∨ c ∈ "<p>".toList) ∧ (rest = [] ∨ rest = ['\n']) := by
  induction n generalizing taken s with
  | zero => cases h
  | succ n ih =>
    rw [trailingParagraphsFrom, drop_run] at h
    dsimp only at h
    split at h
    · cases h
    · next t ht =>
      rw [after?_eq_some_iff] at ht
      have hs : s = s.takeWhile isBlank ++ "<p>".toList ++ t := by
        rw [append_assoc, ← ht, takeWhile_append_dropWhile]
      have hparagraph : ∀ c ∈ s.takeWhile isBlank ++ "<p>".toList,
          isBlank c ∨ c ∈ "<p>".toList := fun c hc =>
        (mem_append.mp hc).imp_left mem_takeWhile_imp
      split_ifs at h with hrest
      · refine ⟨_, t, hs, ?_, by simp, hparagraph, hrest⟩
        rw [← Option.some.inj h]
        simp [run, Nat.add_assoc]
      · obtain ⟨u, rest, rfl, rfl, hne, hu, hrest⟩ := ih h
        refine ⟨s.takeWhile isBlank ++ "<p>".toList ++ u, rest, ?_, ?_, by simp, ?_, hrest⟩
        · rw [append_assoc, ← hs]
        · simp [run]
          omega
        · grind

theorem spares_trailingParagraphsRule : Spares a b trailingParagraphsRule := by
  have hparts : ∀ {before s out n}, trailingParagraphsRule before s = some (out, n) →
      ∃ u rest, s = u ++ rest ∧ n = u.length ∧ out = [] ∧ u ≠ [] ∧
        (∀ c ∈ u, isBlank c ∨ c ∈ "<p>".toList) ∧ (rest = [] ∨ rest = ['\n']) := by
    intro before s out n h
    rw [trailingParagraphsRule, Option.map_eq_some_iff] at h
    obtain ⟨k, hk, hout⟩ := h
    rw [Prod.mk.injEq] at hout
    obtain ⟨rfl, rfl⟩ := hout
    obtain ⟨u, rest, hs, hlength, h⟩ := trailingParagraphsFrom_eq_some hk
    exact ⟨u, rest, hs, by omega, rfl, h⟩
  constructor
  · intro before s out n h
    obtain ⟨u, rest, rfl, rfl, rfl, hne, hu, -⟩ := hparts h
    refine ⟨u, rest, rfl, hne, rfl, fun hmem => ?_, by simp⟩
    rcases hu a hmem with hblank | hparagraph
    · simp [isBlank_first ha] at hblank
    · grind
  · intro s out n h
    obtain ⟨u, rest, rfl, rfl, rfl, hne, hu, hrest⟩ := hparts h
    constructor
    · obtain ⟨c, u, rfl⟩ := exists_cons_of_ne_nil hne
      rw [cons_append, head?_cons, ne_eq, Option.some.injEq]
      rintro rfl
      rcases hu c mem_cons_self with hblank | hparagraph
      · simp [isBlank_second hb] at hblank
      · grind
    · grind [substituteFrom]

omit ha hb in
theorem hasPair_ifContains {f : Text → Text} (h : ∀ s, HasPair a b (f s) ↔ HasPair a b s)
    (mark : String) (s : Text) : HasPair a b (ifContains mark f s) ↔ HasPair a b s := by
  grind [ifContains]

theorem hasPair_layOutPre (s : Text) : HasPair a b (layOutPre s) ↔ HasPair a b s := by
  rw [layOutPre, Text.replace,
    (spares_literalRule ha hb (by decide) (by decide)).hasPair_substitute,
    Text.replace, (spares_literalRule ha hb (by decide) (by decide)).hasPair_substitute,
    (spares_blockRule ha hb (by decide) (by decide) (by decide)).hasPair_substitute]

theorem hasPair_layOutTable (s : Text) : HasPair a b (layOutTable s) ↔ HasPair a b s := by
  rw [layOutTable, Text.replace,
    (spares_literalRule ha hb (by decide) (by decide)).hasPair_substitute,
    (spares_quotedTable ha hb).hasPair_substitute,
    (spares_blockRule ha hb (by decide) (by decide) (by decide)).hasPair_substitute,
    (spares_blockRule ha hb (by decide) (by decide) (by decide)).hasPair_substitute]

theorem hasPair_layOutParagraphs (s : Text) : HasPair a b (layOutParagraphs s) ↔ HasPair a b s := by
  rw [layOutParagraphs, (spares_trailingParagraphsRule ha hb).hasPair_substitute,
    (spares_blockRule ha hb (by decide) (by decide) (by decide)).hasPair_substitute]

/-- Of the steps that lay out block markup, only the one that deletes ends of paragraphs makes
pairs. -/
theorem hasPair_layOutBlocks (s : Text) :
    HasPair a b (layOutBlocks s) ↔ HasPair a b (replace "</p>".toList [] s) := by
  rw [layOutBlocks, hasPair_ifContains (spares_lineBreakRule ha hb).hasPair_substitute,
    hasPair_ifContains (hasPair_layOutParagraphs ha hb),
    (spares_blockRule ha hb (by decide) (by decide) (by decide)).hasPair_substitute,
    hasPair_ifContains (hasPair_layOutTable ha hb), hasPair_ifContains (hasPair_layOutPre ha hb),
    (spares_blockRule ha hb (by decide) (by decide) (by decide)).hasPair_substitute]

end Layout

end DocGraft.Markup
