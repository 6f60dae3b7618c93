import DocGraft.Proofs.Masking
import DocGraft.Source.Placeholder

/-!
# Where placeholders stand

A placeholder stands between a separator of code and the keyword of the type that it is for. On the
way back from the keyword no comment was met that documents the type. A placeholder on a line of its
own stands after the first line end behind the separator, whatever that line end belongs to: it may
be one of code, but also one inside a comment or a literal. An inline placeholder always stands
between two grains.
-/

namespace DocGraft.Text

variable {p : Char → Bool} {s : Text}

theorem offset?_eq_some {n : Nat} (h : offset? p s = some n) :
    ∃ u c v, s = u ++ c :: v ∧ u.length = n ∧ p c ∧ ∀ d ∈ u, p d = false := by
  induction s generalizing n with
  | nil => simp [offset?] at h
  | cons c s ih =>
    rw [offset?] at h
    by_cases hc : p c
    · rw [if_pos hc, Option.some.injEq] at h
      exact ⟨[], c, s, rfl, h, hc, by simp⟩
    · rw [if_neg hc, Option.map_eq_some_iff] at h
      obtain ⟨m, hm, rfl⟩ := h
      obtain ⟨u, d, v, rfl, hu, hd, hall⟩ := ih hm
      refine ⟨c :: u, d, v, rfl, by simp [hu], hd, ?_⟩
      intro e he
      rcases List.mem_cons.mp he with rfl | he
      · simpa using hc
      · exact hall e he

theorem offset?_eq_none (h : offset? p s = none) : ∀ c ∈ s, p c = false := by
  induction s with
  | nil => simp
  | cons c s ih =>
    rw [offset?] at h
    split_ifs at h with hc
    rw [Option.map_eq_none_iff] at h
    intro d hd
    rcases List.mem_cons.mp hd with rfl | hd
    · simpa using hc
    · exact ih h d hd

theorem slice_eq_of_append {a b c : Text} (h : s = a ++ (b ++ c)) {i j : Nat} (hi : i = a.length)
    (hj : j = i + b.length) : slice s i j = b := by
  subst h hi hj
  simp [slice]

end DocGraft.Text

namespace DocGraft.Source

open List Text

variable {as bs gs : List Grain} {c : Char} {g : Grain} {offset p pos : Nat}
  {place : Nat × Placeholder} {t text : Text} {before : Option Char} {i keyword : Nat} {mark : Mark}
    {places : List (Nat × Placeholder)} {s : Text}

/-! ### Grains at offsets -/

theorem stands_of_grains_eq (h : grains text = as ++ g :: bs) : Stands g (grainText bs) := by
  have hstanding := standing_grains text
  rw [h] at hstanding
  simpa using (standing_append.mp hstanding).2.1

theorem eq_of_grains_eq (h : grains text = as ++ bs) : text = grainText as ++ grainText bs := by
  rw [← grainText_append, ← h, grainText_grains]

/-- The offsets of the characters of code. -/
def codeOffsets (text : Text) : List Nat :=
  (segments text).flatMap fun segment =>
    if segment.region = .code then List.range' segment.start segment.text.length else []

theorem mem_codeOffsets :
    offset ∈ codeOffsets text ↔
      ∃ as c bs, grains text = as ++ (.code, [c]) :: bs ∧ (grainText as).length = offset := by
  rw [codeOffsets, flatMap_segments _ (by simp) (fun pos c s => by simp [range'_succ]), mem_flatMap]
  constructor
  · rintro ⟨segment, hmem, h⟩
    by_cases hcode : segment.region = .code
    · obtain ⟨as, bs, hgs, hstart⟩ := mem_placed.mp hmem
      rw [hcode] at hgs
      obtain ⟨c, hc, -⟩ := stands_code_iff.mp (stands_of_grains_eq hgs)
      grind
    · simp [hcode] at h
  · rintro ⟨as, c, bs, hgs, rfl⟩
    refine ⟨⟨.code, (grainText as).length, [c]⟩, mem_placed.mpr ⟨as, bs, hgs, by simp⟩, ?_⟩
    simp

/-- The grain under a character of the masked text. -/
theorem exists_grain_of_masked (h : Standing gs t) (hc : (gs.flatMap maskGrain)[i]? = some c) :
    ∃ as g bs j, gs = as ++ g :: bs ∧ i = (grainText as).length + j ∧
      (maskGrain g)[j]? = some c := by
  induction gs generalizing i with
  | nil => simp at hc
  | cons g gs ih =>
    have hlen := length_maskGrain h.1
    rw [flatMap_cons] at hc
    by_cases hi : i < (maskGrain g).length
    · rw [getElem?_append_left hi] at hc
      exact ⟨[], g, gs, i, rfl, by simp, hc⟩
    · rw [getElem?_append_right (by omega)] at hc
      obtain ⟨as, g', bs, j, rfl, hj, hc⟩ := ih h.2 hc
      refine ⟨g :: as, g', bs, j, rfl, ?_, hc⟩
      rw [grainText_cons, length_append]
      omega

/-- A character of the masked text that is neither a delimiter nor a blank is code. -/
theorem exists_code_of_masked (hc : (mask text)[i]? = some c)
    (hplain : c ≠ '/' ∧ c ≠ '*' ∧ c ≠ '"' ∧ c ≠ '\'' ∧ c ≠ ' ' ∧ c ≠ '\n') :
    ∃ as bs, grains text = as ++ (.code, [c]) :: bs ∧ (grainText as).length = i := by
  rw [mask_eq] at hc
  obtain ⟨as, ⟨region, w⟩, bs, j, hgs, rfl, hj⟩ := exists_grain_of_masked (standing_grains text) hc
  have hcode : region = .code := by
    by_contra hr
    have hmem := mem_maskGrain (g := (region, w)) hr (mem_of_getElem? hj)
    tauto
  subst hcode
  obtain ⟨d, rfl, -⟩ := stands_code_iff.mp (stands_of_grains_eq hgs)
  rw [maskGrain_code, getElem?_singleton] at hj
  split_ifs at hj with hzero
  obtain rfl := Option.some.inj hj
  exact ⟨as, bs, hgs, by omega⟩

/-! ### Keywords -/

theorem head?_of_typeKeyword? {keyword : String} (h : typeKeyword? before s = some keyword) :
    ∃ c ∈ ['@', 'c', 'i', 'e'], s.head? = some c := by
  rw [typeKeyword?] at h
  split_ifs at h
  have hmem := mem_of_find?_eq_some h
  have hfound := find?_some h
  obtain ⟨rest, hrest, -⟩ := (Option.any_eq_true _ _).mp hfound
  rw [after?_eq_some_iff] at hrest
  simp only [declaringKeywords, mem_cons, not_mem_nil, or_false] at hmem
  rcases hmem with rfl | rfl | rfl | rfl <;> simp [hrest]

theorem exists_of_mem_typeKeywordsFrom {skip : Nat}
    (h : keyword ∈ typeKeywordsFrom pos skip before s) :
    ∃ i, keyword = pos + i ∧ ∃ c ∈ ['@', 'c', 'i', 'e'], s[i]? = some c := by
  induction s generalizing pos skip before with
  | nil => simp [typeKeywordsFrom] at h
  | cons c s ih =>
    have htail : ∀ {skip before}, keyword ∈ typeKeywordsFrom (pos + 1) skip before s →
        ∃ i, keyword = pos + i ∧ ∃ d ∈ ['@', 'c', 'i', 'e'], (c :: s)[i]? = some d := by
      intro skip before h
      obtain ⟨i, hi, hd⟩ := ih h
      exact ⟨i + 1, by omega, by simpa using hd⟩
    cases skip with
    | succ skip => exact htail h
    | zero =>
      rw [typeKeywordsFrom] at h
      split at h
      · next k hk =>
        rcases mem_cons.mp h with rfl | h
        · obtain ⟨d, hd, hhead⟩ := head?_of_typeKeyword? hk
          grind
        · exact htail h
      · exact htail h

/-- The keyword of a type is code. -/
theorem exists_code_of_keyword (h : keyword ∈ typeKeywords (mask text)) :
    ∃ as c bs, grains text = as ++ (.code, [c]) :: bs ∧ (grainText as).length = keyword ∧
      isBlank c = false := by
  obtain ⟨i, rfl, c, hmem, hc⟩ := exists_of_mem_typeKeywordsFrom h
  have hplain : (c ≠ '/' ∧ c ≠ '*' ∧ c ≠ '"' ∧ c ≠ '\'' ∧ c ≠ ' ' ∧ c ≠ '\n') ∧
      isBlank c = false := by
    simp only [mem_cons, not_mem_nil, or_false] at hmem
    rcases hmem with rfl | rfl | rfl | rfl <;> decide
  obtain ⟨as, bs, hgs, hlen⟩ := exists_code_of_masked hc hplain.1
  grind

/-! ### Separators -/

theorem marks_eq (text : Text) :
    (segments text).flatMap (marksOf text) = (placed 0 (grains text)).flatMap (marksOf text) :=
  flatMap_segments (marksOf text) (fun _ => rfl) (fun _ _ _ => rfl) text

/-- A mark tells the offset of its grain, and a mark of code also its character. -/
theorem mem_marksOf (h : Stands g t) (hmark : mark ∈ marksOf text ⟨g.1, pos, g.2⟩) :
    mark.offset = pos ∧ ∀ offset c, mark = .code offset c → g = (.code, [c]) := by
  obtain ⟨region, w⟩ := g
  cases region with
  | code =>
    obtain ⟨d, rfl, -⟩ := stands_code_iff.mp h
    obtain rfl : mark = .code pos d := by simpa [marksOf, codeMarks] using hmark
    exact ⟨rfl, by simp⟩
  | blockComment =>
    simp only [marksOf] at hmark
    split_ifs at hmark
    · obtain rfl := mem_singleton.mp hmark
      exact ⟨rfl, by simp⟩
    · simp at hmark
  | _ => simp [marksOf] at hmark

theorem offset_lt_of_mem_marks (h : Standing gs t)
    (hmark : mark ∈ (placed pos gs).flatMap (marksOf text)) :
    mark.offset < pos + (grainText gs).length := by
  induction gs generalizing pos with
  | nil => simp [placed] at hmark
  | cons g gs ih =>
    have hpos := length_pos_of_ne_nil h.1.ne_nil
    rw [placed, flatMap_cons, mem_append] at hmark
    rw [grainText_cons, length_append]
    rcases hmark with hmark | hmark
    · have := (mem_marksOf h.1 hmark).1
      omega
    · have := ih h.2 hmark
      omega

/-- The marks before a character of code are those of the grains before it. -/
theorem takeWhile_marks (h : grains text = as ++ (.code, [c]) :: bs) :
    ((segments text).flatMap (marksOf text)).takeWhile
        (fun mark => mark.offset < (grainText as).length) =
      (placed 0 as).flatMap (marksOf text) := by
  have hstanding := standing_grains text
  rw [h] at hstanding
  rw [marks_eq, h, placed_append, flatMap_append, placed, flatMap_cons, takeWhile_append_of_pos]
  · simp [marksOf, codeMarks, Mark.offset]
  · intro mark hmark
    have := offset_lt_of_mem_marks (standing_append.mp hstanding).1 hmark
    simpa using this

theorem exists_of_precedentFrom {depth : Nat} {marks : List Mark}
    (h : precedentFrom depth marks = .code offset) :
    ∃ c, .code offset c ∈ marks ∧ (c = ';' ∨ c = '{' ∨ c = '}') := by
  induction marks generalizing depth with
  | nil => simp [precedentFrom] at h
  | cons mark marks ih =>
    have hlater : ∀ {depth}, precedentFrom depth marks = .code offset →
        ∃ c, .code offset c ∈ mark :: marks ∧ (c = ';' ∨ c = '{' ∨ c = '}') := by
      intro depth h
      obtain ⟨c, hmem, hc⟩ := ih h
      exact ⟨c, mem_cons_of_mem _ hmem, hc⟩
    cases mark with
    | comment start documents =>
      grind [precedentFrom]
    | code start c =>
      grind [precedentFrom]

theorem exists_grain_of_codeMark (h : Standing gs t)
    (hmark : .code offset c ∈ (placed 0 gs).flatMap (marksOf text)) :
    ∃ as bs, gs = as ++ (.code, [c]) :: bs ∧ (grainText as).length = offset := by
  obtain ⟨segment, hmem, hin⟩ := mem_flatMap.mp hmark
  obtain ⟨as, bs, rfl, hstart⟩ := mem_placed.mp hmem
  obtain ⟨hoffset, hcode⟩ := mem_marksOf (standing_append.mp h).2.1 hin
  refine ⟨as, bs, by rw [hcode offset c rfl], ?_⟩
  simp only [Mark.offset] at hoffset
  omega

/-! ### The list of placeholders -/

theorem mem_setPlaceholder {p : Nat × Placeholder} (h : p ∈ setPlaceholder place places) :
    p = place ∨ p ∈ places := by
  induction places with
  | nil => exact .inl (mem_singleton.mp h)
  | cons q rest ih =>
    grind [setPlaceholder]

theorem sorted_setPlaceholder (place : Nat × Placeholder) (h : places.Pairwise (·.1 < ·.1)) :
    (setPlaceholder place places).Pairwise (·.1 < ·.1) := by
  induction places with
  | nil => simp [setPlaceholder]
  | cons q rest ih =>
    obtain ⟨hq, hrest⟩ := pairwise_cons.mp h
    rw [setPlaceholder]
    split_ifs with hlt heq
    · refine pairwise_cons.mpr ⟨fun p hp => ?_, h⟩
      rcases mem_cons.mp hp with rfl | hp
      · exact hlt
      · exact hlt.trans (hq p hp)
    · exact pairwise_cons.mpr ⟨fun p hp => heq ▸ hq p hp, hrest⟩
    · refine pairwise_cons.mpr ⟨fun p hp => ?_, ih hrest⟩
      rcases mem_setPlaceholder hp with rfl | hp
      · omega
      · exact hq p hp

/-- Placeholders stand in the order of their places, one at a place. -/
theorem sorted_placeholders (text : Text) : (placeholders text).Pairwise (·.1 < ·.1) := by
  rw [placeholders]
  refine List.foldlRecOn _ _
    (motive := fun places : List (Nat × Placeholder) => places.Pairwise (·.1 < ·.1)) .nil ?_
  intro places h place _
  exact sorted_setPlaceholder place h

/-- Every placeholder is one that a declaration needs. -/
theorem exists_keyword_of_mem (h : place ∈ placeholders text) :
    ∃ keyword ∈ typeKeywords (mask text), placeholderFor? text (mask text)
      ((segments text).flatMap (marksOf text)) keyword = some place := by
  have hfound : ∀ p ∈ placeholders text, p ∈ (typeKeywords (mask text)).filterMap
      (placeholderFor? text (mask text) ((segments text).flatMap (marksOf text))) := by
    rw [placeholders]
    refine List.foldlRecOn _ _ (motive := fun places => ∀ p ∈ places, p ∈ _) (by simp) ?_
    intro places ih q hq p hp
    rcases mem_setPlaceholder hp with rfl | hp
    · exact hq
    · exact ih p hp
  exact mem_filterMap.mp (hfound place h)

/-- A placeholder for a declaration, unless it stands at the beginning of the text, comes after a
separator of code that precedes the keyword of the declaration. -/
theorem exists_separator (h : place ∈ placeholders text) : place = (0, .line) ∨
      ∃ as c bs k cs, grains text = as ++ (.code, [c]) :: (bs ++ (.code, [k]) :: cs) ∧
        (c = ';' ∨ c = '{' ∨ c = '}') ∧ isBlank k = false ∧
        place = placeAfter text (mask text) (grainText as).length
          ((grainText as).length + 1 + (grainText bs).length) := by
  obtain ⟨keyword, hkeyword, hplace⟩ := exists_keyword_of_mem h
  obtain ⟨gs, k, cs, hgs, rfl, hk⟩ := exists_code_of_keyword hkeyword
  rw [placeholderFor?, takeWhile_marks hgs] at hplace
  split at hplace
  · simp at hplace
  · exact .inl (Option.some.inj hplace).symm
  · next offset hprecedent =>
    obtain ⟨c, hmark, hc⟩ := exists_of_precedentFrom hprecedent
    have hstanding := standing_grains text
    rw [hgs] at hstanding
    obtain ⟨as, bs, rfl, rfl⟩ :=
      exists_grain_of_codeMark (standing_append.mp hstanding).1 (mem_reverse.mp hmark)
    refine .inr ⟨as, c, bs, k, cs, by simpa using hgs, hc, hk, ?_⟩
    rw [← Option.some.inj hplace]
    simp [Nat.add_assoc, Nat.add_comm 1]

/-! ### Placeholders on lines of their own -/

/-- A placeholder on a line of its own stands behind the first line end after a separator. -/
theorem exists_lineEnd (h : (p, .line) ∈ placeholders text) (hp : p ≠ 0) :
    ∃ as c bs u v, grains text = as ++ (.code, [c]) :: bs ∧ (c = ';' ∨ c = '{' ∨ c = '}') ∧
      grainText bs = u ++ '\n' :: v ∧ '\n' ∉ u ∧ p = (grainText as).length + 1 + u.length + 1 := by
  rcases exists_separator h with h | ⟨as, c, bs, k, cs, hgs, hc, hk, h⟩
  · exact absurd (congrArg Prod.fst h) hp
  · refine ⟨as, c, bs ++ (.code, [k]) :: cs, ?_⟩
    have hslice : slice text ((grainText as).length + 1)
        ((grainText as).length + 1 + (grainText bs).length) = grainText bs :=
      slice_eq_of_append (a := grainText as ++ [c]) (c := k :: grainText cs)
        (by rw [eq_of_grains_eq hgs]; simp) (by simp) rfl
    rw [placeAfter, hslice] at h
    split at h
    · next n hn =>
      obtain ⟨u, d, v, huv, rfl, hd, hu⟩ := offset?_eq_some hn
      obtain rfl : d = '\n' := by simpa using hd
      refine ⟨u, v ++ k :: grainText cs, hgs, hc, by simp [huv], ?_, ?_⟩
      · intro hmem
        simpa using hu _ hmem
      · grind
    · simp at h

theorem exists_grain_at {u v : Text} (h : grainText gs = u ++ c :: v) :
    ∃ as region w₁ w₂ bs, gs = as ++ (region, w₁ ++ c :: w₂) :: bs ∧ u = grainText as ++ w₁ := by
  induction gs generalizing u with
  | nil => simp at h
  | cons g gs ih =>
    rw [grainText_cons] at h
    rcases append_eq_append_iff.mp h with ⟨u, rfl, hgs⟩ | ⟨w, hg, hw⟩
    · obtain ⟨as, region, w₁, w₂, bs, rfl, rfl⟩ := ih hgs
      exact ⟨g :: as, region, w₁, w₂, bs, rfl, by simp⟩
    · cases w with
      | nil =>
        obtain ⟨as, region, w₁, w₂, bs, rfl, hu⟩ := ih (u := []) hw.symm
        refine ⟨g :: as, region, w₁, w₂, bs, rfl, ?_⟩
        simp [← hu, hg]
      | cons d w =>
        obtain ⟨rfl, rfl⟩ := List.cons.inj hw
        exact ⟨[], g.1, u, w, gs, by simp [← hg], rfl⟩

/-- A placeholder on a line of its own that does not stand behind code stands inside a comment or a
literal, and a separator precedes that on the same line. -/
theorem exists_broken (h : (p, .line) ∈ placeholders text) (hp : p ≠ 0)
    (hcode : p - 1 ∉ codeOffsets text) :
    ∃ as c bs region w₁ w₂ cs,
      grains text = as ++ (.code, [c]) :: (bs ++ (region, w₁ ++ w₂) :: cs) ∧
      (c = ';' ∨ c = '{' ∨ c = '}') ∧ '\n' ∉ grainText bs ∧ region ≠ .code ∧
      w₁.getLast? = some '\n' ∧ p = (grainText as).length + 1 + (grainText bs).length +
        w₁.length := by
  obtain ⟨as, c, bs, u, v, hgs, hc, hbs, hu, rfl⟩ := exists_lineEnd h hp
  obtain ⟨bs, region, w₁, w₂, cs, rfl, rfl⟩ := exists_grain_at hbs
  rw [append_cons w₁] at hgs
  refine ⟨as, c, bs, region, w₁ ++ ['\n'], w₂, cs, hgs, hc,
    fun hmem => hu (mem_append_left _ hmem), ?_, by simp, ?_⟩
  · rintro rfl
    -- A line end of code would be a grain, at the offset before the placeholder.
    have hcut : grains text =
        (as ++ (.code, [c]) :: bs) ++ (.code, w₁ ++ ['\n'] ++ w₂) :: cs := by
      rw [hgs]
      simp
    obtain ⟨d, hd, -⟩ := stands_code_iff.mp (stands_of_grains_eq hcut)
    obtain ⟨rfl, rfl⟩ : w₁ = [] ∧ w₂ = [] := by
      have hlen := congrArg List.length hd
      simp only [length_append, length_singleton] at hlen
      exact ⟨length_eq_zero_iff.mp (by omega), length_eq_zero_iff.mp (by omega)⟩
    refine hcode (mem_codeOffsets.mpr ⟨as ++ (.code, [c]) :: bs, '\n', cs, by simp [hgs], ?_⟩)
    grind [grainText_append, grainText_cons]
  · grind

/-! ### Inline placeholders -/

theorem afterLastOf_spec {needle : Text} (hneedle : needle ≠ []) (s : Text) :
    ¬ needle <:+: afterLastOf needle s ∧
      (afterLastOf needle s = s ∨ ∃ u, s = u ++ needle ++ afterLastOf needle s) := by
  induction s with
  | nil => grind [afterLastOf]
  | cons c s ih =>
    rw [afterLastOf]
    have hpos := length_pos_of_ne_nil hneedle
    by_cases hfound : (afterLastOf needle s).length < s.length
    · rw [if_pos hfound]
      refine ⟨ih.1, .inr ?_⟩
      rcases ih.2 with hall | ⟨u, hu⟩
      · rw [hall] at hfound
        omega
      · grind
    · have hall : afterLastOf needle s = s := by
        refine ih.2.resolve_right ?_
        rintro ⟨u, hu⟩
        grind
      rw [hall] at ih
      rw [if_neg hfound]
      split
      · next tail htail =>
        rw [after?_eq_some_iff] at htail
        refine ⟨fun htl => ih.1 ?_, .inr ⟨[], htail⟩⟩
        obtain ⟨d, rest, rfl⟩ := exists_cons_of_ne_nil hneedle
        grind
      · next hnone =>
        refine ⟨fun hin => ?_, .inl rfl⟩
        rcases infix_cons_iff.mp hin with ⟨rest, hrest⟩ | hin
        · grind [after?_eq_some_iff.mpr hrest.symm]
        · exact ih.1 hin

/-- A slash that closes something in the masked text is the end of a grain, if no line end stands
between it and the next code. -/
theorem maskGrain_slash (h : Stands g t) (ht : t ≠ []) (hnewline : t.head? ≠ some '\n') {j : Nat}
    (hj : (maskGrain g)[j]? = some '/') :
    j + 1 = (maskGrain g).length ∨ ['*', '/'] <:+: (maskGrain g).drop (j + 1) := by
  obtain ⟨region, w⟩ := g
  cases region with
  | code =>
    obtain ⟨c, rfl, -⟩ := stands_code_iff.mp h
    rw [maskGrain_code, getElem?_singleton] at hj
    split_ifs at hj with hzero
    exact .inl (by simp [hzero])
  | lineComment =>
    obtain ⟨u, -, -, hend⟩ := stands_line_iff.mp h
    obtain ⟨c, t, rfl⟩ := exists_cons_of_ne_nil ht
    grind
  | blockComment =>
    obtain ⟨v, rfl, -⟩ := stands_block_closed h ht
    rw [maskGrain_block] at hj ⊢
    match j with
    | 0 => exact .inr ⟨'*' :: blankOut v, [], by simp⟩
    | 1 => simp at hj
    | j + 2 =>
      rw [getElem?_cons_succ, getElem?_cons_succ] at hj
      rcases Nat.lt_or_ge j (blankOut v).length with hlt | hge
      · rw [getElem?_append_left hlt] at hj
        simpa using mem_blankOut (mem_of_getElem? hj)
      · grind
  | _ => exact absurd (mem_of_getElem? hj) (slash_notMem_maskGrain (by simp) (by simp) (by simp))

/-- What follows the last closing in the masked text of grains is the masked text of some of
them. -/
theorem exists_afterLastOf_eq (h : Standing gs t) (ht : t ≠ []) (hnewline : '\n' ∉ grainText gs)
    (hhead : t.head? ≠ some '\n') :
    ∃ hs ks, gs = hs ++ ks ∧
      afterLastOf ['*', '/'] (gs.flatMap maskGrain) = ks.flatMap maskGrain := by
  obtain ⟨hlast, hall | ⟨u, hu⟩⟩ := afterLastOf_spec (cons_ne_nil '*' ['/'])
    (gs.flatMap maskGrain)
  · exact ⟨[], gs, rfl, hall⟩
  set rest := afterLastOf ['*', '/'] (gs.flatMap maskGrain)
  have hslash : (gs.flatMap maskGrain)[u.length + 1]? = some '/' := by
    grind
  obtain ⟨as, g, bs, j, rfl, hj, hg⟩ := exists_grain_of_masked h hslash
  obtain ⟨has, hstands, hbs⟩ := standing_append.mp h
  have hlen := length_flatMap_maskGrain has
  have hafter : (grainText bs ++ t).head? ≠ some '\n' := by
    intro hn
    rw [List.head?_append, Option.or_eq_some_iff] at hn
    rcases hn with hn | ⟨-, hn⟩
    · exact hnewline (by simp [mem_of_head? hn])
    · exact hhead hn
  -- The slash is the end of its grain, since otherwise another closing would follow it.
  have hdrop : (maskGrain g).drop (j + 1) ++ bs.flatMap maskGrain = rest := by
    have hsplit : (as.flatMap maskGrain ++ (maskGrain g).take (j + 1)) ++
        ((maskGrain g).drop (j + 1) ++ bs.flatMap maskGrain) = (u ++ ['*', '/']) ++ rest := by
      simp [← hu, ← append_assoc (List.take _ _)]
    refine append_inj_right hsplit ?_
    grind
  have hend : j + 1 = (maskGrain g).length := by
    refine (maskGrain_slash hstands (by simp [ht]) hafter hg).resolve_right fun hin => hlast ?_
    grind
  refine ⟨as ++ [g], bs, by simp, ?_⟩
  grind

theorem Stands.eq_code_of_isBlank (h : Stands g t) {w : Text} (hg : g.2 = c :: w) (hc : isBlank c) :
    g = (.code, [c]) := by
  obtain ⟨region, v⟩ := g
  obtain rfl : v = c :: w := hg
  by_cases hr : region = .code
  · subst hr
    obtain ⟨d, hd, -⟩ := stands_code_iff.mp h
    grind
  · obtain ⟨d, s, hd⟩ := exists_cons_of_ne_nil (Region.opening_ne_nil hr)
    obtain ⟨r, hopening⟩ := h.opening_isPrefix
    obtain rfl : d = c := by grind
    have hblank := Region.isBlank_of_mem (show d ∈ region.opening ++ region.closing by simp [hd])
    simp [hc] at hblank

/-- The blanks at the beginning of grains are grains. -/
theorem exists_run_isBlank (h : Standing gs t) :
    ∃ hs ks, gs = hs ++ ks ∧ (grainText hs).length = run isBlank (grainText gs) ∧
      ∀ g ∈ ks.head?, ∃ c w, g.2 = c :: w ∧ isBlank c = false := by
  induction gs with
  | nil => exact ⟨[], [], rfl, rfl, by simp⟩
  | cons g gs ih =>
    obtain ⟨c, w, hg⟩ := exists_cons_of_ne_nil h.1.ne_nil
    by_cases hc : isBlank c
    · obtain rfl := h.1.eq_code_of_isBlank hg hc
      obtain ⟨hs, ks, rfl, hlen, hhead⟩ := ih h.2
      refine ⟨(.code, [c]) :: hs, ks, rfl, ?_, hhead⟩
      simp [run, hlen, takeWhile_cons_of_pos hc]
    · refine ⟨[], g :: gs, rfl, ?_, ?_⟩
      · simp [run, hg, takeWhile_cons_of_neg hc]
      · grind

/-- An inline placeholder stands right before a grain that is no block comment and does not begin
with a blank. -/
theorem exists_inline (h : (p, .inline) ∈ placeholders text) :
    ∃ as g bs, grains text = as ++ g :: bs ∧ (grainText as).length = p ∧
      g.1 ≠ .blockComment ∧ ∃ c w, g.2 = c :: w ∧ isBlank c = false := by
  rcases exists_separator h with h | ⟨as, c, bs, k, cs, hgs, -, hk, h⟩
  · simp at h
  obtain ⟨has, -, hrest⟩ := standing_append.mp (hgs ▸ standing_grains text)
  obtain ⟨hbs, -⟩ := standing_append.mp hrest
  have hlen := length_flatMap_maskGrain has
  have hlen' := length_flatMap_maskGrain hbs
  have hmasked : slice (mask text) ((grainText as).length + 1)
      ((grainText as).length + 1 + (grainText bs).length) = bs.flatMap maskGrain :=
    slice_eq_of_append (a := as.flatMap maskGrain ++ [c]) (c := k :: cs.flatMap maskGrain)
      (by rw [mask_eq, hgs]; simp) (by simp [hlen]) (by omega)
  have htext : ∀ hs ks, bs = hs ++ ks → slice text
      ((grainText as).length + 1 + (grainText hs).length)
      ((grainText as).length + 1 + (grainText bs).length) = grainText ks := by
    rintro hs ks rfl
    refine slice_eq_of_append (a := grainText as ++ [c] ++ grainText hs)
      (c := k :: grainText cs) ?_ ?_ ?_
    · rw [eq_of_grains_eq hgs]
      simp
    · simp only [length_append, length_singleton]
    · rw [grainText_append, length_append]
      omega
  have hbefore := htext [] bs rfl
  rw [grainText_nil, length_nil, Nat.add_zero] at hbefore
  rw [placeAfter, hbefore, hmasked] at h
  split at h
  · simp at h
  next hnone =>
  have hnewline : '\n' ∉ grainText bs := fun hmem => by
    simpa using offset?_eq_none hnone _ hmem
  have hk' : k ≠ '\n' := by
    rintro rfl
    exact absurd hk (by decide)
  obtain ⟨hs, ks, rfl, hks⟩ := exists_afterLastOf_eq hbs (by simp) hnewline (by simpa using hk')
  have hlast := (afterLastOf_spec (cons_ne_nil '*' ['/']) ((hs ++ ks).flatMap maskGrain)).1
  have hstart : (grainText as).length + 1 + (grainText (hs ++ ks)).length -
      (ks.flatMap maskGrain).length = (grainText as).length + 1 + (grainText hs).length := by
    rw [length_flatMap_maskGrain (standing_append.mp hbs).2, grainText_append, length_append]
    omega
  obtain ⟨ls, ms, rfl, hrun, hhead⟩ := exists_run_isBlank (standing_append.mp hbs).2
  rw [show "*/".toList = ['*', '/'] from rfl, hks] at h
  simp only [hstart, htext hs (ls ++ ms) rfl, ← hrun] at h
  obtain rfl : p = _ := congrArg Prod.fst h
  cases ms with
  | nil =>
    refine ⟨as ++ (.code, [c]) :: (hs ++ ls), (.code, [k]), cs, by simp [hgs], ?_, by simp,
      k, [], rfl, hk⟩
    grind [grainText_append, grainText_cons]
  | cons g ms =>
    refine ⟨as ++ (.code, [c]) :: (hs ++ ls), g, ms ++ (.code, [k]) :: cs, by simp [hgs], ?_, ?_,
      hhead g rfl⟩
    · grind [grainText_append, grainText_cons]
    · -- A block comment here would have a closing of its own.
      intro hblock
      obtain ⟨region, w⟩ := g
      obtain rfl : region = .blockComment := hblock
      have hstands := (standing_append.mp (standing_append.mp hbs).2).2.1
      obtain ⟨v, rfl, -⟩ := stands_block_closed hstands (by simp)
      refine hlast (hks ▸ ?_)
      rw [flatMap_append, flatMap_cons, maskGrain_block]
      exact ⟨ls.flatMap maskGrain ++ '/' :: '*' :: blankOut v, ms.flatMap maskGrain, by simp⟩

end DocGraft.Source
