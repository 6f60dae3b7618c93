import DocGraft.Proofs.ScopeResolution

/-!
# Pieces of a declaration in a source

The annotations of a declaration stand before it, among its modifiers and before its parameters. In
a source their argument lists can hold strings and characters, of which the masked text shows the
delimiters. The scans for types, for braces and for comments pass over them, and the end of a
declaration is found without regard to annotations.
-/

/-! ## Scans past annotations -/

namespace DocGraft.Signature

open List Text Declaration Source

variable {w : Text}

/-! ### Skipping annotations -/

theorem argumentsTail?_flatten (inner : Bool) (s : Text) :
    argumentsTail? inner (flatten s) = argumentsTail? inner s := by
  have hparen : ∀ c d : Char, d = '(' ∨ d = ')' →
      ((if c = '\r' ∨ c = '\n' ∨ c = '\t' then ' ' else c) = d ↔ c = d) := by
    intro c d hd
    grind
  induction s generalizing inner with
  | nil => rfl
  | cons c s ih =>
    have hopen := hparen c '(' (.inl rfl)
    have hclose := hparen c ')' (.inr rfl)
    rw [flatten, map_cons]
    cases inner with
    | true => simp only [argumentsTail?, hopen, hclose, ne_eq, ← ih, flatten]
    | false => simp only [argumentsTail?, hopen, hclose, ← ih, flatten]

theorem argumentsLength?_text (arguments : ArgumentList) (s : Text) :
    argumentsLength? (arguments.text ++ s) = some arguments.text.length := by
  have hflat : argumentsLength? (flatten (arguments.text ++ s)) =
      argumentsLength? (arguments.text ++ s) := by
    have hcons : ∀ t : Text, flatten ('(' :: t) = '(' :: flatten t := fun _ => rfl
    simp [ArgumentList.text, hcons, argumentsLength?, argumentsTail?_flatten]
  rw [← hflat, Declaration.flatten_append]
  exact arguments.argumentsLength? _

theorem argumentsLength?_of_ne {c : Char} (hc : c ≠ '(') (s : Text) :
    argumentsLength? (c :: s) = none := by
  unfold argumentsLength?
  grind

theorem run_blank_append (hw : ∀ c ∈ w, isBlank c) (s : Text) :
    run isBlank (w ++ s) = w.length + run isBlank s := by
  rw [run, run, takeWhile_append_of_pos hw, length_append]

theorem annotationsLengthFrom_blank (hw : ∀ c ∈ w, isBlank c) (fuel : Nat) (s : Text) :
    annotationsLengthFrom (fuel + 1) (w ++ s) = w.length + annotationsLengthFrom (fuel + 1) s := by
  have hdrop : ∀ n, (w ++ s).drop (w.length + n) = s.drop n := fun n => by
    rw [drop_length_add_append]
  rw [annotationsLengthFrom, annotationsLengthFrom]
  simp only [run_blank_append hw, hdrop, Nat.add_assoc]
  split
  · rfl
  · rfl

/-- An annotation is skipped with the white space behind it. -/
theorem annotationsLengthFrom_of_some {t : Text} {n : Nat} (h : annotationLength? t = some n)
    (fuel : Nat) : annotationsLengthFrom (fuel + 2) t =
      n + annotationsLengthFrom (fuel + 1) (t.drop n) := by
  obtain ⟨k, hname, hread⟩ := Option.map_eq_some_iff.mp h
  have hat : run isBlank t = 0 := by
    unfold annotationName? at hname
    split at hname
    · rw [run, takeWhile_cons_of_neg (by decide)]
      rfl
    · cases hname
  rw [annotationsLengthFrom, hat, drop_zero, hname]
  dsimp only at hread ⊢
  rw [Nat.zero_add]
  split at hread
  · next m hm =>
    rw [hm, Option.getD_some, hread]
  · next hnone =>
    -- The white space behind the name is skipped with it.
    have hblank := annotationsLengthFrom_blank (w := (t.drop k).takeWhile isBlank)
      (fun c hc => mem_takeWhile_imp hc) fuel ((t.drop k).dropWhile isBlank)
    rw [takeWhile_append_dropWhile, ← drop_run, ← run] at hblank
    rw [hnone, Option.getD_none, ← hread, hblank, Nat.add_zero, drop_drop, Nat.add_assoc]

/-- An annotation is skipped, if what follows is not taken for a part of it. -/
theorem annotationsLengthFrom_annotation (a : AnnotationUse) (fuel : Nat) {s : Text}
    (hs : a.arguments = none → (∀ c ∈ s.head?, isAnnotationChar c = false) ∧
      argumentsLength? (s.drop (run isBlank s)) = none) :
    annotationsLengthFrom (fuel + 2) (a.text ++ s) =
      a.text.length + annotationsLengthFrom (fuel + 1) s := by
  have hread : annotationLength? (a.text ++ s) = some a.text.length := by
    obtain ⟨name, gap, blank, arguments, hgap⟩ := a
    cases arguments with
    | none =>
      obtain rfl := hgap rfl
      simpa [AnnotationUse.text] using name.annotationLength?_name (hs rfl)
    | some arguments =>
      simpa [AnnotationUse.text] using
        name.annotationLength?_arguments blank rfl (argumentsLength?_text arguments s)
  rw [annotationsLengthFrom_of_some hread, drop_left]

end DocGraft.Signature

namespace DocGraft.Declaration

open List Text Signature Source TypeTree

/-- Whether a piece can stand before the first token. -/
def Piece.isLeading : Piece → Bool
  | item (.token _) => false
  | _ => true

/-- Annotations and white space `lead` stand before a text that is no part of them. -/
structure Precede (lead : List Piece) (s : Text) : Prop where
  leading : ∀ p ∈ lead, p.isLeading
  first : ∃ c t, s = c :: t ∧ isBlank c = false ∧ c ≠ '('
  unnamed : annotationName? s = none
  last : ∀ a, lead.getLast? = some (.item (.annotationUse a)) → a.arguments = none →
    ∀ c ∈ s.head?, isAnnotationChar c = false

namespace Precede

variable {lead : List Piece} {s : Text}

theorem tail {p : Piece} (h : Precede (p :: lead) s) : Precede lead s := by
  refine ⟨fun q hq => h.leading q (mem_cons_of_mem p hq), h.first, h.unnamed, fun a ha => ?_⟩
  refine h.last a ?_
  cases lead with
  | nil => cases ha
  | cons q lead => rwa [getLast?_cons_cons]

/-- Behind white space the text or another annotation begins. -/
theorem exists_first (h : Precede lead s) :
    ∃ w c t, spelling lead ++ s = w ++ c :: t ∧ (∀ d ∈ w, isBlank d) ∧ isBlank c = false ∧
      c ≠ '(' := by
  induction lead with
  | nil =>
    obtain ⟨c, t, hs, hc⟩ := h.first
    exact ⟨[], c, t, hs, by simp, hc⟩
  | cons p lead ih =>
    rw [spelling_cons, append_assoc]
    rcases p with ⟨d, mem⟩ | ⟨a | t⟩
    · obtain ⟨w, c, t, hs, hw, hc⟩ := ih h.tail
      exact ⟨d :: w, c, t, by rw [hs]; rfl,
        forall_mem_cons.mpr ⟨isBlank_of_mem_gap mem, hw⟩, hc⟩
    · exact ⟨[], '@', _, rfl, by simp, by decide, by decide⟩
    · cases h.leading _ mem_cons_self

/-- An annotation without arguments is not continued by what follows it. -/
theorem ends_annotation {a : AnnotationUse} (h : Precede (.item (.annotationUse a) :: lead) s)
    (ha : a.arguments = none) :
    (∀ c ∈ (spelling lead ++ s).head?, isAnnotationChar c = false) ∧
      argumentsLength? ((spelling lead ++ s).drop (run isBlank (spelling lead ++ s))) = none := by
  refine ⟨?_, ?_⟩
  · cases lead with
    | nil => exact h.last a rfl ha
    | cons p lead =>
      have hall : (gapCharacters.all fun c => !isAnnotationChar c) = true := by decide
      rcases p with ⟨d, mem⟩ | ⟨b | t⟩
      · rintro c ⟨⟩
        simpa using all_eq_true.mp hall d mem
      · rintro c ⟨⟩
        decide
      · cases h.tail.leading _ mem_cons_self
  · obtain ⟨w, c, t, hs, hw, hblank, hparen⟩ := h.tail.exists_first
    have hrun : run isBlank (w ++ c :: t) = w.length := by
      rw [run_blank_append hw, run, takeWhile_cons_of_neg (by simp [hblank])]
      rfl
    rw [hs, hrun, drop_left]
    exact argumentsLength?_of_ne hparen t

theorem annotationsLengthFrom (h : Precede lead s) {fuel : Nat} (hfuel : lead.length < fuel) :
    annotationsLengthFrom fuel (spelling lead ++ s) = (spelling lead).length := by
  induction lead generalizing fuel with
  | nil =>
    obtain ⟨fuel, rfl⟩ : ∃ n, fuel = n + 1 := ⟨fuel - 1, by simp at hfuel; omega⟩
    obtain ⟨c, t, rfl, hblank, -⟩ := h.first
    have hrun : run isBlank (c :: t) = 0 := by
      rw [run, takeWhile_cons_of_neg (by simp [hblank])]
      rfl
    have hnil : spelling [] ++ c :: t = c :: t := rfl
    rw [hnil, Signature.annotationsLengthFrom]
    simp only [hrun, drop_zero, h.unnamed]
    rfl
  | cons p lead ih =>
    rw [length_cons] at hfuel
    obtain ⟨fuel, rfl⟩ : ∃ n, fuel = n + 2 := ⟨fuel - 2, by omega⟩
    rw [spelling_cons, append_assoc, length_append]
    rcases p with ⟨c, mem⟩ | ⟨a | t⟩
    · have hblank : ∀ d ∈ [c], isBlank d := by simpa using isBlank_of_mem_gap mem
      rw [Piece.text, annotationsLengthFrom_blank hblank, ih h.tail (by omega)]
    · rw [Piece.text, Item.text, annotationsLengthFrom_annotation a fuel h.ends_annotation,
        ih h.tail (by omega)]
    · cases h.leading _ mem_cons_self

theorem annotationsLength (h : Precede lead s) {w : Text} (hw : ∀ c ∈ w, isBlank c) :
    annotationsLength ((w ++ spelling lead) ++ s) = (w ++ spelling lead).length := by
  have hlength : ∀ pieces : List Piece, pieces.length ≤ (spelling pieces).length := by
    intro pieces
    induction pieces with
    | nil => exact Nat.le_refl _
    | cons p pieces ih =>
      have hp : p.text ≠ [] := by
        rcases p with ⟨c, mem⟩ | ⟨a | u⟩
        · exact cons_ne_nil _ _
        · exact cons_ne_nil _ _
        · exact u.text_ne_nil
      have hpos := length_pos_iff.mpr hp
      grind [spelling_cons]
  obtain ⟨c, t, rfl, -⟩ := h.first
  obtain ⟨fuel, hfuel⟩ : ∃ n, (w ++ (spelling lead ++ c :: t)).length = n + 1 :=
    Nat.exists_eq_succ_of_ne_zero (by simp)
  have hless : lead.length < fuel + 1 := by
    grind
  simp [Signature.annotationsLength, hfuel, annotationsLengthFrom_blank hw, h.annotationsLengthFrom
    hless]

end Precede

/-- Annotations and white space stand before a first token, if it is told apart from them and does
not look like an annotation before `rest`. -/
theorem precede_token {lead : List Piece} {t : Declaration.Token} (hlead : ∀ p ∈ lead, p.isLeading)
    (hfresh : (Item.token t).isFresh)
    (hapart : (lead ++ [Piece.item (.token t)]).IsChain fun p q => p.apart q) {rest : Text}
    (hname : annotationName? (t.text ++ rest) = none) : Precede lead (t.text ++ rest) := by
  obtain ⟨c, v, hv, hc⟩ := Item.exists_cons_of_isFresh hfresh
  have hv : t.text = c :: v := hv
  have hparen : c ≠ '(' := by
    rintro rfl
    exact absurd hc (by decide)
  refine ⟨hlead, ⟨c, v ++ rest, by rw [hv]; rfl, (flatten_cons_of_fresh hc v).1, hparen⟩, hname,
    fun a ha harguments => ?_⟩
  have hbegins : t.beginsWord = false := by
    have h := (isChain_append.mp hapart).2.2 _ ha _ rfl
    simpa [Piece.apart, Item.endsWord, Item.beginsWord, harguments] using h
  have hword := t.head_of_not_beginsWord hbegins c (by rw [hv]; rfl)
  rw [hv]
  rintro d ⟨⟩
  rcases hc with hc | rfl | rfl
  · exact absurd hc (by simp [hword])
  · decide
  · decide

end DocGraft.Declaration

namespace DocGraft.Source

open List Text Signature

variable {gs : List Grain} {s t : Text}

/-! ### Masked argument lists -/

theorem typeKeyword?_append (hs : s.getLast? = some ')') (before : Option Char) (t : Text) :
    typeKeyword? before (s ++ t) = typeKeyword? before s := by
  have hany : ∀ keyword : Text, ')' ∉ keyword →
      ((after? keyword (s ++ t)).any fun rest => rest.head?.any isBlank) =
        (after? keyword s).any fun rest => rest.head?.any isBlank := by
    intro keyword hkeyword
    induction s generalizing keyword with
    | nil => simp at hs
    | cons c s ih =>
      cases keyword with
      | nil => rfl
      | cons d keyword =>
        rw [mem_cons, not_or] at hkeyword
        by_cases hcd : d = c
        · subst hcd
          grind [after?]
        · simp [after?, hcd]
  have hall : (declaringKeywords.all fun keyword => !keyword.toList.contains ')') =
      true := by decide
  rw [typeKeyword?, typeKeyword?]
  split_ifs
  · rfl
  · refine find?_congr fun keyword hmem => ?_
    grind

/-- A text that ends with a parenthesis and in which no type is declared declares none before any
text. -/
theorem exists_typeKeywordsFrom_append (hs : s.getLast? = some ')') {before : Option Char}
    {pos : Nat} (h : typeKeywordsFrom pos 0 before s = []) (pos' : Nat) (t : Text) :
    typeKeywordsFrom pos' 0 before (s ++ t) =
      typeKeywordsFrom (pos' + s.length) 0 (some ')') t := by
  induction s generalizing before pos pos' with
  | nil => simp at hs
  | cons c s ih =>
    have happend := typeKeyword?_append hs before t
    cases hkey : typeKeyword? before (c :: s) with
    | some keyword =>
      rw [typeKeywordsFrom, hkey] at h
      simp at h
    | none =>
      rw [typeKeywordsFrom_of_none hkey] at h
      rw [cons_append, typeKeywordsFrom_of_none (by rw [← cons_append, happend, hkey])]
      cases s with
      | nil =>
        obtain rfl : c = ')' := Option.some.inj hs
        rfl
      | cons d s =>
        rw [getLast?_cons_cons] at hs
        rw [ih hs h, length_cons, length_cons, length_cons]
        congr 1
        omega

/-- A masked argument list in which no type is declared is passed over. -/
theorem Keyless.arguments {u s : Text} (hs : Keyless s)
    (h : typeKeywords ('(' :: (u ++ [')'])) = []) : Keyless ('(' :: (u ++ [')']) ++ s) := by
  intro pos before t ht
  have hlast : ('(' :: (u ++ [')'])).getLast? = some ')' := by
    rw [← cons_append, getLast?_concat]
  have hnone : ∀ before s, typeKeyword? before ('(' :: s) = none :=
    typeKeyword?_mark (by decide) (by decide)
  have hbefore : typeKeywordsFrom 0 0 before ('(' :: (u ++ [')'])) = [] := by
    grind [typeKeywords, typeKeywordsFrom_of_none (hnone _ _)]
  obtain ⟨b, hb⟩ := hs (pos + ('(' :: (u ++ [')'])).length) (some ')') t ht
  refine ⟨b, ?_⟩
  rw [append_assoc, exists_typeKeywordsFrom_append hlast hbefore, hb, length_append, Nat.add_assoc]

/-- Braces match where a further brace is the first that is closed without having been opened. -/
theorem balanced_of_braceEndFrom (h : braceEndFrom 0 1 true (s ++ ['}']) = some (s.length + 1)) :
    Balanced s := by
  have hdepth : ∀ (s : Text) (pos : Nat) (k : Int), 0 < k →
      braceEndFrom pos k true (s ++ ['}']) = some (pos + s.length + 1) →
      ∀ pos' (d : Int) t, 0 ≤ d → braceEndFrom pos' (k + d) true (s ++ t) =
        braceEndFrom (pos' + s.length) (1 + d) true t := by
    intro s
    induction s with
    | nil =>
      intro pos k hk hend pos' d t hd
      obtain rfl : k = 1 := by
        by_contra hne
        rw [nil_append, braceEndFrom, if_neg (by decide), if_pos rfl,
          if_neg (by simp; omega)] at hend
        cases hend
      rfl
    | cons c s ih =>
      intro pos k hk hend pos' d t hd
      have hlength : ∀ n : Nat, n + 1 + s.length = n + (c :: s).length := fun n => by
        rw [length_cons]
        omega
      rw [cons_append, braceEndFrom, ← hlength] at hend
      rw [cons_append, braceEndFrom, ← hlength]
      by_cases hopen : c = '{'
      · rw [if_pos hopen] at hend ⊢
        rw [add_right_comm, ih _ _ (by omega) hend _ _ _ hd]
      · rw [if_neg hopen] at hend ⊢
        by_cases hclose : c = '}'
        · rw [if_pos hclose] at hend ⊢
          -- The brace that it closes has been opened in the text.
          have hne : k - 1 ≠ 0 := by
            intro hzero
            grind
          rw [if_neg (by simpa using hne)] at hend
          grind [ih _ _ (by omega) hend _ _ _ hd]
        · grind
  intro pos depth t hpos
  have hone := hdepth s 0 1 (by omega) (by simpa using h) pos (depth - 1) t (by omega)
  simpa using hone

/-- The masked text shows neither slashes nor stars of literals. -/
theorem notMem_maskGrain {g : Grain} (hcode : g.1 ≠ .code) (hcomment : g.1.isComment = false)
    {c : Char} (hc : c = '/' ∨ c = '*') : c ∉ maskGrain g := by
  intro h
  obtain ⟨region, w⟩ := g
  cases region with
  | code => exact hcode rfl
  | lineComment => cases hcomment
  | blockComment => cases hcomment
  | _ =>
    have hmem := mem_blankBetween h
    rcases hc with rfl | rfl <;> simp at hmem

/-- What the masked text shows of grains without comments opens no comment. -/
theorem isChain_maskText (h : Standing gs t) (hcomment : ∀ g ∈ gs, g.1.isComment = false) :
    (maskText gs).IsChain fun c d => c = '/' → d ≠ '*' ∧ d ≠ '/' := by
  induction gs with
  | nil => exact .nil
  | cons g gs ih =>
    obtain ⟨hg, hgs⟩ := forall_mem_cons.mp hcomment
    have hrest := ih h.2 hgs
    obtain ⟨region, w⟩ := g
    by_cases hcode : region = .code
    · subst hcode
      obtain ⟨c, rfl, hc⟩ := stands_code_iff.mp h.1
      rw [maskText_cons, maskGrain_code, singleton_append, isChain_cons]
      refine ⟨fun d hd hslash => ?_, hrest⟩
      have hnext := (regionAt_eq_code_iff.mp hc).2.2 hslash
      cases gs with
      | nil => simp at hd
      | cons g' gs =>
        obtain ⟨region', w'⟩ := g'
        by_cases hcode' : region' = .code
        · subst hcode'
          obtain ⟨e, rfl, -⟩ := stands_code_iff.mp h.2.1
          obtain rfl : e = d := by simpa using hd
          simpa using hnext
        · -- A literal begins with its quotes.
          have hne : maskGrain (region', w') ≠ [] := by
            rw [← length_pos_iff, length_maskGrain h.2.1, length_pos_iff]
            exact h.2.1.ne_nil
          have hmem : d ∈ maskGrain (region', w') := by
            grind [maskText_cons, head?_append_of_ne_nil _ hne]
          have hliteral := (forall_mem_cons.mp hgs).1
          exact ⟨fun heq => notMem_maskGrain hcode' hliteral (.inr heq) hmem,
            fun heq => notMem_maskGrain hcode' hliteral (.inl heq) hmem⟩
    · have hslash : '/' ∉ maskGrain (region, w) := notMem_maskGrain hcode hg (.inl rfl)
      rw [maskText_cons, isChain_append]
      refine ⟨(uncommented_of_notMem hslash).chain, hrest, fun c hc d _ heq => ?_⟩
      grind

/-- Grains whose masked text ends with a parenthesis end with a parenthesis of code. -/
theorem exists_concat_of_maskText (h : Standing gs t) (hlast : (maskText gs).getLast? = some ')') :
    ∃ as, gs = as ++ [(.code, [')'])] := by
  rcases eq_nil_or_concat gs with rfl | ⟨as, g, rfl⟩
  · simp at hlast
  · rw [concat_eq_append] at h hlast ⊢
    have hstands := (standing_append.mp h).2.1
    have hne : maskGrain g ≠ [] := by
      rw [← length_pos_iff, length_maskGrain hstands, length_pos_iff]
      exact hstands.ne_nil
    rw [maskText_append, maskText_cons, maskText_nil, append_nil,
      getLast?_append_of_ne_nil _ hne] at hlast
    obtain ⟨region, w⟩ := g
    by_cases hcode : region = .code
    · subst hcode
      obtain ⟨c, rfl, -⟩ := stands_code_iff.mp hstands
      obtain rfl : c = ')' := by simpa using hlast
      exact ⟨as, rfl⟩
    · have hmarks := mem_maskGrain hcode (mem_of_getLast? hlast)
      exact absurd hmarks (by decide)

/-- A text whose masked text ends with a parenthesis is read as such before any text. -/
theorem standing_of_getLast? (h : (mask s).getLast? = some ')') (t : Text) :
    Standing (grains s) t := by
  have hstanding := standing_grains s
  rw [mask_eq] at h
  obtain ⟨as, has⟩ := exists_concat_of_maskText hstanding h
  rw [has] at hstanding ⊢
  exact standing_append.mpr ⟨(standing_append.mp hstanding).1.congr rfl,
    (bare_singleton (by decide)).standing t⟩

/-- A text is made of its words and marks. -/
theorem codeText_of_words {marks : List Char} {avoided : List Text}
    (hmarks : ∀ c ∈ s, isWord c ∨ c ∈ marks)
    (hwords : ∀ w ∈ s.splitOnP fun c => !isWord c, w ∉ avoided) : CodeText marks avoided s := by
  induction hn : s.length using Nat.strong_induction_on generalizing s with
  | _ n ih =>
    obtain ⟨w, r, rfl, hw, hr⟩ : ∃ w r : Text, s = w ++ r ∧ (∀ c ∈ w, isWord c) ∧
        ∀ c ∈ r.head?, isWord c = false :=
      ⟨s.takeWhile isWord, s.dropWhile isWord, takeWhile_append_dropWhile.symm,
        fun c hc => mem_takeWhile_imp hc, fun c hc => by
          have hnot := head?_dropWhile_not isWord s
          grind⟩
    have hinside : ∀ c ∈ w, (!isWord c) = false := fun c hc => by simp [hw c hc]
    -- The first word, and the words and marks behind it.
    obtain ⟨hfirst, hrest⟩ : w ∉ avoided ∧ CodeText marks avoided r := by
      cases r with
      | nil =>
        rw [append_nil, splitOnP_eq_singleton hinside] at hwords
        exact ⟨hwords w (mem_singleton_self w), .nil⟩
      | cons c r =>
        have hc : isWord c = false := hr c rfl
        rw [splitOnP_append_cons_of_forall_mem hinside c (by simp [hc])] at hwords
        have hmark : c ∈ marks :=
          (hmarks c (by simp)).resolve_left (by simp [hc])
        refine ⟨hwords w mem_cons_self, .mark hmark (ih r.length ?_ ?_ ?_ rfl)⟩
        · grind
        · exact fun d hd => hmarks d (by simp [hd])
        · grind
    by_cases hne : w = []
    · rwa [hne]
    · exact .word ⟨hne, hw⟩ hfirst hr hrest

end DocGraft.Source

/-! ## Pieces of a declaration in a source -/

namespace DocGraft.Declaration

open List Text Signature Source

variable {s : Text}

/-! ### Annotations in a source -/

/-- The argument list of an annotation as it stands in a source. -/
structure SourceArguments where
  /-- The text with its parentheses. -/
  text : Text
  uncommented : ∀ g ∈ grains text, g.1.isComment = false
  /-- What the masked text shows of it. -/
  masked : ArgumentList
  mask_eq : mask text = masked.text
  typeless : typeKeywords masked.text = []
  closed : braceEndFrom 0 1 true (masked.text ++ ['}']) = some (masked.text.length + 1)

/-- Whether nothing in an argument list ends a declaration. -/
def SourceArguments.isUnending (arguments : SourceArguments) : Bool :=
  arguments.masked.text.all (· ∉ declarationEnds) &&
    !(arguments.masked.text.splitOnP fun c => !isWord c).contains "throws".toList

theorem SourceArguments.of_isUnending (arguments : SourceArguments) (h : arguments.isUnending) :
    (∀ c ∈ arguments.masked.text, c ∉ declarationEnds) ∧
      "throws".toList ∉ arguments.masked.text.splitOnP fun c => !isWord c := by
  rw [isUnending, Bool.and_eq_true, all_eq_true] at h
  grind

/-- An annotation as it stands in a source. -/
structure SourceAnnotation where
  name : QualifiedName
  gap : Text
  blank : ∀ c ∈ gap, c ∈ gapCharacters
  arguments : Option SourceArguments
  gap_eq_nil : arguments = none → gap = []

/-- What the masked text shows of an annotation. -/
def SourceAnnotation.masked (a : SourceAnnotation) : AnnotationUse where
  name := a.name
  gap := a.gap
  blank := a.blank
  arguments := a.arguments.map SourceArguments.masked
  gap_eq_nil := fun h => a.gap_eq_nil (Option.map_eq_none_iff.mp h)

/-- A piece of a declaration as it stands in a source. -/
inductive SourcePiece where
  | gap (c : Char) (mem : c ∈ gapCharacters)
  | annotationUse (a : SourceAnnotation)
  | token (t : Token)

namespace SourcePiece

/-- Whether nothing in the argument list of a piece ends a declaration. -/
def isUnending : SourcePiece → Bool
  | annotationUse a => a.arguments.all SourceArguments.isUnending
  | _ => true

/-- What the masked text shows of a piece. -/
def masked : SourcePiece → Piece
  | gap c mem => .gap c mem
  | annotationUse a => .item (.annotationUse a.masked)
  | token t => .item (.token t)

def grains : SourcePiece → List Grain
  | gap c _ => codeGrains [c]
  | annotationUse a => codeGrains ('@' :: (a.name.text ++ a.gap)) ++
      (a.arguments.map fun arguments => Source.grains arguments.text).getD []
  | token t => codeGrains t.text

theorem maskText_grains (p : SourcePiece) : maskText p.grains = p.masked.text := by
  cases p with
  | gap c mem => exact maskText_codeGrains [c]
  | token t => exact maskText_codeGrains t.text
  | annotationUse a =>
    obtain ⟨name, gap, blank, arguments, hgap⟩ := a
    rw [grains, maskText_append, maskText_codeGrains]
    cases arguments with
    | none => simp [masked, Piece.text, Item.text, AnnotationUse.text, SourceAnnotation.masked]
    | some arguments =>
      simp [← arguments.mask_eq, Source.mask_eq, maskText, masked, Piece.text, Item.text,
        AnnotationUse.text, SourceAnnotation.masked]

theorem bare_token (t : Token) : Bare t.text :=
  t.codeText_outside.bare (by decide)

theorem bare_of_gap {s : Text} (h : ∀ c ∈ s, c ∈ gapCharacters) : Bare s := by
  have hall : (gapCharacters.all fun c => c ≠ '/' ∧ c ≠ '"' ∧ c ≠ '\'') = true := by decide
  exact fun c hc => by simpa using all_eq_true.mp hall c (h c hc)

theorem getLast?_arguments (arguments : ArgumentList) : arguments.text.getLast? = some ')' := by
  grind [ArgumentList.text]

theorem standing_grains (p : SourcePiece) (t : Text) : Standing p.grains t := by
  cases p with
  | gap c mem => exact (bare_of_gap (by simpa using mem)).standing t
  | token u => exact (bare_token u).standing t
  | annotationUse a =>
    have hname : Bare ('@' :: (a.name.text ++ a.gap)) :=
      (bare_singleton (by decide)).append ((bare_token (.name a.name)).append (bare_of_gap a.blank))
    refine standing_append.mpr ⟨hname.standing _, ?_⟩
    cases a.arguments with
    | none => trivial
    | some arguments =>
      exact standing_of_getLast? (by rw [arguments.mask_eq, getLast?_arguments]) t

theorem uncommented_grains (p : SourcePiece) : ∀ g ∈ p.grains, g.1.isComment = false := by
  cases p with
  | gap c mem => exact uncommented_codeGrains [c]
  | token t => exact uncommented_codeGrains t.text
  | annotationUse a =>
    intro g hg
    rcases mem_append.mp hg with hg | hg
    · exact uncommented_codeGrains _ g hg
    · cases harguments : a.arguments with
      | none => simp [harguments] at hg
      | some arguments =>
        rw [harguments] at hg
        exact arguments.uncommented g hg

end SourcePiece

/-! ### Pieces in a row -/

/-- The masked pieces of a declaration. -/
def maskedPieces (pieces : List SourcePiece) : List Piece :=
  pieces.map SourcePiece.masked

def pieceGrains (pieces : List SourcePiece) : List Grain :=
  pieces.flatMap SourcePiece.grains

theorem maskText_pieceGrains (pieces : List SourcePiece) :
    maskText (pieceGrains pieces) = spelling (maskedPieces pieces) := by
  induction pieces with
  | nil => rfl
  | cons p pieces ih =>
    rw [pieceGrains, flatMap_cons, maskText_append, p.maskText_grains, maskedPieces,
      map_cons, spelling_cons, ← maskedPieces, ← ih, pieceGrains]

theorem standing_pieceGrains (pieces : List SourcePiece) (t : Text) :
    Standing (pieceGrains pieces) t := by
  induction pieces with
  | nil => trivial
  | cons p pieces ih => exact standing_append.mpr ⟨p.standing_grains _, ih⟩

theorem uncommented_pieceGrains (pieces : List SourcePiece) :
    ∀ g ∈ pieceGrains pieces, g.1.isComment = false := by
  intro g hg
  obtain ⟨p, -, hp⟩ := mem_flatMap.mp hg
  exact p.uncommented_grains g hp

theorem getLast?_piece (p : Piece) : p.text ≠ [] ∧ p.text.getLast? ≠ some '/' := by
  have hbare : ∀ {s : Text}, Bare s → s.getLast? ≠ some '/' := fun hs hlast =>
    (hs '/' (mem_of_getLast? hlast)).1 rfl
  rcases p with ⟨c, mem⟩ | ⟨a | t⟩
  · exact ⟨cons_ne_nil _ _, hbare (SourcePiece.bare_of_gap (s := [c]) (by simpa using mem))⟩
  · refine ⟨cons_ne_nil _ _, ?_⟩
    cases harguments : a.arguments with
    | some arguments =>
      have hsplit : a.text = ('@' :: (a.name.text ++ a.gap)) ++ arguments.text := by
        simp [AnnotationUse.text, harguments]
      have hne : arguments.text ≠ [] := cons_ne_nil _ _
      rw [Piece.text, Item.text, hsplit, getLast?_append_of_ne_nil _ hne,
        SourcePiece.getLast?_arguments]
      decide
    | none =>
      have hsplit : a.text = ['@'] ++ (Token.name a.name).text := by
        simp [AnnotationUse.text, harguments, a.gap_eq_nil harguments, Token.text]
      rw [Piece.text, Item.text, hsplit]
      exact hbare ((bare_singleton (by decide)).append (SourcePiece.bare_token _))
  · exact ⟨t.text_ne_nil, hbare (SourcePiece.bare_token t)⟩

theorem getLast?_spelling (pieces : List Piece) : (spelling pieces).getLast? ≠ some '/' := by
  rcases eq_nil_or_concat pieces with rfl | ⟨init, p, rfl⟩
  · simp [spelling]
  · obtain ⟨hne, hlast⟩ := getLast?_piece p
    grind [spelling, getLast?_append_of_ne_nil _ hne]

theorem uncommented_pieces (pieces : List SourcePiece) :
    Uncommented (spelling (maskedPieces pieces)) := by
  refine ⟨?_, getLast?_spelling _⟩
  rw [← maskText_pieceGrains]
  exact isChain_maskText (standing_pieceGrains pieces []) (uncommented_pieceGrains pieces)

theorem balanced_pieces (pieces : List SourcePiece) :
    Source.Balanced (spelling (maskedPieces pieces)) := by
  have hmarks : ∀ {marks : List Char} {s : Text}, CodeText marks outsideWords s → '{' ∉ marks →
      '}' ∉ marks → Source.Balanced s := fun hs hopen hclose =>
    balanced_of_notMem (hs.notMem (by decide) hopen) (hs.notMem (by decide) hclose)
  have hgap : ∀ {s : Text}, (∀ c ∈ s, c ∈ gapCharacters) → Source.Balanced s := fun hs =>
    balanced_of_notMem (fun h => absurd (hs _ h) (by decide)) (fun h => absurd (hs _ h) (by decide))
  have htoken : ∀ t : Token, Source.Balanced t.text := fun t =>
    hmarks t.codeText_outside (by decide) (by decide)
  induction pieces with
  | nil => exact balanced_nil
  | cons p pieces ih =>
    rw [maskedPieces, map_cons, spelling_cons]
    refine Source.Balanced.append ?_ ih
    cases p with
    | gap c mem => exact hgap (s := [c]) (by simpa using mem)
    | token t => exact htoken t
    | annotationUse a =>
      obtain ⟨name, gap, blank, arguments, -⟩ := a
      have hname : Source.Balanced ('@' :: (name.text ++ gap)) :=
        (balanced_of_notMem (m := ['@']) (by decide) (by decide)).append
          ((htoken (.name name)).append (hgap blank))
      cases arguments with
      | none =>
        simpa [SourcePiece.masked, Piece.text, Item.text, AnnotationUse.text,
          SourceAnnotation.masked] using hname
      | some arguments =>
        have h := hname.append (balanced_of_braceEndFrom arguments.closed)
        simpa [SourcePiece.masked, Piece.text, Item.text, AnnotationUse.text,
          SourceAnnotation.masked] using h

/-! ### Keywords -/

theorem head?_gap_append {gap : Text} (blank : ∀ c ∈ gap, c ∈ gapCharacters) (t : Text) :
    ∀ c ∈ (gap ++ '(' :: t).head?, isWord c = false := by
  cases gap with
  | nil => exact ends_word (by decide) t
  | cons d gap => exact ends_word (isWord_of_mem_gap (blank d mem_cons_self)) _

/-- An annotation is not the declaration of a type. -/
theorem keyless_annotationName (q : QualifiedName) (hs : Keyless s)
    (hend : ∀ c ∈ s.head?, isWord c = false) : Keyless ('@' :: (q.text ++ s)) := by
  have hname : Keyless (q.text ++ s) :=
    q.codeText.keyless_append (by decide) (by decide) hs (.inl hend)
  intro pos before t ht
  have hhead : ∀ c ∈ (s ++ t).head?, isWord c = false := by
    cases s with
    | nil => exact ht
    | cons d s => exact hend
  have hnone : typeKeyword? before ('@' :: (q.text ++ (s ++ t))) = none := by
    rw [typeKeyword?]
    split_ifs
    · rfl
    · have hinterface := q.startsWithInterface hhead
      rw [startsWithInterface] at hinterface
      have hfirst : ((after? "interface".toList (q.text ++ (s ++ t))).any fun rest =>
          rest.head?.any isBlank) = false := by
        split at hinterface
        · next hafter => rw [hafter]; rfl
        · cases hinterface
        · next c rest hafter =>
          rw [hafter]
          by_contra hblank
          have hword := isWord_of_isBlank (c := c) (by simpa using hblank)
          simp [hword] at hinterface
      simpa [declaringKeywords, after?] using hfirst
  obtain ⟨b, hb⟩ := hname (pos + 1) (some '@') t ht
  refine ⟨b, ?_⟩
  rw [append_assoc] at hb
  rw [cons_append, append_assoc, typeKeywordsFrom_of_none hnone, hb]
  congr 1
  simp only [length_cons]
  omega

/-- A member with annotations declares no type. -/
theorem keyless_pieces {pieces : List SourcePiece}
    (hapart : (maskedPieces pieces).IsChain fun p q => p.apart q)
    (hmember : ∀ t, .token t ∈ pieces → t.isMember) (hs : Keyless s)
    (hend : ∀ i, (maskedPieces pieces).getLast? = some (.item i) → i.endsWord →
      ∀ c ∈ s.head?, isWord c = false) : Keyless (spelling (maskedPieces pieces) ++ s) := by
  induction pieces with
  | nil => exact hs
  | cons p pieces ih =>
    have hrest := ih hapart.tail (fun t ht => hmember t (mem_cons_of_mem p ht)) fun i hi =>
      hend i (by rw [maskedPieces, map_cons, getLast?_cons, ← maskedPieces, hi]; rfl)
    -- A word at the end of a piece is not continued by what follows.
    have hnext : ∀ {i : Item}, p.masked = .item i → i.endsWord →
        ∀ c ∈ (spelling (maskedPieces pieces) ++ s).head?, isWord c = false := by
      intro i hi hword
      cases pieces with
      | nil => exact hend i (by simp [maskedPieces, hi]) hword
      | cons q pieces =>
        rw [maskedPieces, map_cons, hi] at hapart
        have hne : spelling (maskedPieces (q :: pieces)) ≠ [] :=
          append_ne_nil_of_left_ne_nil (getLast?_piece q.masked).1 _
        rw [head?_append_of_ne_nil _ hne]
        exact head?_spelling_of_apart hword hapart
    rw [maskedPieces, map_cons, spelling_cons, ← maskedPieces, append_assoc]
    cases p with
    | gap c mem => exact hrest.mark (isWord_of_mem_gap mem) (TypeTree.not_at_of_mem_gap mem)
    | token t =>
      refine (Token.codeText (hmember t mem_cons_self)).keyless_append (by decide)
        (by decide) hrest ?_
      by_cases hword : t.endsWord
      · exact .inl (hnext (i := .token t) rfl hword)
      · exact .inr (Token.getLast_of_not_endsWord (by simpa using hword))
    | annotationUse a =>
      obtain ⟨name, gap, blank, arguments, hgap⟩ := a
      cases arguments with
      | none =>
        have hname := keyless_annotationName name hrest (hnext rfl rfl)
        simpa [SourcePiece.masked, Piece.text, Item.text, AnnotationUse.text,
          SourceAnnotation.masked, hgap rfl] using hname
      | some arguments =>
        have hgaps : ∀ c ∈ gap, isWord c = false ∧ c ≠ '@' := fun c hc =>
          ⟨isWord_of_mem_gap (blank c hc), TypeTree.not_at_of_mem_gap (blank c hc)⟩
        have hname := keyless_annotationName name
          ((hrest.arguments arguments.typeless).marks hgaps) (head?_gap_append blank _)
        simpa [SourcePiece.masked, Piece.text, Item.text, AnnotationUse.text,
          SourceAnnotation.masked, ArgumentList.text] using hname

/-- What a declaration with annotations is made of, if no argument list ends it. -/
theorem codeText_piece {marks : List Char} (hmarks : ∀ c ∈ '@' :: headerMarks, c ∈ marks)
    {p : SourcePiece} (hp : p.isUnending) {i : Item} (hi : p.masked = .item i)
    (htext : ∀ c ∈ i.text, isWord c = false → c ∉ declarationEnds → c ∈ marks) :
    CodeText marks ["throws".toList] i.text := by
  have hthrows : ∀ w ∈ ["throws".toList], w ∈ outsideWords ∧ w ∈ foreignWords := by decide
  cases p with
  | gap c mem => cases hi
  | token t =>
    obtain rfl := Piece.item.inj hi
    exact t.codeText_outside.mono hmarks fun w hw => (hthrows w hw).1
  | annotationUse a =>
    obtain rfl := Piece.item.inj hi
    obtain ⟨name, gap, blank, arguments, hgap⟩ := a
    have hname : CodeText marks ["throws".toList] name.text :=
      name.codeText.mono (fun c hc => hmarks c (mem_cons_of_mem _ hc)) fun w hw => (hthrows w hw).2
    cases arguments with
    | none =>
      have h := CodeText.mark (hmarks '@' mem_cons_self) hname
      simpa [Item.text, AnnotationUse.text, SourceAnnotation.masked, hgap rfl] using h
    | some arguments =>
      obtain ⟨hends, hwords⟩ := arguments.of_isUnending hp
      have harguments : CodeText marks ["throws".toList] arguments.masked.text := by
        refine codeText_of_words (fun c hc => ?_) fun w hw hmem => ?_
        · rw [or_iff_not_imp_left, Bool.not_eq_true]
          refine fun hword => htext c ?_ hword (hends c hc)
          simp [Item.text, AnnotationUse.text, SourceAnnotation.masked, hc]
        · grind
      have hgaps : ∀ c ∈ gap, c ∈ marks := fun c hc =>
        hmarks c (mem_cons_of_mem _ (mem_append_left _ (blank c hc)))
      have h := CodeText.mark (hmarks '@' mem_cons_self)
        (hname.append (harguments.marks_append hgaps) (.inl (head?_gap_append blank _)))
      simpa [Item.text, AnnotationUse.text, SourceAnnotation.masked] using h

end DocGraft.Declaration

namespace DocGraft.Source

open Text Signature Scanner Declaration

/-! ### The end of a method -/

/-- A text that begins with something that ends a declaration. -/
def EndsDeclaration (after : Text) : Prop :=
  ∀ before : Option Char, (∀ c ∈ before, isWord c = false) → declarationLength? before after =
    some 0

theorem endsDeclaration_mark {c : Char} (hc : c ∈ declarationEnds) (t : Text) :
    EndsDeclaration (c :: t) := by
  intro before _
  simp only [declarationEnds, List.mem_cons, List.not_mem_nil, or_false] at hc
  rw [declarationLength?, if_pos]
  rcases hc with rfl | rfl | rfl | rfl <;> simp

theorem endsDeclaration_throws {t : Text} (ht : ∀ c ∈ t.head?, isWord c = false) :
    EndsDeclaration ("throws".toList ++ t) := by
  intro before hbefore
  have hthrows : throwsAt before ("throws".toList ++ t) = true := by
    have hnot : before.any isWord = false := by
      cases before with
      | none => rfl
      | some c => exact hbefore c rfl
    have hend : t.head?.any isWord = false := by
      cases hhead : t.head? with
      | none => rfl
      | some c => exact ht c hhead
    rw [throwsAt, hnot, after?_append]
    simp [hend]
  have hcons : "throws".toList ++ t = 't' :: ("hrows".toList ++ t) := rfl
  rw [hcons] at hthrows ⊢
  rw [declarationLength?, hthrows]
  simp

/-- A method is read up to what ends it behind its closing parenthesis and marks. -/
theorem declarationLength?_close {s marks after : Text} (hs : Unended s)
    (hmarks : ∀ c ∈ marks, isWord c = false ∧ c ∉ declarationEnds ∧ c ≠ ',')
    (hafter : EndsDeclaration after) (before : Option Char) :
    declarationLength? before ((s ++ ')' :: marks) ++ after) = some (s ++ ')' :: marks).length := by
  have hstep : ∀ {c : Char} (before : Option Char) (t : Text),
      isWord c = false ∧ c ∉ declarationEnds ∧ c ≠ ',' →
      declarationLength? before (c :: t) = (declarationLength? (some c) t).map (· + 1) :=
    fun before t hc =>
      declarationLength?_cons (throwsAt_mark hc.1 _ _) hc.2.1 fun h => absurd h hc.2.2
  have hrest : ∀ before : Option Char, (∀ c ∈ before, isWord c = false) →
      declarationLength? before (marks ++ after) = some marks.length := by
    induction marks with
    | nil => exact hafter
    | cons c marks ih =>
      intro before _
      obtain ⟨hc, hmarks⟩ := List.forall_mem_cons.mp hmarks
      grind
  obtain ⟨b, hb⟩ := hs before ')' (marks ++ after) (by decide) (by decide) (by decide)
  rw [List.append_assoc, List.cons_append, hb, hstep b _ (by decide),
    hrest (some ')') (by simpa using by decide)]
  grind

end DocGraft.Source
