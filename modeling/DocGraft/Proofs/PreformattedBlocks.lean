import DocGraft.Proofs.SourceClosing

/-!
# Preformatted blocks stay whole

The blocks of a description are filled from the comment in the source. A content that was found in
one text is found again where it is put into another: no earlier closing comes about in it, and no
opening can begin before a block and end inside it. So the parts of a filled description are the
filled parts of the description, whatever the contents look like.

Lines are joined by looking at the text made so far. A tag that ends there began behind everything
that was put in before, as what was put in ends where no tag goes on.

The main results are `Comment.Parted.blockParts_text`, `Comment.blocks_fillBlocks` and
`Comment.joinOutside_blocks`.
-/

namespace DocGraft.Text

open List

variable {needle a b s : Text}

/-- What stands before the first occurrence has none. -/
theorem not_infix_of_cut? (hne : needle ≠ []) (h : cut? needle s = some (a, b)) :
    ¬ needle <:+: a := by
  induction s generalizing a with
  | nil => simp [cut?, hne] at h
  | cons c s ih =>
    rw [cut?] at h
    split at h
    · obtain ⟨rfl, rfl⟩ := Prod.mk.inj (Option.some.inj h)
      simpa using hne
    · next hafter =>
      obtain ⟨p, hp, heq⟩ := Option.map_eq_some_iff.mp h
      obtain ⟨rfl, rfl⟩ := Prod.mk.inj heq
      intro hinfix
      rcases infix_cons_iff.mp hinfix with hprefix | hinfix
      · have hs : p.1 <+: s := ⟨needle ++ p.2, by rw [eq_of_cut?_eq_some hp, append_assoc]⟩
        obtain ⟨rest, hrest⟩ := hprefix.trans ((prefix_cons_inj c).mpr hs)
        simp [after?_eq_some_iff.mpr hrest.symm] at hafter
      · exact ih hp hinfix

variable {c : Char} {w : Text}

/-- A text that begins before a character of its kind ends before it. -/
theorem prefix_of_append_self (hc : c ∉ w) (ha : a ≠ []) (h : c :: w <+: a ++ c :: s) :
    c :: w <+: a := by
  obtain ⟨d, a, rfl⟩ := exists_cons_of_ne_nil ha
  obtain ⟨rfl, hw⟩ := cons_prefix_cons.mp h
  exact cons_prefix_cons.mpr ⟨rfl, prefix_of_append_cons hc hw⟩

/-- A text in which the first character does not come again is found where it is put. -/
theorem cut?_append (hc : c ∉ w) (ha : ¬ c :: w <:+: a) (b : Text) :
    cut? (c :: w) (a ++ (c :: w ++ b)) = some (a, b) := by
  induction a with
  | nil =>
    rw [nil_append, cons_append, cut?, ← cons_append, after?_append]
  | cons d a ih =>
    have hnone : after? (c :: w) (d :: (a ++ (c :: w ++ b))) = none := by
      refine Option.eq_none_iff_forall_ne_some.mpr fun rest hrest => ha ?_
      have hprefix : c :: w <+: d :: a ++ c :: (w ++ b) :=
        ⟨rest, (after?_eq_some_iff.mp hrest).symm⟩
      exact (prefix_of_append_self hc (cons_ne_nil d a) hprefix).isInfix
    rw [cons_append, cut?, hnone, ih fun h => ha (infix_cons h)]
    rfl

end DocGraft.Text

namespace DocGraft.Comment

open List Text

variable {content done s t u : Text}

/-! ### Where blocks begin -/

/-- What can stand in a block: the closing may begin with its first character, but not later. -/
def IsContent (content : Text) : Prop :=
  content ≠ [] ∧ ¬ "\n</pre>".toList <:+: content.tail

theorem isContent_of_blockAt? (h : blockAt? s = some content) : IsContent content := by
  unfold blockAt? at h
  split at h
  · obtain ⟨p, hcut, rfl⟩ := Option.map_eq_some_iff.mp h
    exact ⟨cons_ne_nil _ _, not_infix_of_cut? (by decide) hcut⟩
  · cases h

theorem blockAt?_block (h : IsContent content) (t : Text) :
    blockAt? ((BlockPart.block content).text ++ t) = some content := by
  obtain ⟨d, v, rfl⟩ := exists_cons_of_ne_nil h.1
  have hcut : cut? "\n</pre>".toList (v ++ ("\n</pre>".toList ++ t)) = some (v, t) :=
    cut?_append (by decide) h.2 t
  have hafter : after? "<pre>\n".toList ((BlockPart.block (d :: v)).text ++ t) =
      some (d :: (v ++ ("\n</pre>".toList ++ t))) := by
    simp [after?_eq_some_iff, text_block]
  rw [blockAt?, hafter]
  simp only [hcut, Option.map_some]

/-- No block begins at a text that has no opening there, or no closing behind one character more. -/
theorem blockAt?_eq_none_iff : blockAt? s = none ↔
    ∀ u t, u ≠ [] → s ≠ "<pre>\n".toList ++ (u ++ ("\n</pre>".toList ++ t)) := by
  constructor
  · rintro hnone u t hu rfl
    obtain ⟨d, u, rfl⟩ := exists_cons_of_ne_nil hu
    obtain ⟨p, hp⟩ := Option.isSome_iff_exists.mp
      (contains_iff.mpr ⟨u, t, append_assoc u "\n</pre>".toList t⟩)
    rw [blockAt?, after?_append] at hnone
    simp only [cons_append, hp, Option.map_some, reduceCtorEq] at hnone
  · intro h
    by_contra hsome
    obtain ⟨content, hblock⟩ := Option.ne_none_iff_exists'.mp hsome
    obtain ⟨t, ht⟩ := exists_of_blockAt? hblock
    refine h content t (isContent_of_blockAt? hblock).1 ?_
    rw [ht, text_block, append_assoc, append_assoc]

/-! ### Texts and their parts -/

/-- Parts into which a text falls: no block begins at a character outside the blocks. -/
inductive Parted : List BlockPart → Prop
  | nil : Parted []
  | outside {c : Char} {parts : List BlockPart}
      (h : blockAt? (c :: parts.flatMap BlockPart.text) = none) (hp : Parted parts) :
      Parted (.outside c :: parts)
  | block {content : Text} {parts : List BlockPart} (h : IsContent content) (hp : Parted parts) :
      Parted (.block content :: parts)

variable {contents : List Text} {parts : List BlockPart}

theorem blockParts_cons {c : Char} (h : blockAt? (c :: s) = none) :
    blockParts (c :: s) = .outside c :: blockParts s := by
  rw [blockParts, blockPartsFrom, h]
  rfl

theorem blockParts_block (h : IsContent content) (t : Text) :
    blockParts ((BlockPart.block content).text ++ t) = .block content :: blockParts t := by
  obtain ⟨v, hv⟩ : ∃ v, (BlockPart.block content).text ++ t = '<' :: v := ⟨_, rfl⟩
  have hblock := blockAt?_block h t
  have hdrop : v.drop (content.length + 12) = t := by
    have hlength : (BlockPart.block content).text.length = content.length + 13 := by
      simp [text_block]
    have hall := congrArg (List.drop (content.length + 13)) hv
    rwa [← hlength, drop_left, hlength, drop_succ_cons, eq_comm] at hall
  rw [hv] at hblock ⊢
  rw [blockParts, blockPartsFrom, hblock]
  exact congrArg _ ((blockPartsFrom_eq_drop _ v).trans (congrArg _ hdrop))

theorem parted_blockParts (s : Text) : Parted (blockParts s) := by
  induction hn : s.length using Nat.strong_induction_on generalizing s with
  | _ n ih =>
    cases s with
    | nil => exact .nil
    | cons c s =>
      cases hblock : blockAt? (c :: s) with
      | none =>
        rw [blockParts_cons hblock]
        refine .outside ?_ (ih s.length (by simp [← hn]) s rfl)
        rwa [flatMap_text_blockParts]
      | some content =>
        have hcontent := isContent_of_blockAt? hblock
        obtain ⟨t, ht⟩ := exists_of_blockAt? hblock
        rw [ht, blockParts_block hcontent]
        refine .block hcontent (ih t.length ?_ t rfl)
        rw [← hn, ht, length_append]
        simp [text_block]

/-- A text that is put together falls into its parts again. -/
theorem Parted.blockParts_text (h : Parted parts) :
    blockParts (parts.flatMap BlockPart.text) = parts := by
  induction h with
  | nil => rfl
  | outside h _ ih =>
    rw [flatMap_cons]
    exact (blockParts_cons h).trans (congrArg _ ih)
  | block h _ ih => rw [flatMap_cons, blockParts_block h, ih]

theorem Parted.isContent_of_mem (h : Parted parts) (hmem : content ∈ blocksOf parts) :
    IsContent content := by
  induction h with
  | nil => simp [blocksOf] at hmem
  | outside _ _ ih => exact ih hmem
  | block hcontent _ ih =>
    rcases mem_cons.mp hmem with rfl | hmem
    · exact hcontent
    · exact ih hmem

/-! ### Other contents -/

@[simp]
theorem refill_outside (contents : List Text) (c : Char) (parts : List BlockPart) :
    refill contents (.outside c :: parts) = .outside c :: refill contents parts := by
  cases contents <;> rfl

@[simp]
theorem refill_nil (parts : List BlockPart) : refill [] parts = parts := by
  induction parts with
  | nil => rfl
  | cons part parts ih => rw [refill, ih]; simp

/-- Other contents make no block begin where none began before. -/
theorem blockAt?_refill (hu : u ≠ []) (h : blockAt? (u ++ parts.flatMap BlockPart.text) = none) :
    blockAt? (u ++ (refill contents parts).flatMap BlockPart.text) = none := by
  induction parts generalizing u with
  | nil => cases contents <;> exact h
  | cons part parts ih =>
    cases part with
    | outside d =>
      rw [refill_outside, flatMap_cons, ← append_assoc]
      rw [flatMap_cons, ← append_assoc] at h
      exact ih (by simp [hu]) h
    | block content =>
      cases contents with
      | nil => rwa [refill_nil]
      | cons new contents =>
        -- An opening that stands before this block ends before it, so it had a closing already.
        rw [blockAt?_eq_none_iff] at h ⊢
        intro v t _ heq
        have hopen : "<pre>\n".toList <+: u :=
          prefix_of_append_self (by decide) hu ⟨_, heq.symm⟩
        obtain ⟨w, rfl⟩ := hopen
        refine h (w ++ "<pre>\n".toList ++ content) (parts.flatMap BlockPart.text) (by simp) ?_
        simp [text_block]

theorem Parted.refill (h : Parted parts) (hcontents : ∀ content ∈ contents, IsContent content) :
    Parted (refill contents parts) := by
  induction h generalizing contents with
  | nil => cases contents <;> exact .nil
  | @outside c parts hnone _ ih =>
    rw [refill_outside]
    exact .outside (blockAt?_refill (u := [c]) (cons_ne_nil _ _) hnone) (ih hcontents)
  | block hcontent hparts ih =>
    cases contents with
    | nil =>
      rw [refill_nil]
      exact .block hcontent hparts
    | cons new contents =>
      exact .block (hcontents new mem_cons_self) (ih fun c hc => hcontents c (mem_cons_of_mem _ hc))

/-- The texts before, between and behind the blocks. -/
def gaps : List BlockPart → List Text
  | [] => [[]]
  | .outside c :: parts => (gaps parts).modifyHead (c :: ·)
  | .block _ :: parts => [] :: gaps parts

/-- A text with blocks between the given texts. -/
def weave : List Text → List Text → Text
  | gap :: gaps, content :: contents => gap ++ (BlockPart.block content).text ++ weave gaps contents
  | gaps, _ => gaps.flatten

theorem weave_modifyHead (c : Char) {gap : Text} {gaps : List Text} (contents : List Text) :
    weave ((gap :: gaps).modifyHead (c :: ·)) contents = c :: weave (gap :: gaps) contents := by
  cases contents <;> rfl

theorem exists_gaps (parts : List BlockPart) : ∃ gap rest, gaps parts = gap :: rest := by
  induction parts with
  | nil => exact ⟨_, _, rfl⟩
  | cons part parts ih =>
    cases part with
    | outside c =>
      obtain ⟨gap, rest, h⟩ := ih
      exact ⟨c :: gap, rest, by rw [gaps, h]; rfl⟩
    | block content => exact ⟨_, _, rfl⟩

theorem weave_gaps_blocksOf (parts : List BlockPart) :
    weave (gaps parts) (blocksOf parts) = parts.flatMap BlockPart.text := by
  induction parts with
  | nil => rfl
  | cons part parts ih =>
    cases part with
    | outside c =>
      obtain ⟨gap, rest, h⟩ := exists_gaps parts
      rw [flatMap_cons, ← ih, gaps, h]
      exact weave_modifyHead c _
    | block content =>
      rw [flatMap_cons, ← ih]
      rfl

theorem gaps_refill (contents : List Text) (parts : List BlockPart) :
    gaps (refill contents parts) = gaps parts := by
  induction parts generalizing contents with
  | nil => cases contents <;> rfl
  | cons part parts ih =>
    cases part with
    | outside c => rw [refill_outside, gaps, gaps, ih]
    | block content =>
      cases contents with
      | nil => rw [refill_nil]
      | cons new contents => rw [refill, gaps, gaps, ih]

theorem blocksOf_refill (h : (blocksOf parts).length = contents.length) :
    blocksOf (refill contents parts) = contents := by
  induction parts generalizing contents with
  | nil => exact (length_eq_zero_iff.mp h.symm) ▸ rfl
  | cons part parts ih =>
    cases part with
    | outside c =>
      rw [refill_outside]
      exact ih h
    | block content =>
      cases contents with
      | nil => simp [blocksOf] at h
      | cons new contents => exact congrArg (new :: ·) (ih (Nat.succ.inj h))

variable {source body : Text}

theorem fillBlocks_eq_flatMap (h : blocks (substitute starRule source) ≠ [] ∧
    (blocks body).length = (blocks (substitute starRule source)).length) :
    fillBlocks source body =
      (refill (blocks (substitute starRule source)) (blockParts body)).flatMap BlockPart.text :=
  if_pos h

/-- The parts of a filled description are the filled parts of the description. -/
theorem blockParts_fillBlocks (h : blocks (substitute starRule source) ≠ [] ∧
    (blocks body).length = (blocks (substitute starRule source)).length) :
    blockParts (fillBlocks source body) =
      refill (blocks (substitute starRule source)) (blockParts body) := by
  have hcontents : ∀ content ∈ blocks (substitute starRule source), IsContent content :=
    fun _ hmem => (parted_blockParts _).isContent_of_mem hmem
  rw [fillBlocks_eq_flatMap h, ((parted_blockParts body).refill hcontents).blockParts_text]

theorem fillBlocks_eq_weave (h : blocks (substitute starRule source) ≠ [] ∧
    (blocks body).length = (blocks (substitute starRule source)).length) :
    fillBlocks source body =
      weave (gaps (blockParts body)) (blocks (substitute starRule source)) := by
  rw [fillBlocks_eq_flatMap h, ← weave_gaps_blocksOf, gaps_refill, blocksOf_refill h.2]

/-- If the source has blocks and the description equally many, filling puts the contents of the
source's blocks between the texts that stand around those of the description, and the result falls
into just these contents and texts. Otherwise it leaves the description alone. A filled description
is not changed again. -/
theorem blocks_fillBlocks (source body : Text) :
    let contents := blocks (substitute starRule source)
    let filled := fillBlocks source body
    (contents ≠ [] ∧ (blocks body).length = contents.length →
      body = weave (gaps (blockParts body)) (blocks body) ∧
        filled = weave (gaps (blockParts body)) contents ∧
        blocks filled = contents ∧ gaps (blockParts filled) = gaps (blockParts body)) ∧
      (¬ (contents ≠ [] ∧ (blocks body).length = contents.length) → filled = body) ∧
      fillBlocks source filled = filled := by
  intro contents filled
  by_cases h : contents ≠ [] ∧ (blocks body).length = contents.length
  · have hparts : blockParts filled = refill contents (blockParts body) := blockParts_fillBlocks h
    have hgaps : gaps (blockParts filled) = gaps (blockParts body) := by rw [hparts, gaps_refill]
    have hblocks : blocks filled = contents := by rw [blocks, hparts, blocksOf_refill h.2]
    have hfilled : filled = weave (gaps (blockParts body)) contents := fillBlocks_eq_weave h
    refine ⟨fun _ => ⟨?_, hfilled, hblocks, hgaps⟩, fun hnot => absurd h hnot, ?_⟩
    · rw [blocks, weave_gaps_blocksOf, flatMap_text_blockParts]
    · rw [fillBlocks_eq_weave ⟨h.1, congrArg length hblocks⟩, hgaps, hfilled]
  · have hsame : filled = body := if_neg h
    exact ⟨fun hpos => absurd hpos h, fun _ => hsame, by rw [hsame]; exact hsame⟩

/-- An opening in the contents of the source begins no block of its own. -/
theorem blocks_fillBlocks_opening :
    blocks (fillBlocks " * <pre>\n * <pre>\n *  a\n * </pre>".toList
      "x <pre>\nb\n</pre> y".toList) = ["<pre>\n a".toList] :=
  ((blocks_fillBlocks _ _).1 (by decide +kernel)).2.2.1.trans (by decide +kernel)

/-! ### Joining lines -/

/-- A text without its line ends. -/
def oneLine (s : Text) : Text :=
  s.filter (· ≠ '\n')

/-- A text without tags of preformatted blocks. -/
def TagFree (s : Text) : Prop :=
  ¬ "<pre>".toList <:+: s ∧ ¬ "</pre>".toList <:+: s

instance (s : Text) : Decidable (TagFree s) :=
  inferInstanceAs (Decidable (_ ∧ _))

/-- What is left of a text that is read inside a block, or outside. -/
def kept (inside : Bool) (s : Text) : Text :=
  if inside then s else oneLine s

/-- No tag ends in a text without tags if none goes on where the text begins. -/
theorem startsWith_reverse_append {w : Text} (hw : ∀ c ∈ w.reverse.tail, c ≠ '>' ∧ c ≠ '\n')
    (hdone : ∀ c ∈ done.head?, c = '>' ∨ c = '\n') (hu : u ≠ []) (htag : ¬ w <:+: u) :
    startsWith w.reverse (u.reverse ++ done) = false := by
  refine Bool.eq_false_iff.mpr fun hstart => ?_
  have hprefix : w.reverse <+: u.reverse ++ done := startsWith_iff.mp hstart
  have hlong : ¬ w.reverse <+: u.reverse := fun h => htag ( reverse_prefix.mp h).isInfix
  -- Otherwise the tag reaches back over the text, into a character at which no tag goes on.
  obtain ⟨v, hv⟩ := ( prefix_or_prefix_of_prefix hprefix (prefix_append _ _)).resolve_left hlong
  obtain ⟨c, v, rfl⟩ : ∃ c v', v = c :: v' := by
    refine exists_cons_of_ne_nil fun hnil => hlong ?_
    rw [← hv, hnil, append_nil]
  have hhead : c ∈ done.head? := by
    rw [← hv, prefix_append_right_inj] at hprefix
    obtain ⟨rest, rfl⟩ := hprefix
    rfl
  obtain ⟨d, u', hu'⟩ := exists_cons_of_ne_nil (reverse_ne_nil_iff.mpr hu)
  have hne := hw c (by rw [← hv, hu', cons_append, tail_cons]; simp)
  exact (hdone c hhead).elim hne.1 hne.2

/-- Text without tags is taken over as a whole, without its line ends outside the blocks. -/
theorem joinOutsideFrom_reverse_append {inside : Bool} (hdone : ∀ c ∈ done.head?, c =
    '>' ∨ c = '\n')
    (h : TagFree (u ++ kept inside s)) (t : Text) :
    joinOutsideFrom (u.reverse ++ done) inside (s ++ t) =
      joinOutsideFrom ((u ++ kept inside s).reverse ++ done) inside t := by
  induction s generalizing u with
  | nil => cases inside <;> simp [kept, oneLine]
  | cons c s ih =>
    by_cases hend : c = '\n' ∧ !inside
    · obtain ⟨rfl, hout⟩ := hend
      obtain rfl : inside = false := by simpa using hout
      exact ih h
    · have hkept : kept inside (c :: s) = c :: kept inside s := by
        cases inside <;> simp_all [kept, oneLine]
      rw [hkept, append_cons] at h ⊢
      have hpart : u ++ [c] <:+: u ++ [c] ++ kept inside s := (prefix_append _ _).isInfix
      have hnext : c :: (u.reverse ++ done) = (u ++ [c]).reverse ++ done := by simp
      rw [← ih h, cons_append, joinOutsideFrom, hnext,
        startsWith_reverse_append (by simp) hdone (by simp) fun hin => h.1 (hin.trans hpart),
        startsWith_reverse_append (by simp) hdone (by simp) fun hin => h.2 (hin.trans hpart),
        if_neg Bool.false_ne_true, if_neg Bool.false_ne_true, if_neg hend]

theorem joinOutsideFrom_append (inside : Bool) (hdone : ∀ c ∈ done.head?, c = '>' ∨ c = '\n')
    (h : TagFree (kept inside s)) (t : Text) :
    joinOutsideFrom done inside (s ++ t) =
      joinOutsideFrom ((kept inside s).reverse ++ done) inside t :=
  joinOutsideFrom_reverse_append (u := []) hdone h t

theorem joinOutsideFrom_opening (done : Text) (inside : Bool) (t : Text) :
    joinOutsideFrom done inside ("<pre>".toList ++ t) =
      joinOutsideFrom ("\n<pre>".toList.reverse ++ done) true t := by
  simp [joinOutsideFrom, startsWith, after?]

theorem joinOutsideFrom_closing (done t : Text) :
    joinOutsideFrom done true ("</pre>".toList ++ t) =
      joinOutsideFrom ("</pre>\n".toList.reverse ++ done) false t := by
  simp [joinOutsideFrom, startsWith, after?]

variable {lead : Text} {blocks : List (Text × Text)}

theorem joinOutsideFrom_blocks (hdone : ∀ c ∈ done.head?, c = '>' ∨ c = '\n')
    (hlead : TagFree (oneLine lead))
    (hblocks : ∀ b ∈ blocks, TagFree b.1 ∧ TagFree (oneLine b.2)) :
    joinOutsideFrom done false (lead ++ blocks.flatMap fun b =>
        "<pre>".toList ++ b.1 ++ "</pre>".toList ++ b.2) =
      done.reverse ++ (oneLine lead ++ blocks.flatMap fun b =>
        "\n<pre>".toList ++ b.1 ++ "</pre>\n".toList ++ oneLine b.2) := by
  induction blocks generalizing done lead with
  | nil =>
    rw [joinOutsideFrom_append false hdone hlead]
    simp [joinOutsideFrom, kept]
  | cons b blocks ih =>
    obtain ⟨⟨hinside, hbehind⟩, hblocks⟩ := forall_mem_cons.mp hblocks
    rw [joinOutsideFrom_append false hdone hlead, flatMap_cons, append_assoc, append_assoc,
      append_assoc, joinOutsideFrom_opening,
      joinOutsideFrom_append true (by simp) hinside, joinOutsideFrom_closing,
      ih (by simp) hbehind hblocks]
    simp [kept]

/-- Joining keeps the blocks of a text, gives each lines of its own, and makes one line of each text
around them. -/
theorem joinOutside_blocks (hlead : TagFree (oneLine lead))
    (hblocks : ∀ b ∈ blocks, TagFree b.1 ∧ TagFree (oneLine b.2)) :
    joinOutside (lead ++ blocks.flatMap fun b =>
        "<pre>".toList ++ b.1 ++ "</pre>".toList ++ b.2) =
      oneLine lead ++ blocks.flatMap fun b =>
        "\n<pre>".toList ++ b.1 ++ "</pre>\n".toList ++ oneLine b.2 :=
  joinOutsideFrom_blocks (by simp) hlead hblocks

/-- The line ends of a block stay, and those around it go. -/
theorem joinOutside_blocks_lines :
    joinOutside "a\n<<pre>\nb\n</pre>c\n<".toList = "a<\n<pre>\nb\n</pre>\nc<".toList := by
  have h := @joinOutside_blocks "a\n<".toList [("\nb\n".toList, "c\n<".toList)]
    (by decide) (by decide)
  simpa [oneLine] using h

end DocGraft.Comment
