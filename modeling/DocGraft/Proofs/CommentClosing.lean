import DocGraft.Comment.Synthesis
import DocGraft.Proofs.CommentHeight
import DocGraft.Proofs.SourceClosing
import DocGraft.Proofs.TextClosing

/-!
# Closings in a replacement

The replacement of a comment should be one comment again: a closing inside it would end it early and
leave the rest of its text in the code. Formatting without a width, the steps of resizing and the
decoration neither make nor remove a closing, so the replacement has exactly the closings of the
texts that its draft exposes. These are the description, whose lines may have been joined, and the
values of tags that are read up to the ends of their lines. All other texts come from the localized
comment, or from places of the source that end before its closing.

The main results are `Layout.faithful_kept`, `Draft.clean_prepare` and
`Comment.isLoneComment_synthesize_iff`.
-/

namespace DocGraft

open List Text Comment Source

/-! ### Formatting -/

namespace Draft

variable {draft : Draft} {params : List NamedTag} {tag : Text}

theorem atLineStart_tagLines (tag indent : Text) (lines : List Text) :
    AtLineStart (tagLines tag indent lines) := by
  rw [tagLines, ← singleton_append, ← append_assoc]
  refine AtLineStart.append (atLineStart_concat.mpr rfl) (atLineStart_flatMap fun line _ => ?_)
  exact atLineStart_concat.mpr rfl

/-- The lines of a tag entry have the closings of what stands on them. -/
theorem hasClosing_tagLines {indent : Text} (htag : '/' ∉ tag) (hend : tag.getLast? ≠ some '*')
    (hindent : ∀ c ∈ indent, c = ' ') {lines : List Text} :
    HasClosing (tagLines tag indent lines) ↔ ∃ line ∈ lines, HasClosing line := by
  have hspaces : ¬ HasClosing indent ∧ indent.getLast? ≠ some '*' := by
    refine ⟨not_hasClosing_of_notMem fun h => ?_, fun h => ?_⟩
    · exact absurd (hindent _ h) (by decide)
    · exact absurd (hindent _ (mem_of_getLast? h)) (by decide)
  have hline : ∀ line, HasClosing (indent ++ line ++ ['\n']) ↔ HasClosing line := by
    intro line
    rw [hasClosing_concat (by decide), hasClosing_append fun h => absurd h hspaces.2]
    simp [hspaces.1]
  have hrest : ∀ ls : List Text, HasClosing (ls.flatMap fun line => indent ++ line ++ ['\n']) ↔
      ∃ line ∈ ls, HasClosing line := by
    intro ls
    rw [hasClosing_flatMap fun line _ => atLineStart_concat.mpr rfl]
    simp only [hline]
  rw [tagLines, hasClosing_append_cons (by decide) (by decide), hrest,
    hasClosing_append fun h => absurd h hend]
  cases lines with
  | nil => simp [not_hasClosing_of_notMem htag]
  | cons line lines => simp [not_hasClosing_of_notMem htag]

/-- The lines of a value that is not wrapped have its closings. -/
theorem exists_mem_valueLines (style : Style) (tag value : Text) :
    (∃ line ∈ valueLines style none tag value, HasClosing line) ↔ HasClosing value := by
  have hfilter : (∃ line ∈ valueLines style none tag value, HasClosing line) ↔
      ∃ line ∈ fields '\n' (value ++ ['\n']), HasClosing line := by
    constructor
    · rintro ⟨line, hmem, h⟩
      exact ⟨line, mem_of_mem_filter hmem, h⟩
    · rintro ⟨line, hmem, h⟩
      refine ⟨line, mem_filter.mpr ⟨hmem, ?_⟩, h⟩
      cases line with
      | nil => exact absurd h not_hasClosing_nil
      | cons c line => rfl
  rw [hfilter, exists_mem_fields_hasClosing, hasClosing_concat (by decide)]

theorem atLineStart_formatTags (style : Style) (width : Option Int) (tag : Text)
    (values : List Text) : AtLineStart (formatTags style width tag values) :=
  atLineStart_flatMap fun _ _ => atLineStart_tagLines _ _ _

theorem hasClosing_formatTags (style : Style) (htag : '/' ∉ tag) (hend : tag.getLast? ≠ some '*')
    (values : List Text) :
    HasClosing (formatTags style none tag values) ↔ ∃ value ∈ values, HasClosing value := by
  rw [formatTags, hasClosing_flatMap fun _ _ => atLineStart_tagLines _ _ _]
  refine exists_congr fun value => and_congr_right fun _ => ?_
  rw [hasClosing_tagLines htag hend (by simp), exists_mem_valueLines]

theorem atLineStart_formatParams (style : Style) (width : Option Int) (params : List NamedTag) :
    AtLineStart (formatParams style width params) :=
  atLineStart_flatMap fun _ _ => atLineStart_tagLines _ _ _

theorem not_hasClosing_formatParams (style : Style)
    (h : ∀ param ∈ params, ¬ HasClosing param.name ∧ ¬ HasClosing param.description) :
    ¬ HasClosing (formatParams style none params) := by
  rw [formatParams, hasClosing_flatMap fun _ _ => atLineStart_tagLines _ _ _]
  rintro ⟨param, hmem, hclosing⟩
  rw [hasClosing_tagLines (by decide) (by decide) (by simp), exists_mem_valueLines] at hclosing
  have htrim : ∀ s : Text, trimEnd isBlank s <+: s := by
    intro s
    rw [trimEnd, ← reverse_suffix, reverse_reverse]
    exact dropWhile_suffix _
  have hvalue := hclosing.of_infix (htrim _).isInfix
  rw [hasClosing_append_cons (by decide) (by decide), hasClosing_append] at hvalue
  · have hpad : ∀ n : Nat, ¬ HasClosing (List.replicate n ' ') := fun n =>
      not_hasClosing_of_notMem (by simp)
    simp [hpad, h param hmem] at hvalue
  · grind

/-- The values of the tags that are read up to the ends of their lines in the source. -/
def lineTags (draft : Draft) : List Text :=
  draft.versions ++ draft.serialFields ++ draft.serialDatas ++ draft.serials ++ draft.specs

/-- The texts of a draft through which a closing can get into the comment. Where there is room for
one line only, that is the description without its line ends. -/
def exposed (target : Int) (draft : Draft) : List Text :=
  match draft.description?, target with
  | some body, 1 => [body.filter (· ≠ '\n')]
  | description, _ => description.toList ++ draft.lineTags

/-- The other texts of a draft have no closings. -/
structure Clean (draft : Draft) : Prop where
  deprecated : ∀ text ∈ draft.deprecated, ¬ HasClosing text
  sees : ∀ text ∈ draft.sees, ¬ HasClosing text
  sinces : ∀ text ∈ draft.sinces, ¬ HasClosing text
  params : ∀ param ∈ draft.params, ¬ HasClosing param.name ∧ ¬ HasClosing param.description
  returns : ∀ text ∈ draft.returns, ¬ HasClosing text
  throws : ∀ text ∈ draft.throws, ¬ HasClosing text
  authors : ∀ text ∈ draft.authors, ¬ HasClosing text

/-- Another description, and fewer entries of some tags. -/
theorem Clean.restrict (h : draft.Clean) {body : Option Text} {sees returns throws : List Text}
    (hsees : sees ⊆ draft.sees) (hparams : params ⊆ draft.params)
    (hreturns : returns ⊆ draft.returns) (hthrows : throws ⊆ draft.throws) :
    Clean { draft with
      body := body, sees := sees, params := params, returns := returns, throws := throws } where
  deprecated := h.deprecated
  sees text ht := h.sees text (hsees ht)
  sinces := h.sinces
  params param hp := h.params param (hparams hp)
  returns text ht := h.returns text (hreturns ht)
  throws text ht := h.throws text (hthrows ht)
  authors := h.authors

theorem Clean.withBody (h : draft.Clean) (body : Option Text) : Clean { draft with body := body } :=
  h.restrict (List.Subset.refl _) (List.Subset.refl _) (List.Subset.refl _) (List.Subset.refl _)

theorem ite_nil_subset {α : Type} (p : Prop) [Decidable p] (xs : List α) :
    (if p then [] else xs) ⊆ xs := by
  split_ifs <;> simp

theorem documented_subset {α : Type} (name : α → Text) (values : List Text) (entries : List α) :
    documented name values entries ⊆ entries := by
  unfold documented
  grind

theorem hasClosing_formatBlockTags (style : Style) (h : draft.Clean) :
    HasClosing (formatBlockTags style none draft) ↔ ∃ value ∈ draft.lineTags, HasClosing value := by
  have hnone : ∀ {values : List Text}, (∀ value ∈ values, ¬ HasClosing value) →
      ¬ ∃ value ∈ values, HasClosing value := fun h ⟨value, hmem, hvalue⟩ => h value hmem hvalue
  have hblocks : formatBlockTags style none draft =
      [formatTags style none "@author  ".toList draft.authors,
        formatTags style none "@version ".toList draft.versions,
        formatParams style none draft.params,
        formatTags style none "@return  ".toList draft.returns,
        formatTags style none "@throws  ".toList draft.throws,
        formatTags style none "@serialField ".toList draft.serialFields,
        formatTags style none "@serialData ".toList draft.serialDatas,
        formatTags style none "@see     ".toList draft.sees,
        formatTags style none "@since   ".toList draft.sinces,
        formatTags style none "@serial  ".toList draft.serials,
        formatTags style none "@spec    ".toList draft.specs].flatMap id := by
    simp [formatBlockTags]
  rw [hblocks, hasClosing_flatMap (by simp [atLineStart_formatTags, atLineStart_formatParams])]
  simp only [mem_cons, not_mem_nil, or_false, exists_eq_or_imp, exists_eq_left, id_eq]
  rw [hasClosing_formatTags _ (by decide) (by decide),
    hasClosing_formatTags _ (by decide) (by decide),
    hasClosing_formatTags _ (by decide) (by decide),
    hasClosing_formatTags _ (by decide) (by decide),
    hasClosing_formatTags _ (by decide) (by decide),
    hasClosing_formatTags _ (by decide) (by decide),
    hasClosing_formatTags _ (by decide) (by decide),
    hasClosing_formatTags _ (by decide) (by decide),
    hasClosing_formatTags _ (by decide) (by decide),
    hasClosing_formatTags _ (by decide) (by decide)]
  simp [iff_false_intro (not_hasClosing_formatParams style h.params), iff_false_intro (hnone
    h.authors), iff_false_intro (hnone h.returns), iff_false_intro (hnone h.throws), iff_false_intro
    (hnone h.sees), iff_false_intro (hnone h.sinces), lineTags, or_and_right, exists_or]

theorem atLineStart_paragraph (style : Style) (width : Option Int) (text : Option Text) :
    AtLineStart ((text.map (formatParagraph style width)).getD []) := by
  cases text with
  | none => exact atLineStart_nil
  | some text => exact atLineStart_concat.mpr rfl

theorem hasClosing_paragraph (style : Style) (text : Option Text) :
    HasClosing ((text.map (formatParagraph style none)).getD []) ↔ ∃ t ∈ text, HasClosing t := by
  cases text with
  | none => simp
  | some text =>
    rw [Option.map_some, Option.getD_some, formatParagraph, hasClosing_concat (by decide), wrap,
      hasClosing_concat (by decide)]
    simp

/-- Formatting without wrapping shows the closings of the texts that are exposed, and no others. -/
theorem hasClosing_format (style : Style) (target : Int) (h : draft.Clean) :
    HasClosing (format style none target draft) ↔
      ∃ text ∈ draft.exposed target, HasClosing text := by
  have hlast : ∀ text : Text,
      HasClosing (if endsWith "\n\n".toList text then text.dropLast else text) ↔
        HasClosing text := by
    intro text
    split_ifs with hend
    · obtain ⟨u, rfl⟩ := endsWith_iff.mp hend
      grind [show "\n\n".toList = ['\n'] ++ ['\n'] from rfl, hasClosing_concat (c := '\n') (by
        decide)]
    · rfl
  have hnotice : ¬ ∃ t ∈ (draft.deprecated.filter (· ≠ [])).map ("@deprecated ".toList ++ ·),
      HasClosing t := by
    rintro ⟨t, ht, hclosing⟩
    obtain ⟨text, htext, rfl⟩ := Option.map_eq_some_iff.mp ht
    have htag : "@deprecated ".toList.getLast? ≠ some '*' := by decide
    rw [hasClosing_append fun hstar => absurd hstar htag] at hclosing
    rcases hclosing with hclosing | hclosing
    · exact not_hasClosing_of_notMem (by decide) hclosing
    · exact h.deprecated text (Option.eq_some_of_filter_eq_some htext) hclosing
  unfold exposed
  split
  · next body hbody =>
    simp only [format, hbody]
    rw [hasClosing_concat (by decide)]
    simp
  · next hother =>
    unfold format
    split
    · next body hbody => exact absurd rfl (hother body hbody)
    · rw [hlast, append_assoc, (atLineStart_paragraph style none _).hasClosing_append,
        (atLineStart_paragraph style none _).hasClosing_append, hasClosing_paragraph,
        hasClosing_paragraph, hasClosing_formatBlockTags style h, iff_false_intro hnotice, false_or]
      simp [or_and_right, exists_or]

end Draft

/-! ### Resizing -/

namespace Layout

variable {layout : Layout}

/-- A layout without a width shows the closings of the texts that its draft exposes, and no
others. -/
structure Faithful (layout : Layout) : Prop where
  width : layout.width = none
  initialWidth : layout.initialWidth = none
  /-- The texts that are not exposed have no closings. -/
  clean : layout.draft.Clean
  hasClosing_iff : HasClosing layout.comment ↔
    ∃ text ∈ layout.draft.exposed layout.target, HasClosing text

theorem faithful_build (style : Style) (hwidth : layout.width = none)
    (hinitial : layout.initialWidth = none) (hclean : layout.draft.Clean) :
    Faithful (layout.build style) where
  width := hwidth
  initialWidth := hinitial
  clean := hclean
  hasClosing_iff := by
    simp only [build, hwidth]
    exact Draft.hasClosing_format style layout.target hclean

/-- A step that rewrites the comment and keeps its closings. -/
theorem Faithful.rewrite (h : Faithful layout) {comment : Text}
    (hcomment : HasClosing comment ↔ HasClosing layout.comment) :
    Faithful { layout with comment := comment } where
  width := h.width
  initialWidth := h.initialWidth
  clean := h.clean
  hasClosing_iff := hcomment.trans h.hasClosing_iff

/-- Resizing keeps a layout faithful. -/
theorem faithful_kept (style : Style) : Kept style Faithful where
  build _ h := faithful_build style h.width h.initialWidth h.clean
  widen _ _ hwidth h := absurd hwidth (by simp [h.width])
  squeeze layout rule hrule h := by
    exact h.rewrite ((neutral_of_mem hrule).hasClosing_substitute _)
  rewrite layout rule hrule comment hcomment h := by
    rcases mem_append.mp hrule with hrule | hrule
    · exact h.rewrite ((neutral_of_mem hrule).hasClosing_substituteFirst? hcomment)
    · obtain ⟨u, rest, hs, rfl⟩ := exists_of_substituteFirst?_double hrule hcomment
      exact h.rewrite (hs ▸ hasClosing_newline_newline)
  raise _ h := ⟨h.width, h.initialWidth, h.clean, h.hasClosing_iff⟩
  dropDescription layout h := by
    unfold Layout.dropDescription
    split
    · exact faithful_build style h.width h.initialWidth (h.clean.withBody _)
    · exact h
  dropUnmentioned layout h := by
    rw [dropUnmentioned_eq]
    split
    · exact h
    · exact faithful_build style h.width h.initialWidth
        (h.clean.restrict (Draft.ite_nil_subset _ _) (Draft.ite_nil_subset _ _)
          (Draft.ite_nil_subset _ _) (Draft.ite_nil_subset _ _))
  join layout body _ h :=
    faithful_build style h.initialWidth h.initialWidth (h.clean.withBody _)
  cut layout body n _ h :=
    faithful_build style h.initialWidth h.initialWidth (h.clean.withBody _)

/-- Decoration puts a comment between its opening and its closing. -/
theorem exists_render_between (h : layout.comment ≠ []) :
    ∃ r, layout.render = "/**".toList ++ r ++ " */".toList ++ ['\n'] ∧
      (HasClosing r ↔ HasClosing layout.comment) ∧ r.head? ≠ some '/' := by
  have hlines : HasClosing (leadLines lineLead layout.comment) ↔ HasClosing layout.comment :=
    hasClosing_leadLines (not_hasClosing_of_notMem (by decide)) (by decide) _
  rw [render, if_neg h]
  cases layout.firstLine with
  | false =>
    refine ⟨'\n' :: leadLines lineLead layout.comment, by simp, ?_, by simp⟩
    rw [hasClosing_cons (by decide), hlines]
  | true =>
    obtain ⟨c, s, hc⟩ := exists_cons_of_ne_nil h
    have hraised : leadLines lineLead layout.comment =
        " *".toList ++ ' ' :: c :: leadLinesFrom lineLead (c = '\n') s := by
      rw [hc]
      rfl
    refine ⟨' ' :: c :: leadLinesFrom lineLead (c = '\n') s, ?_, ?_, by simp⟩
    · simp only [if_true, hraised, after?_append, Option.getD_some]
      simp
    · rw [← hlines, hraised, hasClosing_append (by simp)]
      simp [not_hasClosing_of_notMem]

end Layout

/-! ### The settled comment -/

namespace Comment

theorem tidyLine_of_spaces {line : Text} (h : ∀ c ∈ line, c = ' ') : tidyLine line = [] := by
  have hdrop : line.dropWhile (· = ' ') = [] := by simpa using h
  rw [tidyLine, hdrop]

theorem hasClosing_tidyLine (line : Text) : HasClosing (tidyLine line) ↔ HasClosing line := by
  by_cases hmem : ∃ c ∈ line, c ≠ ' ' ∧ c ≠ '*'
  · obtain ⟨c, hc, hspace, hstar⟩ := hmem
    rw [tidyLine_of_mem hc hspace hstar]
  · -- A line of spaces and stars has no slash, and tidying adds none.
    have hslash : '/' ∉ line := fun h => hmem ⟨'/', h, by decide, by decide⟩
    refine iff_of_false (not_hasClosing_of_notMem fun h => hslash ?_)
      (not_hasClosing_of_notMem hslash)
    unfold tidyLine at h
    split at h
    · simp at h
    · split at h
      · rw [trimEnd, mem_reverse] at h
        exact mem_reverse.mp ((dropWhile_sublist _).subset h)
      · exact h
    · exact h

/-- Settling a decorated comment keeps its opening and its closing, and what stands between them has
the same closings. -/
theorem exists_settle_between (span : CommentSpan) (k : Nat) {r : Text} (hr : r.head? ≠ some '/') :
    ∃ y, settle span (List.replicate k '\n' ++ ("/**".toList ++ r ++ " */".toList ++ ['\n'])) =
        List.replicate k '\n' ++ span.indent ++ ("/**".toList ++ (y ++ " */".toList)) ++
          spanEnd span ∧
      (HasClosing y ↔ HasClosing r) ∧ y.head? ≠ some '/' := by
  obtain ⟨ls, rest, rfl, hls, hrest⟩ := exists_unlines_append r
  have hempty : List.replicate k '\n' = unlines (List.replicate k []) := by
    induction k with
    | zero => rfl
    | succ k ih => rw [replicate_succ, replicate_succ, unlines_cons, ih]; rfl
  have hindent : tidyLine span.indent = [] := tidyLine_of_spaces fun _ => eq_space_of_mem_indent
  have hopening : ∀ l : Text, tidyLine (span.indent ++ ("/**".toList ++ l)) =
      span.indent ++ ("/**".toList ++ l) := fun l =>
    tidyLine_of_mem (c := '/') (by simp) (by decide) (by decide)
  cases ls with
  | nil =>
    have hlines : ∀ l ∈ List.replicate k ([] : Text), '\n' ∉ l := by simp
    have hopened : '\n' ∉ "/**".toList ++ rest := by simp [hrest]
    have h := settle_unlines span hlines hopened
    refine ⟨rest, ?_, Iff.rfl, hr⟩
    rw [map_replicate, append_nil, hindent, ← hempty] at h
    grind [unlines]
  | cons l ls =>
    have hall : ∀ m ∈ List.replicate k [] ++ ("/**".toList ++ l) :: ls, '\n' ∉ m := by
      intro m hm
      rcases mem_append.mp hm with hm | hm
      · simp [eq_of_mem_replicate hm]
      · grind
    have h := settle_unlines span hall hrest
    refine ⟨l ++ '\n' :: (unlines (ls.map fun l => tidyLine (span.indent ++ l)) ++
      (span.indent ++ rest)), ?_, ?_, ?_⟩
    · rw [map_append, map_replicate, append_nil, hindent, map_cons, hopening,
        unlines_append, unlines_append, ← hempty, unlines_cons, unlines_cons] at h
      grind [unlines_cons]
    · have hspaces : ¬ HasClosing span.indent :=
        not_hasClosing_of_notMem fun hmem => absurd (eq_space_of_mem_indent hmem) (by decide)
      have hend : span.indent.getLast? ≠ some '*' := fun hlast =>
        absurd (eq_space_of_mem_indent (mem_of_getLast? hlast)) (by decide)
      have htidied : ∀ m, HasClosing (tidyLine (span.indent ++ m)) ↔ HasClosing m := by
        intro m
        rw [hasClosing_tidyLine, hasClosing_append fun hlast => absurd hlast hend]
        simp [hspaces]
      rw [hasClosing_append_cons (by decide) (by decide), (atLineStart_unlines _).hasClosing_append,
        hasClosing_append fun hlast => absurd hlast hend, hasClosing_unlines, unlines_cons,
        append_assoc, cons_append, hasClosing_append_cons (by decide) (by decide),
        (atLineStart_unlines _).hasClosing_append, hasClosing_unlines]
      simp [htidied, hspaces]
    · grind [unlines_cons]

end Comment

/-! ### The draft of a comment -/

/-- All texts of a localized comment. -/
def LocalizedComment.texts (doc : LocalizedComment) : List Text :=
  doc.body.toList ++ doc.deprecated.toList ++ doc.sees ++ doc.sinces
    ++ doc.params.flatMap (fun tag => [tag.name, tag.description]) ++ doc.returns
    ++ doc.throws.flatMap fun tag => [tag.name, tag.description]

namespace Comment

/-- A text as documentation comments stand in a source: spaces, one closed comment that begins with
`/**`, and perhaps a line end. -/
def IsDocSpan (text : Text) : Prop :=
  ∃ n v stop, text = List.replicate n ' ' ++ ('/' :: '*' :: (v ++ ['*', '/']) ++ stop) ∧
    (v ++ ['*']).head? = some '*' ∧ ¬ HasClosing (v ++ ['*']) ∧ (stop = [] ∨ stop = ['\n'])

theorem IsDocSpan.closesAtEnd {text : Text} (h : IsDocSpan text) : ClosesAtEnd text := by
  obtain ⟨n, v, stop, rfl, hhead, hclosing, hstop⟩ := h
  have hblank : ∀ c ∈ stop, isBlank c := by
    rcases hstop with rfl | rfl
    · simp
    · exact forall_mem_singleton.mpr (by decide)
  -- The star of the opening does not make a closing with what follows, since that is a star.
  have hfree : ¬ HasClosing (List.replicate n ' ' ++ '/' :: '*' :: (v ++ ['*'])) := by
    obtain ⟨w, hw⟩ := head?_eq_some_iff.mp hhead
    rw [hw] at hclosing ⊢
    rw [hasClosing_append (by simp [getLast?_replicate]), hasClosing_cons (by decide),
      hasClosing_cons_cons]
    simp [hclosing, not_hasClosing_of_notMem]
  have htext : List.replicate n ' ' ++ ('/' :: '*' :: (v ++ ['*', '/']) ++ stop) =
      (List.replicate n ' ' ++ '/' :: '*' :: (v ++ ['*'])) ++ '/' :: stop := by
    simp
  rw [htext]
  intro a b hab
  rcases append_eq_append_iff.mp hab with ⟨w, -, hrest⟩ | ⟨w, hw, hrest⟩
  · have hstar : '*' ∈ '/' :: stop := by simp [hrest]
    rcases mem_cons.mp hstar with hstar | hstar
    · exact absurd hstar (by decide)
    · exact absurd (hblank _ hstar) (by decide)
  · match w with
    | [] => grind
    | [c] =>
      obtain ⟨-, -, rfl⟩ := by simpa using hrest
      exact hblank
    | c :: d :: w =>
      simp only [cons_append, List.cons.injEq] at hrest
      obtain ⟨rfl, rfl, -⟩ := hrest
      exact absurd (hasClosing_iff.mpr ⟨a, w, hw⟩) hfree

end Comment

namespace Draft

/-- The name of an exception that inherits its text is a part of the value. -/
theorem infix_of_inheritedException? {value exception : Text}
    (h : inheritedException? value = some exception) : exception <:+: value := by
  simp only [inheritedException?, Option.ite_none_right_eq_some, Option.some.injEq] at h
  obtain ⟨-, rfl⟩ := h
  have hsuffix : afterLast '.' (value.takeWhile fun c => !isBlank c) <:+
      value.takeWhile fun c => !isBlank c := by
    grind [afterLast, cutLast]
  exact hsuffix.isInfix.trans ( takeWhile_prefix _).isInfix

theorem not_hasClosing_of_mem_inheritThrows {values entries : List Text}
    (hvalues : ∀ value ∈ values, ¬ HasClosing value)
    (hentries : ∀ entry ∈ entries, ¬ HasClosing entry) {entry : Text}
    (h : entry ∈ inheritThrows values entries) : ¬ HasClosing entry := by
  have hexceptions : ∀ exception ∈ values.filterMap inheritedException?,
      ¬ HasClosing exception := by
    intro exception hmem hclosing
    obtain ⟨value, hvalue, hinherited⟩ := mem_filterMap.mp hmem
    exact hvalues value hvalue (hclosing.of_infix (infix_of_inheritedException? hinherited))
  unfold inheritThrows at h
  generalize values.filterMap inheritedException? = exceptions at h hexceptions
  induction exceptions generalizing entries with
  | nil => exact hentries entry h
  | cons exception exceptions ih =>
    rw [forall_mem_cons] at hexceptions
    refine ih ?_ h hexceptions.2
    intro text htext
    obtain ⟨old, hold, rfl⟩ := mem_map.mp htext
    split
    · rw [hasClosing_append fun _ => by decide]
      exact not_or.mpr ⟨hexceptions.1, not_hasClosing_of_notMem (by decide)⟩
    · exact hentries old hold

theorem Clean.trimToTags {draft : Draft} (h : draft.Clean) : draft.trimToTags.Clean :=
  h.restrict (documented_subset _ _ _) (documented_subset _ _ _) (ite_nil_subset _ _)
    (documented_subset _ _ _)

theorem source_prepare (source : Text) (doc : LocalizedComment) :
    (prepare source doc).source = substitute exceptionTagRule source := by
  dsimp only [prepare]
  split <;> rfl

theorem body_prepare (source : Text) (doc : LocalizedComment) :
    (prepare source doc).body =
      if isTagsOnly (substitute exceptionTagRule source) then none else doc.body := by
  dsimp only [prepare]
  split <;> rfl

/-- The draft of a comment has closings in no texts but those that are exposed. -/
theorem clean_prepare {source : Text} (hsource : ClosesAtEnd source) {doc : LocalizedComment}
    (hdoc : ∀ text ∈ doc.texts, ¬ HasClosing text) : (prepare source doc).Clean := by
  have htrim : ∀ (draft : Draft) (tagsOnly : Bool), draft.Clean →
      (if tagsOnly then draft.trimToTags else draft).Clean := by
    intro draft tagsOnly h
    cases tagsOnly with
    | false => exact h
    | true => exact h.trimToTags
  have hnormal := ClosesAtEnd.exceptionTagRule hsource
  simp only [LocalizedComment.texts, forall_mem_append, forall_mem_flatMap,
    Option.mem_toList] at hdoc
  obtain ⟨⟨⟨⟨⟨⟨-, hdeprecated⟩, hsees⟩, hsinces⟩, hparams⟩, hreturns⟩, hthrows⟩ := hdoc
  refine htrim _ _ ?_
  exact {
    deprecated := by
      intro text htext
      simp only [Option.mem_def, Option.ite_none_right_eq_some] at htext
      exact hdeprecated text htext.2
    sees := hsees
    sinces := hsinces
    params := by
      intro param hparam
      grind
    returns := hreturns
    throws := by
      intro entry hentry
      refine not_hasClosing_of_mem_inheritThrows
        (fun _ => not_hasClosing_of_mem_wrappedTagValues hnormal) ?_ hentry
      intro entry hentry
      obtain ⟨tag, htag, rfl⟩ := mem_map.mp hentry
      rw [NamedTag.entry, hasClosing_append_cons (by decide) (by decide)]
      grind
    authors := fun _ => not_hasClosing_of_mem_wrappedTagValues hnormal }

end Draft

/-! ### The replacement -/

/-- The texts of a draft through which a closing can get into a comment of one or two lines: the
description, or else the first entry of `@since`, without its line ends. -/
def Draft.exposedShort (draft : Draft) : List Text :=
  match draft.description?, draft.sinces with
  | some body, _ => [body.filter (· ≠ '\n')]
  | none, since :: _ => [since.filter (· ≠ '\n')]
  | none, [] => []

namespace Comment

variable {c : Char} {doc : LocalizedComment} {draft : Draft} {span : CommentSpan} {style : Style}

/-- The layout that a comment of more than two lines ends up with. -/
def finalLayout (style : Style) (span : CommentSpan) (draft : Draft) : Layout :=
  let first := firstLayout style span draft
  if first.height = first.target then first else first.resize style

/-- The texts through which a closing can get into the replacement of a comment. -/
def exposedTexts (style : Style) (span : CommentSpan) (doc : LocalizedComment) : List Text :=
  let draft := draftFor span doc
  if Text.height span.text ≤ 2 then draft.exposedShort
  else
    let layout := finalLayout style span draft
    if layout.fits then layout.draft.exposed layout.target else []

theorem isBlank_of_mem_indent (h : c ∈ span.indent) : isBlank c := by
  rw [eq_space_of_mem_indent h]
  decide

theorem isBlank_of_mem_spanEnd (h : c ∈ spanEnd span) : isBlank c := by
  unfold spanEnd at h
  split at h
  · rw [mem_singleton.mp h]
    decide
  · simp at h

/-- Opening, content and closing are one comment exactly if the content has no closing. -/
theorem isLoneComment_decorated {a y b : Text} (ha : ∀ c ∈ a, isBlank c) (hb : ∀ c ∈ b, isBlank c)
    (hy : y.head? ≠ some '/') :
    isLoneComment (a ++ ("/**".toList ++ (y ++ " */".toList)) ++ b) = true ↔ ¬ HasClosing y := by
  have h := isLoneComment_iff (v := '*' :: (y ++ [' '])) ha hb
  have htext : a ++ ("/**".toList ++ (y ++ " */".toList)) ++ b =
      a ++ ('/' :: '*' :: (('*' :: (y ++ [' '])) ++ ['*', '/']) ++ b) := by
    simp
  rw [htext, h, not_iff_not, hasClosing_concat (by decide), ← cons_append,
    hasClosing_concat (by decide), ← singleton_append, hasClosing_append fun _ => hy]
  simp

/-- A comment of one or two lines is replaced by one comment exactly if its content has no
closing. -/
theorem isLoneComment_synthesizeShort_iff (hne : synthesizeShort span draft ≠ []) :
    isLoneComment (synthesizeShort span draft) = true ↔
      ∀ text ∈ draft.exposedShort, ¬ HasClosing text := by
  have hindent : ∀ c ∈ span.indent, isBlank c := fun _ => isBlank_of_mem_indent
  -- Behind the content there is nothing or a line end with the indentation.
  have hcontent : ∀ content : Text,
      isLoneComment (span.indent ++ "/** ".toList ++ content
        ++ (if Text.height span.text = 2 then '\n' :: span.indent else []) ++ " */".toList
        ++ spanEnd span) = true ↔ ¬ HasClosing content := by
    intro content
    set mid := if Text.height span.text = 2 then '\n' :: span.indent else [] with hmid
    have hblank : ∀ c ∈ mid, isBlank c := by
      intro c hc
      rw [hmid] at hc
      split at hc
      · rcases mem_cons.mp hc with rfl | hc
        · decide
        · exact hindent c hc
      · simp at hc
    have hend : ∀ c ∈ spanEnd span, isBlank c := fun _ => isBlank_of_mem_spanEnd
    have h := isLoneComment_decorated (y := ' ' :: (content ++ mid)) hindent hend (by simp)
    have hmidClosing : HasClosing (' ' :: (content ++ mid)) ↔ HasClosing content := by
      rw [hasClosing_cons (by decide), hasClosing_append fun _ hslash =>
        absurd (hblank _ (mem_of_head? hslash)) (by decide)]
      simp [not_hasClosing_of_isBlank hblank]
    grind
  have hsince : ∀ since : Text, HasClosing ("@since ".toList ++ since) ↔ HasClosing since := by
    intro since
    have hend : "@since ".toList.getLast? ≠ some '*' := by decide
    rw [hasClosing_append fun hstar => absurd hstar hend]
    simp [not_hasClosing_of_notMem]
  unfold synthesizeShort at hne ⊢
  unfold Draft.exposedShort
  simp only at hne ⊢
  generalize draft.description? = description, draft.sinces = sinces at hne ⊢
  cases description with
  | some body => simpa [spanEnd] using hcontent (body.filter (· ≠ '\n'))
  | none =>
    cases sinces with
    | nil => exact absurd rfl hne
    | cons since _ =>
      have h := hcontent ("@since ".toList ++ since.filter (· ≠ '\n'))
      rw [hsince] at h
      simpa [spanEnd] using h

/-- The final layout shows the closings of the texts that it exposes, and no others. -/
theorem faithful_finalLayout (hwidth : style.layout.initialWidth = none) (span : CommentSpan)
    (h : draft.Clean) : (finalLayout style span draft).Faithful := by
  have hfirst : (firstLayout style span draft).Faithful := by
    refine Layout.faithful_build style ?_ ?_ h <;> rw [hwidth] <;> rfl
  dsimp only [finalLayout]
  split
  · exact hfirst
  · exact (Layout.faithful_kept style).resize hfirst

/-- A layout that fits is settled to one comment exactly if its lines have no closing. -/
theorem isLoneComment_settle_pad_iff (span : CommentSpan) {layout : Layout}
    (h : layout.comment ≠ []) :
    isLoneComment (settle span layout.pad) = true ↔ ¬ HasClosing layout.comment := by
  obtain ⟨r, hrender, hclosing, hhead⟩ := Layout.exists_render_between h
  obtain ⟨y, hsettle, hsettled, hy⟩ :=
    exists_settle_between span (layout.target - layout.height).toNat hhead
  have hlead : ∀ c ∈ List.replicate (layout.target - layout.height).toNat '\n' ++ span.indent,
      isBlank c := by
    intro c hc
    rcases mem_append.mp hc with hc | hc
    · rw [eq_of_mem_replicate hc]
      decide
    · exact isBlank_of_mem_indent hc
  rw [Layout.pad, if_neg h, hrender, hsettle,
    isLoneComment_decorated hlead (fun _ => isBlank_of_mem_spanEnd) hy, hsettled, hclosing]

theorem IsDocSpan.isLoneComment {text : Text} (h : IsDocSpan text) : isLoneComment text = true := by
  obtain ⟨n, v, stop, rfl, -, hclosing, hstop⟩ := h
  refine (isLoneComment_iff (fun c hc => ?_) fun c hc => ?_).mpr hclosing
  · rw [eq_of_mem_replicate hc]
    decide
  · rcases hstop with rfl | rfl
    · simp at hc
    · rw [mem_singleton.mp hc]
      decide

/-- The description of a draft has no closings before it is laid out. -/
theorem not_hasClosing_of_mem_body (hspan : ClosesAtEnd span.text)
    (hdoc : ∀ text ∈ doc.texts, ¬ HasClosing text) {body : Text}
    (hbody : body ∈ (draftFor span doc).body) : ¬ HasClosing body := by
  obtain ⟨old, hold, rfl⟩ := Option.map_eq_some_iff.mp hbody
  rw [Draft.body_prepare, Option.ite_none_left_eq_some] at hold
  rw [Draft.source_prepare]
  refine not_hasClosing_fillBlocks (ClosesAtEnd.exceptionTagRule hspan) (hdoc old ?_)
  simp [LocalizedComment.texts, hold.2]

/-- The replacement of a comment of three lines or more in terms of its final layout. -/
theorem text_synthesize (h : ¬ Text.height span.text ≤ 2) (doc : LocalizedComment) :
    (synthesize style span doc).text =
      if (firstLayout style span (draftFor span doc)).comment = [] then []
      else
        let layout := finalLayout style span (draftFor span doc)
        if layout.fits then
          if layout.comment = [] then [] else settle span layout.pad
        else span.text := by
  rw [synthesize, if_neg h, apply_ite Synthesis.text, apply_ite Synthesis.text,
    apply_ite Synthesis.text]
  rfl

/-- The replacement of a comment is again one closed comment exactly if no text that it exposes has
a closing. The description has none before it is laid out: it can only get one where its lines are
joined, and other texts that are exposed are values read up to the ends of their lines. -/
theorem isLoneComment_synthesize_iff {style : Style} (hwidth : style.layout.initialWidth = none)
    {span : CommentSpan} (hspan : IsDocSpan span.text) {doc : LocalizedComment}
    (hdoc : ∀ text ∈ doc.texts, ¬ HasClosing text) (hne : (synthesize style span doc).text ≠ []) :
    (isLoneComment (synthesize style span doc).text = true ↔
      ∀ text ∈ exposedTexts style span doc, ¬ HasClosing text) ∧
    ∀ body ∈ (draftFor span doc).body, ¬ HasClosing body := by
  refine ⟨?_, fun body => not_hasClosing_of_mem_body hspan.closesAtEnd hdoc⟩
  have hclean : (draftFor span doc).Clean :=
    (Draft.clean_prepare hspan.closesAtEnd hdoc).withBody _
  have hfaithful := faithful_finalLayout hwidth span hclean
  unfold exposedTexts
  by_cases hshort : Text.height span.text ≤ 2
  · have hsynthesize : synthesize style span doc =
        { text := synthesizeShort span (draftFor span doc) } := if_pos hshort
    rw [hsynthesize] at hne ⊢
    simp only [if_pos hshort]
    exact isLoneComment_synthesizeShort_iff hne
  rw [text_synthesize hshort] at hne ⊢
  simp only [if_neg hshort] at hne ⊢
  by_cases hfirst : (firstLayout style span (draftFor span doc)).comment = []
  · simp [hfirst] at hne
  simp only [if_neg hfirst] at hne ⊢
  by_cases hfits : (finalLayout style span (draftFor span doc)).fits
  · simp only [if_pos hfits] at hne ⊢
    by_cases hcomment : (finalLayout style span (draftFor span doc)).comment = []
    · simp [hcomment] at hne
    rw [if_neg hcomment, isLoneComment_settle_pad_iff span hcomment, hfaithful.hasClosing_iff]
    simp
  · simp [hfits, hspan.isLoneComment]

/-- A star before a line end and a slash behind it, in a description whose lines are not joined, and
a value on a line of its own. -/
theorem isLoneComment_synthesize_iff_two_lines :
    let span : CommentSpan :=
      { text := "  /**\n   * Old.\n   * More.\n   * @version 1\n   */\n".toList }
    let doc : LocalizedComment := { body := some "New *\n/ text.".toList }
    IsDocSpan span.text ∧ (∀ text ∈ doc.texts, ¬ HasClosing text) ∧
      (synthesize {} span doc).text ≠ [] ∧
      isLoneComment (synthesize {} span doc).text = true ∧
      ∀ body ∈ (draftFor span doc).body, ¬ HasClosing body := by
  intro span doc
  have hspan : IsDocSpan span.text :=
    ⟨2, "*\n   * Old.\n   * More.\n   * @version 1\n   ".toList, ['\n'], rfl, rfl,
      by rw [HasClosing]; decide, .inr rfl⟩
  have hdoc : ∀ text ∈ doc.texts, ¬ HasClosing text := by
    unfold HasClosing
    decide
  have hne : (synthesize {} span doc).text ≠ [] := by decide +kernel
  have hexposed : ∀ text ∈ exposedTexts {} span doc, ¬ HasClosing text := by
    unfold HasClosing
    decide +kernel
  have h := isLoneComment_synthesize_iff rfl hspan hdoc hne
  grind

/-- A value on the last line of a comment is read with the closing behind it, and the replacement
closes twice. -/
theorem synthesize_closes_twice_last_line_value :
    let span : CommentSpan := { text := "/**\n * foo\n *\n * @version 1 */\n".toList }
    let doc : LocalizedComment := { body := some "bar".toList }
    IsDocSpan span.text ∧ (∀ text ∈ doc.texts, ¬ HasClosing text) ∧
      (synthesize {} span doc).text = "/**\n * bar\n * @version 1 */\n */\n".toList ∧
      isLoneComment (synthesize {} span doc).text = false := by
  refine ⟨⟨0, "*\n * foo\n *\n * @version 1 ".toList, ['\n'], rfl, rfl, ?_, .inr rfl⟩, ?_, ?_, ?_⟩
  · rw [HasClosing]
    decide
  · unfold HasClosing
    decide
  · decide +kernel
  · decide +kernel

end Comment

end DocGraft
