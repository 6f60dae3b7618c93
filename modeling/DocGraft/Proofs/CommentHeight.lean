import DocGraft.Comment.Synthesis
import DocGraft.Proofs.Resizing
import DocGraft.Proofs.TextLines
import DocGraft.Proofs.TextSearch

/-!
# The height of a replacement

A replacement takes exactly the lines of the comment that it replaces. Decoration adds two lines to
those of a layout, whether or not its first line is raised, and line ends above the comment make up
for what a layout that fits is too low. Indenting and tidying work line by line.

The main results are `Layout.count_pad` and `Comment.synthesize_keeps_shape`.
-/

namespace DocGraft

open List Text Comment

/-! ### Decoration -/

namespace Layout

variable {layout : Layout}

theorem exists_render_eq (h : layout.comment ≠ []) : ∃ s, layout.render = s ++ " */\n".toList := by
  rw [render, if_neg h]
  exact ⟨_, rfl⟩

/-- Decoration takes two lines. With a raised first line, the line that is not counted stands on
the line of the opening. -/
theorem count_render (h : layout.comment ≠ []) :
    (layout.render.count '\n' : Int) = layout.height + 2 := by
  obtain ⟨c, s, hc⟩ := exists_cons_of_ne_nil h
  have hlines : (leadLines lineLead layout.comment).count '\n' = layout.comment.count '\n' :=
    count_leadLinesFrom lineLead (by decide) true layout.comment
  have hraised : leadLines lineLead layout.comment =
      " *".toList ++ ' ' :: c :: leadLinesFrom lineLead (c = '\n') s := by
    rw [hc]
    rfl
  rw [render, if_neg h]
  cases hf : layout.firstLine with
  | false =>
    have hheight : layout.height = layout.comment.count '\n' := by simp [height, hf]
    grind
  | true =>
    have hheight : layout.height = layout.comment.count '\n' - 1 := by simp [height, hf]
    have hrest : ((after? " *".toList (leadLines lineLead layout.comment)).getD
        (leadLines lineLead layout.comment)).count '\n' = layout.comment.count '\n' := by
      rw [← hlines, hraised, after?_append, Option.getD_some, count_append]
      simp
    grind

/-- A layout that fits is padded to the height that it should have, with its decoration. -/
theorem count_pad (h : layout.comment ≠ []) (hf : layout.fits) :
    (layout.pad.count '\n' : Int) = layout.target + 2 := by
  have hrender := count_render h
  have hroom := fits_iff.mp hf
  rw [pad, if_neg h, count_append, count_replicate_self]
  omega

theorem exists_pad_eq (h : layout.comment ≠ []) :
    ∃ s, layout.pad = s ++ " */".toList ++ ['\n'] := by
  obtain ⟨s, hs⟩ := exists_render_eq h
  refine ⟨List.replicate (layout.target - layout.height).toNat '\n' ++ s, ?_⟩
  rw [pad, if_neg h, hs]
  simp

end Layout

/-! ### Tidying lines -/

namespace Comment

variable {line : Text}

@[simp] theorem tidyLine_nil : tidyLine [] = [] := rfl

/-- A line with a character other than a space or a star is tidy. -/
theorem tidyLine_of_mem {c : Char} (hc : c ∈ line) (hs : c ≠ ' ') (ht : c ≠ '*') :
    tidyLine line = line := by
  have hmem : c ∈ line.dropWhile (· = ' ') := by
    rw [← takeWhile_append_dropWhile (p := (· = ' ')) (l := line), mem_append] at hc
    rcases hc with hc | hc
    · exact absurd (by simpa using mem_takeWhile_imp hc) hs
    · exact hc
  unfold tidyLine
  grind

/-- What tidying leaves of an indented line is nothing or still indented. -/
theorem prefix_tidyLine {indent : Text} (hi : ∀ c ∈ indent, c = ' ')
    (h : tidyLine (indent ++ line) ≠ []) : indent <+: tidyLine (indent ++ line) := by
  have hdrop : (indent ++ line).dropWhile (· = ' ') = line.dropWhile (· = ' ') :=
    dropWhile_append_of_pos (by simpa using hi)
  have hsplit := takeWhile_append_dropWhile (p := (· = ' ')) (l := line)
  unfold tidyLine at h ⊢
  rw [hdrop] at h ⊢
  split
  · next hn => simp [hn] at h
  · next rest hr =>
    split
    · next hall =>
      rw [hr] at hsplit
      rw [← hsplit, ← append_assoc, trimEnd_append_cons _ (by decide) (by simpa using hall),
        append_assoc]
      exact prefix_append _ _
    · exact prefix_append _ _
  · exact prefix_append _ _

theorem notMem_tidyLine (h : '\n' ∉ line) : '\n' ∉ tidyLine line := by
  intro hmem
  unfold tidyLine at hmem
  split at hmem
  · simp at hmem
  · split at hmem
    · rw [trimEnd, mem_reverse] at hmem
      exact h (mem_reverse.mp ((dropWhile_sublist _).subset hmem))
    · exact h hmem
  · exact h hmem

end Comment

/-! ### The shape of a comment -/

/-- A text with the height of a comment, which ends with a line end if the comment does and is
indented like it. -/
structure Comment.SameShape (span : CommentSpan) (text : Text) : Prop where
  height : Text.height text = Text.height span.text
  lineEnd : text.getLast? = some '\n' ↔ span.text.getLast? = some '\n'
  indent : ∀ line ∈ lines text, line ≠ [] → startsWith span.indent line

namespace Comment

variable {ls : List Text} {s : Text} {span : CommentSpan}

def spanEnd (span : CommentSpan) : Text :=
  if span.text.getLast? = some '\n' then ['\n'] else []

/-- Indented lines, as many as those of the comment, with the line end that it has. -/
theorem sameShape_of_lines {last : Text} (hls : ∀ l ∈ ls ++ [last], '\n' ∉ l) (hne : last ≠ [])
    (hheight : ls.length + 1 = Text.height span.text)
    (hindent : ∀ l ∈ ls ++ [last], l ≠ [] → span.indent <+: l) :
    SameShape span (unlines ls ++ last ++ spanEnd span) := by
  have hfirst : ∀ l ∈ ls, '\n' ∉ l := fun l hl => hls l (mem_append_left _ hl)
  have hlast : '\n' ∉ last := hls last (by simp)
  have hcount : (unlines ls ++ last).count '\n' = ls.length := by
    rw [count_append, count_unlines hfirst, count_eq_zero_of_not_mem hlast, Nat.add_zero]
  have hend : (unlines ls ++ last).getLast? ≠ some '\n' := by
    grind
  by_cases hspan : span.text.getLast? = some '\n'
  · have hend' : spanEnd span = ['\n'] := by simp [spanEnd, hspan]
    rw [hend', ← unlines_concat]
    refine ⟨?_, ?_, ?_⟩
    · rw [Text.height, unlines_concat, count_append, hcount]
      simpa using hheight
    · simpa [unlines_concat] using hspan
    · intro line hl hne'
      rw [lines_unlines hls] at hl
      exact startsWith_iff.mpr (hindent line hl hne')
  · have hend' : spanEnd span = [] := by simp [spanEnd, hspan]
    rw [hend', append_nil]
    refine ⟨?_, ?_, ?_⟩
    · rw [Text.height, hcount, if_neg (not_or.mpr ⟨by simp [hne], hend⟩), hheight]
    · exact iff_of_false hend hspan
    · intro line hl hne'
      rw [lines_unlines_append hfirst hlast hne] at hl
      exact startsWith_iff.mpr (hindent line hl hne')

theorem eq_space_of_mem_indent {c : Char} (h : c ∈ span.indent) : c = ' ' := by
  simpa using mem_takeWhile_imp h

theorem notMem_indent (span : CommentSpan) : '\n' ∉ span.indent := fun h =>
  absurd (eq_space_of_mem_indent h) (by decide)

theorem one_le_height (h : s ≠ []) : 1 ≤ Text.height s := by
  unfold Text.height
  grind

/-- A comment of one or two lines is replaced by one of as many lines. -/
theorem synthesizeShort_shape (hspan : span.text ≠ []) (hheight : Text.height span.text ≤ 2)
    (draft : Draft) :
    synthesizeShort span draft = [] ∨ SameShape span (synthesizeShort span draft) := by
  have hlow := one_le_height hspan
  -- Whatever the content is, its line ends have been taken out.
  have hshape : ∀ content : Text, '\n' ∉ content →
      SameShape span (span.indent ++ "/** ".toList ++ content
        ++ (if Text.height span.text = 2 then '\n' :: span.indent else []) ++ " */".toList
        ++ spanEnd span) := by
    intro content hcontent
    have hi := notMem_indent span
    by_cases h : Text.height span.text = 2
    · have hlines : SameShape span (unlines [span.indent ++ "/** ".toList ++ content]
          ++ (span.indent ++ " */".toList) ++ spanEnd span) :=
        sameShape_of_lines (by simp [hi, hcontent]) (by simp) (by simp [h]) (by simp)
      simpa [h, unlines] using hlines
    · have hlines : SameShape span (unlines []
          ++ (span.indent ++ "/** ".toList ++ content ++ " */".toList) ++ spanEnd span) :=
        sameShape_of_lines (by simp [hi, hcontent]) (by simp) (by simp; omega) (by simp)
      simpa [h, unlines] using hlines
  have hfilter : ∀ s : Text, '\n' ∉ s.filter (· ≠ '\n') := by simp
  unfold synthesizeShort
  simp only
  split
  · exact .inl rfl
  · next content hcontent =>
    refine .inr (hshape content ?_)
    split at hcontent
    · obtain rfl := Option.some.inj hcontent
      exact hfilter _
    · obtain rfl := Option.some.inj hcontent
      simp
    · simp at hcontent

theorem tidyLine_closing (indent rest : Text) :
    tidyLine (indent ++ (rest ++ " */".toList)) = indent ++ (rest ++ " */".toList) :=
  tidyLine_of_mem (c := '/') (by simp) (by decide) (by decide)

/-- A decorated comment that ends with its closing is settled line by line. -/
theorem settle_unlines (span : CommentSpan) {rest : Text} (hls : ∀ l ∈ ls, '\n' ∉ l)
    (hrest : '\n' ∉ rest) :
    settle span (unlines ls ++ rest ++ " */".toList ++ ['\n']) =
      unlines (ls.map fun l => tidyLine (span.indent ++ l)) ++
        (span.indent ++ (rest ++ " */".toList)) ++ spanEnd span := by
  have hall : ∀ l ∈ ls ++ [rest ++ " */".toList], '\n' ∉ l := by
    intro l hl
    rcases mem_append.mp hl with hl | hl
    · exact hls l hl
    · rw [mem_singleton.mp hl]
      simp [hrest]
  have hlines : unlines ls ++ rest ++ " */".toList ++ ['\n'] =
      unlines (ls ++ [rest ++ " */".toList]) := by
    rw [unlines_concat]
    simp
  have hmap : mapLines tidyLine (leadLines span.indent (unlines (ls ++ [rest ++ " */".toList]))) =
      unlines (ls.map fun l => tidyLine (span.indent ++ l)) ++
        (span.indent ++ (rest ++ " */".toList)) ++ ['\n'] := by
    rw [leadLines_unlines _ hall, mapLines_unlines _ tidyLine_nil, map_map, map_append,
      map_singleton, unlines_concat]
    · simp only [Function.comp_apply, tidyLine_closing]
      rfl
    · grind [notMem_indent span]
  unfold settle
  simp only
  rw [hlines, hmap]
  split
  · next h => simp [spanEnd, h]
  · next h => simp [spanEnd, h]

theorem settle_shape (hheight : (s ++ " */".toList ++ ['\n']).count '\n' = Text.height span.text) :
    SameShape span (settle span (s ++ " */".toList ++ ['\n'])) := by
  obtain ⟨ls, rest, rfl, hls, hrest⟩ := exists_unlines_append s
  have hi := notMem_indent span
  rw [settle_unlines span hls hrest]
  refine sameShape_of_lines ?_ (by simp) ?_ ?_
  · intro l hl
    rcases mem_append.mp hl with hl | hl
    · obtain ⟨m, hm, rfl⟩ := mem_map.mp hl
      exact notMem_tidyLine (by simp [hi, hls m hm])
    · grind
  · grind [count_unlines hls]
  · intro l hl hne
    rcases mem_append.mp hl with hl | hl
    · obtain ⟨m, -, rfl⟩ := mem_map.mp hl
      exact prefix_tidyLine (fun _ => eq_space_of_mem_indent) hne
    · grind

/-- Synthesis gives nothing, the comment itself or a text of the same shape, for settings by which
decoration takes two lines. If the steps of width are positive, its widening loop comes to an end
by itself. -/
theorem synthesize_keeps_shape {style : Style} (hd : style.layout.decorationLines = 2)
    (hs : 0 < style.layout.widthStep) (hw : 0 < style.layout.wideWidthStep) {span : CommentSpan}
    (hspan : span.text ≠ []) (doc : LocalizedComment) :
    (∀ layout, Layout.Widens style layout (layout.widen style)) ∧
      ((synthesize style span doc).text = [] ∨ (synthesize style span doc).text = span.text ∨
        SameShape span (synthesize style span doc).text) := by
  refine ⟨Layout.widens_widen hs hw, ?_⟩
  unfold synthesize
  simp only
  by_cases hheight : Text.height span.text ≤ 2
  · rw [if_pos hheight]
    exact (synthesizeShort_shape hspan hheight _).imp_right .inr
  rw [if_neg hheight]
  set first := firstLayout style span (draftFor span doc)
  by_cases hfirst : first.comment = []
  · exact .inl (by rw [if_pos hfirst])
  rw [if_neg hfirst]
  have htarget : first.target = Text.height span.text - 2 := by
    change targetHeight style.layout span = _
    rw [targetHeight, hd, if_pos (by omega)]
  -- The layout is resized or not, and its target stays the same.
  set layout := if first.height = first.target then first else first.resize style with hlayout
  have hkept : layout.target = first.target := by
    rw [hlayout]
    split
    · rfl
    · exact (Layout.target_kept style first.target).resize rfl
  by_cases hfits : layout.fits
  · rw [if_pos hfits]
    by_cases hcomment : layout.comment = []
    · exact .inl (by rw [if_pos hcomment])
    rw [if_neg hcomment]
    obtain ⟨s, hpad⟩ := Layout.exists_pad_eq hcomment
    have hcount := Layout.count_pad hcomment hfits
    rw [hpad] at hcount ⊢
    exact .inr (.inr (settle_shape (by omega)))
  · grind

/-- A comment of four lines and a description that has to be wrapped. -/
theorem synthesize_keeps_shape_wrapped :
    let style : Style := { layout := { initialWidth := some 24 } }
    let span : CommentSpan := { text := "  /**\n   * Old.\n   * More.\n   */\n".toList }
    let doc : LocalizedComment := { body := some "The replacement of an old text.".toList }
    style.layout.decorationLines = 2 ∧ 0 < style.layout.widthStep ∧
      0 < style.layout.wideWidthStep ∧ span.text ≠ [] ∧
      (∀ layout, Layout.Widens style layout (layout.widen style)) ∧
      ((synthesize style span doc).text = [] ∨ (synthesize style span doc).text = span.text ∨
        SameShape span (synthesize style span doc).text) :=
  ⟨rfl, by decide, by decide, by decide,
    synthesize_keeps_shape rfl (by decide) (by decide) (by decide) _⟩

end Comment

end DocGraft
