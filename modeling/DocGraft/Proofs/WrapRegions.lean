import DocGraft.Proofs.TextSearch
import DocGraft.Proofs.WrapOverflow

/-!
# Preformatted regions between wrapped texts

A text is wrapped line by line, and the only thing that one line leaves to the next is whether the
text is preformatted there. A line that neither begins nor ends with a tag of preformatted text
leaves nothing, so that such lines can be wrapped in parts. Short texts are not treated in a way of
their own: if all of a text is lighter than the width, so is each of its lines.

The main results are `Comment.wrap_eq_wrapLines`, `Comment.wrapLines_append`,
`Comment.wrapLines_inside` and `Comment.wrap_preformatted`.
-/

namespace DocGraft

open List

namespace Text

variable {l s : Text} {ls : List Text}

theorem weight_le_unlines (h : l ∈ ls) : weight l ≤ weight (unlines ls) := by
  obtain ⟨before, after, rfl⟩ := append_of_mem h
  rw [unlines_append, unlines_cons, weight_append, weight_append]
  omega

/-- A text that does not end where a line begins is the text of its lines but for the last line
end. -/
theorem exists_lines (hne : s ≠ []) (hend : s.getLast? ≠ some '\n') :
    s ++ ['\n'] = unlines (lines s) ∧ ∀ l ∈ lines s, '\n' ∉ l ∧ weight l ≤ weight s := by
  obtain ⟨ls, rest, rfl, hls, hrest⟩ := exists_unlines_append s
  have hlast : rest ≠ [] := by
    rintro rfl
    rw [append_nil] at hne hend
    have hat := atLineStart_unlines ls
    obtain ⟨c, hc⟩ := Option.ne_none_iff_exists'.mp (mt getLast?_eq_none_iff.mp hne)
    exact hend (hc.trans (congrArg some (hat c hc)))
  rw [lines_unlines_append hls hrest hlast]
  refine ⟨(unlines_concat ls rest).symm, fun l hl => ?_⟩
  rw [weight_append]
  rcases mem_append.mp hl with hl | hl
  · exact ⟨hls l hl, (weight_le_unlines hl).trans (Nat.le_add_right _ _)⟩
  · rw [mem_singleton.mp hl]
    exact ⟨hrest, Nat.le_add_left _ _⟩

theorem lines_eq_of_unlines (hne : s ≠ []) (hend : s.getLast? ≠ some '\n')
    (hls : ∀ l ∈ ls, '\n' ∉ l) (h : s ++ ['\n'] = unlines ls) : lines s = ls := by
  obtain ⟨hsplit, hlines⟩ := exists_lines hne hend
  rw [← lines_unlines hls, ← h, hsplit, lines_unlines fun l hl => (hlines l hl).1]

theorem mem_lines_of_mem_fields (h : l ∈ fields '\n' s) (hne : l ≠ []) : l ∈ lines s := by
  rw [lines]
  split_ifs with hlast
  · obtain ⟨ls, hls⟩ := getLast?_eq_some_iff.mp hlast
    rw [hls] at h ⊢
    rw [dropLast_concat]
    exact (mem_append.mp h).resolve_right (by simpa using hne)
  · exact h

end Text

namespace Comment

open Text

variable {settings : WrapSettings} {width : Int} {ls : List Text}

theorem wrapPlain_of_weight_lt {line : Text} (h : weight line < width) :
    wrapPlain settings width line = line ++ ['\n'] := by
  rw [wrapPlain, if_pos h]

/-- Lines that are lighter than the width stay as they are. -/
theorem wrapLines_of_weight_lt (h : ∀ l ∈ ls, weight l < width) (preformatted : Bool) :
    wrapLines settings width preformatted ls = unlines ls := by
  induction ls generalizing preformatted with
  | nil => rfl
  | cons line ls ih =>
    obtain ⟨hline, hls⟩ := forall_mem_cons.mp h
    rw [wrapLines, unlines_cons]
    split
    · next hnil => rw [ih hls, hnil]; rfl
    · dsimp only
      generalize (if startsWith "</pre>".toList line then false else _) = inside
      cases inside with
      | true => rw [if_pos rfl, ih hls]
      | false =>
        rw [if_neg Bool.false_ne_true, ih hls, wrapPlain_of_weight_lt hline, append_assoc]
        rfl

/-- A text is wrapped line by line, also if it is short. -/
theorem wrap_eq_wrapLines {value : Text} (hne : value ≠ []) (hend : value.getLast? ≠ some '\n') :
    wrap settings (some width) value = wrapLines settings width false (lines value) := by
  rw [wrap]
  split_ifs with hshort
  · obtain ⟨hlines, hall⟩ := exists_lines hne hend
    rw [hlines, wrapLines_of_weight_lt]
    intro l hl
    have := (hall l hl).2
    omega
  · rfl

/-- A line neither begins nor ends with a tag. -/
def Untagged (tag line : Text) : Prop :=
  startsWith tag line = false ∧ endsWith tag line = false

instance (tag line : Text) : Decidable (Untagged tag line) :=
  inferInstanceAs (Decidable (_ ∧ _))

/-- Lines without tags of preformatted text are wrapped on their own. -/
theorem wrapLines_append (hopen : ∀ l ∈ ls, Untagged "<pre>".toList l)
    (hclose : ∀ l ∈ ls, Untagged "</pre>".toList l) (rest : List Text) :
    wrapLines settings width false (ls ++ rest) =
      wrapLines settings width false ls ++ wrapLines settings width false rest := by
  induction ls with
  | nil => rfl
  | cons line ls ih =>
    obtain ⟨hline, hls⟩ := forall_mem_cons.mp hopen
    obtain ⟨hline', hls'⟩ := forall_mem_cons.mp hclose
    rw [cons_append, wrapLines, wrapLines, ih hls hls']
    split
    · rfl
    · simp only [hline.1, hline.2, hline'.1, ih hls hls', Bool.false_eq_true, if_false,
        append_assoc]

/-- Lines inside preformatted text stay as they are. -/
theorem wrapLines_inside (hclose : ∀ l ∈ ls, Untagged "</pre>".toList l) (rest : List Text) :
    wrapLines settings width true (ls ++ rest) =
      unlines ls ++ wrapLines settings width true rest := by
  induction ls with
  | nil => rfl
  | cons line ls ih =>
    obtain ⟨hline, hls⟩ := forall_mem_cons.mp hclose
    rw [cons_append, wrapLines, unlines_cons]
    split
    · next hnil => rw [ih hls, hnil]; rfl
    · simp only [hline.1, hline.2, ih hls, Bool.false_eq_true, if_false, ite_self, if_true,
        Bool.not_false,
        append_assoc, cons_append]

theorem wrapLines_open (rest : List Text) :
    wrapLines settings width false ("<pre>".toList :: rest) =
      "<pre>\n".toList ++ wrapLines settings width true rest := by
  rw [wrapLines, if_neg (by decide)]
  rfl

theorem wrapLines_close (hwidth : 7 ≤ width) (preformatted : Bool) (rest : List Text) :
    wrapLines settings width preformatted ("</pre>".toList :: rest) =
      "</pre>\n".toList ++ wrapLines settings width false rest := by
  have hweight : (weight "</pre>".toList : Int) < width := by
    have : weight "</pre>".toList = 6 := by decide +kernel
    omega
  rw [wrapLines, if_neg (by decide)]
  simp only [show startsWith "</pre>".toList "</pre>".toList = true from rfl,
    show endsWith "<pre>".toList "</pre>".toList = false from rfl, if_true,
        Bool.false_eq_true, if_false]
  rw [wrapPlain_of_weight_lt hweight]
  rfl

/-- A preformatted region passes unchanged and separates the texts around it, which are wrapped as
on their own. Tags in the text behind it do no harm, as nothing of the region is left there. -/
theorem wrap_preformatted (hwidth : 7 ≤ width) {a c b : Text} (ha : a ≠ []) (hb : b ≠ [])
    (haend : a.getLast? ≠ some '\n') (hbend : b.getLast? ≠ some '\n')
    (hatags : ∀ tag ∈ ["<pre>".toList, "</pre>".toList], ∀ l ∈ lines a, Untagged tag l)
    (hctags : ∀ l ∈ lines c, Untagged "</pre>".toList l) :
    wrap settings (some width) (a ++ "\n<pre>\n".toList ++ c ++ "\n</pre>\n".toList ++ b) =
      wrap settings (some width) a ++ "<pre>\n".toList ++ c ++ "\n</pre>\n".toList ++
        wrap settings (some width) b := by
  obtain ⟨hasplit, halines⟩ := exists_lines ha haend
  obtain ⟨hbsplit, hblines⟩ := exists_lines hb hbend
  obtain ⟨cs, hcsplit, hcs⟩ := exists_unlines c
  have hopen := hatags _ List.mem_cons_self
  have hclose := hatags _ (List.mem_cons_of_mem _ List.mem_cons_self)
  have hfields : fields '\n' c = cs := by rw [← lines_concat_newline, hcsplit, lines_unlines hcs]
  have hinside : ∀ l ∈ cs, Untagged "</pre>".toList l := by
    intro l hl
    by_cases hnil : l = []
    · rw [hnil]
      exact ⟨rfl, rfl⟩
    · exact hctags l (mem_lines_of_mem_fields (hfields ▸ hl) hnil)
  set whole := a ++ "\n<pre>\n".toList ++ c ++ "\n</pre>\n".toList ++ b with hwhole
  have hne : whole ≠ [] := by simp [hwhole]
  have hend : whole.getLast? ≠ some '\n' := by
    rw [hwhole, List.getLast?_append_of_ne_nil _ hb]
    exact hbend
  have hlines : lines whole = lines a ++ "<pre>".toList :: (cs ++ "</pre>".toList :: lines b) := by
    refine lines_eq_of_unlines hne hend ?_ ?_
    · simp only [List.forall_mem_append, List.forall_mem_cons]
      exact ⟨fun l hl => (halines l hl).1, by decide, hcs, by decide, fun l hl => (hblines l hl).1⟩
    · rw [unlines_append, unlines_cons, unlines_append, unlines_cons, ← hasplit,
        ← hcsplit, ← hbsplit]
      simp [hwhole]
  calc wrap settings (some width) whole
    _ = wrapLines settings width false (lines a ++ "<pre>".toList :: (cs ++
      "</pre>".toList :: lines b)) := by
      rw [wrap_eq_wrapLines hne hend, hlines]
    _ = wrapLines settings width false (lines a) ++ ("<pre>\n".toList ++ (unlines cs ++
        ("</pre>\n".toList ++ wrapLines settings width false (lines b)))) := by
      rw [wrapLines_append hopen hclose, wrapLines_open, wrapLines_inside hinside,
        wrapLines_close hwidth]
    _ = _ := by
      rw [← wrap_eq_wrapLines ha haend, ← wrap_eq_wrapLines hb hbend, ← hcsplit]
      simp

/-- A preformatted region with a blank line between texts of which one is wrapped. -/
theorem wrap_preformatted_blank_line :
    let settings : WrapSettings := {}
    let a := "aa bb cc".toList
    let c := "x\n\n  y".toList
    let b := "dd".toList
    ((7 : Int) ≤ 7 ∧ (a ≠ [] ∧ b ≠ []) ∧ (a.getLast? ≠ some '\n' ∧ b.getLast? ≠ some '\n') ∧
      (∀ tag ∈ ["<pre>".toList, "</pre>".toList], ∀ l ∈ lines a, Untagged tag l) ∧
      ∀ l ∈ lines c, Untagged "</pre>".toList l) ∧
    wrap settings (some 7) (a ++ "\n<pre>\n".toList ++ c ++ "\n</pre>\n".toList ++ b) =
      "aa\nbb\ncc\n".toList ++ "<pre>\n".toList ++ c ++ "\n</pre>\n".toList ++ "dd\n".toList := by
  intro settings a c b
  have hatags : ∀ tag ∈ ["<pre>".toList, "</pre>".toList], ∀ l ∈ lines a, Untagged tag l := by
    decide +kernel
  have hctags : ∀ l ∈ lines c, Untagged "</pre>".toList l := by decide +kernel
  have hawrap : wrap settings (some 7) a = "aa\nbb\ncc\n".toList := by decide +kernel
  have hbwrap : wrap settings (some 7) b = "dd\n".toList := by decide +kernel
  refine ⟨⟨by decide, ⟨by decide, by decide⟩, ⟨by decide, by decide⟩, hatags, hctags⟩, ?_⟩
  rw [← hawrap, ← hbwrap]
  exact wrap_preformatted (by decide) (by decide) (by decide) (by decide) (by decide) hatags hctags

end Comment

end DocGraft
