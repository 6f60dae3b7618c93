import DocGraft.Proofs.CommentClosing
import DocGraft.Proofs.DeclarationWords

/-!
# Tags that a replacement shows

A block tag that the comment in the source has, and for which there is a localized entry, is not
lost on the way to the replacement. Each entry begins a line of its own, and no step of resizing
takes that beginning away: markup is joined and blank lines are dropped elsewhere, and only tags
that the source does not have lose their entries. The one exception is a comment with room for one
line only, which shows the description and nothing else.

The main results are `Layout.showing_kept` and `Comment.showsTag_synthesize`.
-/

namespace DocGraft.Text

open List

variable {a lead s t : Text}

/-! ### Beginnings of lines -/

/-- A line of the text begins with `lead`. -/
def Begins (lead s : Text) : Prop :=
  ∃ a b, s = a ++ (lead ++ b) ∧ AtLineStart a

theorem begins_append (lead b : Text) : Begins lead (lead ++ b) :=
  ⟨[], b, rfl, atLineStart_nil⟩

theorem Begins.append_right (h : Begins lead s) (t : Text) : Begins lead (s ++ t) := by
  obtain ⟨a, b, rfl, ha⟩ := h
  exact ⟨a, b ++ t, by simp, ha⟩

theorem Begins.append_left (h : Begins lead s) (ht : AtLineStart t) : Begins lead (t ++ s) := by
  obtain ⟨a, b, rfl, ha⟩ := h
  exact ⟨t ++ a, b, by simp, ht.append ha⟩

theorem Begins.flatten {parts : List Text} (hparts : ∀ t ∈ parts, AtLineStart t)
    (h : ∃ t ∈ parts, Begins lead t) : Begins lead parts.flatten := by
  induction parts with
  | nil => simp at h
  | cons t parts ih =>
    rw [flatten_cons]
    rcases exists_mem_cons_iff .. |>.mp h with h | h
    · exact h.append_right _
    · exact (ih (fun u hu => hparts u (mem_cons_of_mem t hu)) h).append_left
        (hparts t mem_cons_self)

/-- The line end at the end of a text is not part of the beginning of a line. -/
theorem Begins.of_concat_newline (hlead : '\n' ∉ lead) (hne : lead ≠ [])
    (h : Begins lead (s ++ ['\n'])) : Begins lead s := by
  obtain ⟨a, b, hs, ha⟩ := h
  rcases eq_nil_or_concat b with rfl | ⟨b, c, rfl⟩
  · grind [getLast?_concat, getLast?_append_of_ne_nil _ hne]
  · rw [concat_eq_append, ← append_assoc, ← append_assoc] at hs
    obtain ⟨rfl, -⟩ := append_inj' hs rfl
    exact ⟨a, b, by simp, ha⟩

theorem Begins.double_newline (hlead : '\n' ∉ lead) (hne : lead ≠ [])
    (h : Begins lead (s ++ '\n' :: t)) : Begins lead (s ++ '\n' :: '\n' :: t) := by
  obtain ⟨a, b, hs, ha⟩ := h
  rcases append_eq_append_iff.mp hs with ⟨u, rfl, hu⟩ | ⟨u, rfl, hu⟩
  · -- The beginning stands behind the line end.
    cases u with
    | nil =>
      obtain ⟨c, lead, rfl⟩ := exists_cons_of_ne_nil hne
      grind
    | cons c u =>
      obtain ⟨rfl, rfl⟩ := List.cons.inj hu
      have hstart : AtLineStart ('\n' :: u) := by
        rcases eq_nil_or_concat u with rfl | ⟨u, d, rfl⟩
        · exact atLineStart_concat (a := []).mpr rfl
        · rw [concat_eq_append, ← cons_append, ← append_assoc] at ha
          rw [concat_eq_append, ← cons_append]
          exact atLineStart_concat.mpr (atLineStart_concat.mp ha)
      refine ⟨s ++ ['\n'] ++ '\n' :: u, b, by simp, ?_⟩
      exact (atLineStart_concat.mpr rfl).append hstart
  · -- It stands before the line end, or the line end follows it.
    rcases append_eq_append_iff.mp hu with ⟨v, rfl, -⟩ | ⟨v, rfl, hv⟩
    · exact ⟨a, v ++ '\n' :: '\n' :: t, by simp, ha⟩
    · cases v with
      | nil => exact ⟨a, '\n' :: '\n' :: t, by simp, ha⟩
      | cons c v =>
        grind

/-- The beginning of a line is the beginning of one of the lines. -/
theorem Begins.exists_line (hlead : '\n' ∉ lead) (hne : lead ≠ []) {ls : List Text}
    (hls : ∀ l ∈ ls, '\n' ∉ l) (h : Begins lead (unlines ls)) : ∃ l ∈ ls, lead <+: l := by
  obtain ⟨a, b, hs, ha⟩ := h
  obtain ⟨as, rfl, has⟩ := ha.exists_unlines
  obtain ⟨rest, others, hfields⟩ := exists_fields_append hlead b
  have hlines : ls ++ [[]] = as ++ (lead ++ rest) :: others := by
    rw [← fields_unlines hls, hs, fields_unlines_append has, hfields]
  have hmem : lead ++ rest ∈ ls ++ [[]] := by simp [hlines]
  rcases mem_append.mp hmem with hmem | hmem
  · exact ⟨_, hmem, prefix_append _ _⟩
  · grind

/-! ### Rules that keep the beginnings of lines -/

/-- If a line begins behind what was read, one begins behind what was written, unless markup
follows. -/
def Level (written read s : Text) : Prop :=
  s.head? ≠ some '<' → AtLineStart read → AtLineStart written

theorem level_concat (written read : Text) (c : Char) (s : Text) :
    Level (written ++ [c]) (read ++ [c]) s :=
  fun _ h => atLineStart_concat.mpr (atLineStart_concat.mp h)

/-- A rule that keeps the lines that begin with an at-sign and a word: it does not take such a place
away, and it joins lines only before markup. -/
structure Sparing (rule : Rule) : Prop where
  apply : ∀ read s out n, rule read.getLast? s = some (out, n) →
    ∃ u rest, s = u ++ rest ∧ u ≠ [] ∧ u.length = n ∧ '@' ∉ u ∧ (∀ c ∈ u.head?, isWord c = false) ∧
      ∀ written, Level written read s → Level (written ++ out) (read ++ u) rest

/-- What is replaced before an at-sign ends before it. -/
theorem exists_append_of_notMem {u rest : Text} (hu : '@' ∉ u) (hs : a ++ '@' :: t = u ++ rest) :
    ∃ b, a = u ++ b ∧ rest = b ++ '@' :: t := by
  rcases append_eq_append_iff.mp hs with ⟨v, rfl, hv⟩ | ⟨v, rfl, hv⟩
  · cases v with
    | nil => grind
    | cons c v =>
      grind
  · exact ⟨v, rfl, hv⟩

/-- Lines that are kept make up for what was written. -/
theorem Level.atLineStart {written read : Text} (h : Level written read (a ++ '@' :: t))
    (ha : AtLineStart (read ++ a)) : AtLineStart (written ++ a) := by
  rcases eq_nil_or_concat a with rfl | ⟨a, c, rfl⟩
  · rw [append_nil] at ha ⊢
    exact h (by simp) ha
  · rw [concat_eq_append, ← append_assoc] at ha ⊢
    exact atLineStart_concat.mpr (atLineStart_concat.mp ha)

namespace Sparing

variable {rule : Rule} (h : Sparing rule) {s : Text}

include h in
theorem eq_none {c : Char} (hc : c = '@' ∨ isWord c) (before : Option Char) (t : Text) :
    rule before (c :: t) = none := by
  by_contra hne
  obtain ⟨⟨out, n⟩, hrule⟩ := Option.ne_none_iff_exists'.mp hne
  have hbefore : before = before.toList.getLast? := by cases before <;> rfl
  rw [hbefore] at hrule
  obtain ⟨u, rest, hs, hu, -, hat, hword, -⟩ := h.apply _ _ out n hrule
  obtain ⟨d, u, rfl⟩ := exists_cons_of_ne_nil hu
  obtain ⟨rfl, -⟩ := List.cons.inj hs
  rcases hc with rfl | hc
  · exact hat mem_cons_self
  · rw [hword c rfl] at hc
    cases hc

variable {w : Text} (hw : ∀ c ∈ w, isWord c) (b : Text)

include h in
theorem consumes : Consumes rule := by
  intro before s out n hrule
  have hbefore : before = before.toList.getLast? := by cases before <;> rfl
  rw [hbefore] at hrule
  obtain ⟨u, rest, hs, hne, hlength, -⟩ := h.apply _ _ out n hrule
  exact ⟨u, rest, hs, hne, hlength⟩

include h hw in
/-- Wherever the rule is applied behind what has been read. -/
theorem exists_rewrites {k : Nat} {before : Option Char} {t : Text}
    (hr : Rewrites rule k before s t) {a written read : Text} (hbefore : before = read.getLast?)
    (hs : s = a ++ '@' :: (w ++ b)) (hlevel : Level written read s) (ha : AtLineStart (read ++ a)) :
    ∃ a' b', t = a' ++ '@' :: (w ++ b') ∧ AtLineStart (written ++ a') := by
  induction hr generalizing a written read with
  | rest before s =>
    subst hs
    exact ⟨a, b, rfl, hlevel.atLineStart ha⟩
  | @keep k before c s t hr ih =>
    cases a with
    | nil =>
      obtain ⟨rfl, rfl⟩ := List.cons.inj hs
      obtain ⟨b', rfl⟩ := hr.exists_append fun c hc => h.eq_none (.inr (hw c hc))
      exact ⟨[], b', rfl, Level.atLineStart (t := w ++ b) hlevel ha⟩
    | cons d a =>
      obtain ⟨rfl, rfl⟩ := List.cons.inj hs
      obtain ⟨a', b', rfl, hstart⟩ := ih (getLast?_concat (l := read)).symm rfl
        (level_concat written read c _) (by simpa using ha)
      grind
  | @place k before u s out t hne hrule hr ih =>
    rw [hbefore] at hrule
    obtain ⟨v, rest, hv, -, hlength, hat, -, hkept⟩ := h.apply read _ out _ hrule
    obtain ⟨rfl, rfl⟩ := append_inj hv hlength.symm
    obtain ⟨v, rfl, rfl⟩ := exists_append_of_notMem hat hs.symm
    obtain ⟨a', b', rfl, hstart⟩ := ih (getLast?_append_of_ne_nil read hne).symm rfl
      (hkept written hlevel) (by rwa [append_assoc])
    grind

include h hw in
theorem begins_substitute (hs : Begins ('@' :: w) s) : Begins ('@' :: w) (substitute rule s) := by
  obtain ⟨a, b, rfl, ha⟩ := hs
  have hlevel : Level [] [] (a ++ '@' :: (w ++ b)) := fun _ h => h
  obtain ⟨k, hr⟩ := h.consumes.exists_rewrites none (a ++ '@' :: (w ++ b))
  exact h.exists_rewrites hw b hr rfl rfl hlevel ha

include h hw in
theorem begins_substituteFirst? {r : Text} (hs : Begins ('@' :: w) s)
    (hr : substituteFirst? rule s = some r) : Begins ('@' :: w) r := by
  obtain ⟨a, b, rfl, ha⟩ := hs
  have hlevel : Level [] [] (a ++ '@' :: (w ++ b)) := fun _ h => h
  exact h.exists_rewrites hw b (h.consumes.rewrites_first hr) rfl rfl hlevel ha

end Sparing

end DocGraft.Text

namespace DocGraft.Layout

open List Text

theorem sparing_of_mem {rule : Rule} (h : rule ∈ squeezeRules) : Sparing rule where
  apply read s out n hrule := by
    obtain ⟨u, rest, rfl, hne, hlength, ⟨rfl, rfl⟩ | ⟨hblank, rfl, hplace⟩⟩ :=
      exists_of_mem_squeezeRules h hrule
    · refine ⟨_, rest, rfl, hne, hlength, by decide, fun c hc => ?_, fun written _ _ hstart => ?_⟩
      · obtain rfl : '<' = c := by simpa using hc
        decide
      · exact absurd (hstart '>' (by simp)) (by decide)
    · refine ⟨u, rest, rfl, hne, hlength, fun hat => absurd (hblank _ hat) (by decide),
        fun c hc => isWord_of_isBlank (hblank c (mem_of_head? hc)),
        fun written hlevel hhead _ => ?_⟩
      rw [append_nil]
      exact hlevel (head?_ne_of_isBlank hblank hne rest) (hplace.resolve_left hhead)

end DocGraft.Layout

namespace DocGraft

open List Text Comment

/-! ### Tags -/

/-- The tags whose entries come from the localized comment and go away where there is no room for
them and the source does not have them. -/
inductive BlockTag where
  | param
  | returns
  | throws
  | see
deriving DecidableEq, Repr

namespace BlockTag

def text : BlockTag → Text
  | param => "@param".toList
  | returns => "@return".toList
  | throws => "@throws".toList
  | see => "@see".toList

/-- Whether a localized comment has an entry of the tag. -/
def isDocumentedIn (doc : LocalizedComment) : BlockTag → Bool
  | param => !doc.params.isEmpty
  | returns => !doc.returns.isEmpty
  | throws => !doc.throws.isEmpty
  | see => !doc.sees.isEmpty

/-- Whether a draft has an entry of the tag. -/
def isEnteredIn (draft : Draft) : BlockTag → Bool
  | param => !draft.params.isEmpty
  | returns => !draft.returns.isEmpty
  | throws => !draft.throws.isEmpty
  | see => !draft.sees.isEmpty

theorem exists_word (tag : BlockTag) : ∃ w, tag.text = '@' :: w ∧ ∀ c ∈ w, isWord c := by
  cases tag with
  | param => exact ⟨"param".toList, rfl, (IsWord.of_all rfl).all⟩
  | returns => exact ⟨"return".toList, rfl, (IsWord.of_all rfl).all⟩
  | throws => exact ⟨"throws".toList, rfl, (IsWord.of_all rfl).all⟩
  | see => exact ⟨"see".toList, rfl, (IsWord.of_all rfl).all⟩

theorem newline_notMem_text (tag : BlockTag) : '\n' ∉ tag.text := by
  cases tag <;> decide

theorem text_ne_nil (tag : BlockTag) : tag.text ≠ [] := by
  cases tag <;> decide

theorem isEnteredIn_mentioned {draft : Draft} {tag : BlockTag}
    (h : mentionsTag tag.text draft.source = true) :
    tag.isEnteredIn (Layout.mentioned draft) = tag.isEnteredIn draft := by
  have hlacks : ¬ (!mentionsTag tag.text draft.source) = true := by simp [h]
  cases tag <;> exact congrArg (fun xs => !List.isEmpty xs) (if_neg hlacks)

end BlockTag

namespace Draft

variable {draft : Draft} {lead tag : Text}

theorem begins_flatMap {α : Type} {f : α → Text} {xs : List α} (hxs : xs ≠ [])
    (hf : ∀ x, tag <+: f x) : Begins tag (xs.flatMap f) := by
  obtain ⟨x, xs, rfl⟩ := exists_cons_of_ne_nil hxs
  obtain ⟨b, hb⟩ := hf x
  rw [flatMap_cons, ← hb, append_assoc]
  exact begins_append tag _

theorem prefix_tagLines (h : tag <+: lead) (indent : Text) (lines : List Text) :
    tag <+: tagLines lead indent lines := by
  grind [tagLines]

theorem begins_formatTags (style : Style) (width : Option Int) (h : tag <+: lead)
    {values : List Text} (hvalues : values ≠ []) :
    Begins tag (formatTags style width lead values) :=
  begins_flatMap hvalues fun _ => prefix_tagLines h _ _

theorem begins_formatParams (style : Style) (width : Option Int) {params : List NamedTag}
    (h : params ≠ []) : Begins BlockTag.param.text (formatParams style width params) :=
  begins_flatMap h fun _ => prefix_tagLines (by decide) _ _

/-- An entry of a tag begins a line of the block tags. -/
theorem begins_formatBlockTags (style : Style) (width : Option Int) {tag : BlockTag}
    (h : tag.isEnteredIn draft = true) : Begins tag.text (formatBlockTags style width draft) := by
  have hflatten : formatBlockTags style width draft =
      [formatTags style width "@author  ".toList draft.authors,
        formatTags style width "@version ".toList draft.versions,
        formatParams style width draft.params,
        formatTags style width "@return  ".toList draft.returns,
        formatTags style width "@throws  ".toList draft.throws,
        formatTags style width "@serialField ".toList draft.serialFields,
        formatTags style width "@serialData ".toList draft.serialDatas,
        formatTags style width "@see     ".toList draft.sees,
        formatTags style width "@since   ".toList draft.sinces,
        formatTags style width "@serial  ".toList draft.serials,
        formatTags style width "@spec    ".toList draft.specs].flatten := by
    simp [formatBlockTags]
  rw [hflatten]
  refine Begins.flatten ?_ ?_
  · simp [atLineStart_formatTags, atLineStart_formatParams]
  · cases tag with
    | param =>
      refine ⟨formatParams style width draft.params, by simp only [mem_cons, true_or, or_true],
        begins_formatParams style width ?_⟩
      simpa [BlockTag.isEnteredIn] using h
    | returns =>
      refine ⟨formatTags style width "@return  ".toList draft.returns,
        by simp only [mem_cons, true_or, or_true], begins_formatTags style width (by decide) ?_⟩
      simpa [BlockTag.isEnteredIn] using h
    | throws =>
      refine ⟨formatTags style width "@throws  ".toList draft.throws,
        by simp only [mem_cons, true_or, or_true], begins_formatTags style width (by decide) ?_⟩
      simpa [BlockTag.isEnteredIn] using h
    | see =>
      refine ⟨formatTags style width "@see     ".toList draft.sees,
        by simp only [mem_cons, true_or, or_true], begins_formatTags style width (by decide) ?_⟩
      simpa [BlockTag.isEnteredIn] using h

/-- An entry of a tag begins a line, unless there is only room for the description. -/
theorem begins_format (style : Style) (width : Option Int) {target : Int}
    (hroom : target ≠ 1 ∨ draft.description? = none) {tag : BlockTag}
    (h : tag.isEnteredIn draft = true) : Begins tag.text (draft.format style width target) := by
  have hlines : ∀ text : Text, Begins tag.text text →
      Begins tag.text (if endsWith "\n\n".toList text then text.dropLast else text) := by
    intro text htext
    split_ifs with hend
    · obtain ⟨u, rfl⟩ := endsWith_iff.mp hend
      rw [show "\n\n".toList = ['\n'] ++ ['\n'] from rfl, ← append_assoc] at htext ⊢
      rw [dropLast_concat]
      exact htext.of_concat_newline tag.newline_notMem_text tag.text_ne_nil
    · exact htext
  unfold format
  split
  · next body hbody => simp [hbody] at hroom
  · refine hlines _ ((begins_formatBlockTags style width h).append_left ?_)
    exact (atLineStart_paragraph style width _).append (atLineStart_paragraph style width _)

end Draft

/-! ### Resizing -/

namespace Layout

variable {layout : Layout} {tag : BlockTag}

/-- A layout shows a tag, and its draft has entries of the tag that no step of resizing drops. -/
structure Showing (tag : BlockTag) (layout : Layout) : Prop where
  mentioned : mentionsTag tag.text layout.draft.source = true
  entered : tag.isEnteredIn layout.draft = true
  room : layout.target ≠ 1 ∨ layout.draft.description? = none
  /-- A line begins with the tag. -/
  begins : Begins tag.text layout.comment

theorem showing_build (style : Style) (hmentioned : mentionsTag tag.text layout.draft.source = true)
    (hentered : tag.isEnteredIn layout.draft = true)
    (hroom : layout.target ≠ 1 ∨ layout.draft.description? = none) :
    Showing tag (layout.build style) where
  mentioned := hmentioned
  entered := hentered
  room := hroom
  begins := Draft.begins_format style layout.width hroom hentered

/-- Laying out another description leaves the tags alone. -/
theorem Showing.withBody {style : Style} (h : Showing tag layout) (body : Text)
    (hbody : layout.draft.description? ≠ none) :
    Showing tag (rebuild style
      { layout with draft := { layout.draft with body := some body } }) := by
  refine showing_build style h.mentioned ?_ (.inl (h.room.resolve_right hbody))
  have hentered := h.entered
  cases tag <;> exact hentered

/-- Resizing keeps the entries of a tag that the source has. -/
theorem showing_kept (style : Style) (tag : BlockTag) : Kept style (Showing tag) where
  build _ h := showing_build style h.mentioned h.entered h.room
  widen _ _ _ h := { h with }
  squeeze layout rule hrule h := by
    obtain ⟨w, htag, hw⟩ := tag.exists_word
    refine { h with begins := ?_ }
    rw [htag]
    exact (sparing_of_mem hrule).begins_substitute hw (htag ▸ h.begins)
  rewrite layout rule hrule comment hcomment h := by
    refine { h with begins := ?_ }
    rcases mem_append.mp hrule with hrule | hrule
    · obtain ⟨w, htag, hw⟩ := tag.exists_word
      rw [htag]
      exact (sparing_of_mem hrule).begins_substituteFirst? hw (htag ▸ h.begins) hcomment
    · obtain ⟨u, rest, hs, rfl⟩ := exists_of_substituteFirst?_double hrule hcomment
      have hbegins := h.begins
      rw [hs] at hbegins
      exact hbegins.double_newline tag.newline_notMem_text tag.text_ne_nil
  raise _ h := { h with }
  dropDescription layout h := by
    unfold Layout.dropDescription
    split
    · refine showing_build style h.mentioned ?_ (.inr rfl)
      have hentered := h.entered
      cases tag <;> exact hentered
    · exact h
  dropUnmentioned layout h := by
    rw [dropUnmentioned_eq]
    split
    · exact h
    · exact showing_build style h.mentioned
        ((BlockTag.isEnteredIn_mentioned h.mentioned).trans h.entered) h.room
  join _ _ hbody h := h.withBody _ (by simp [hbody])
  cut _ _ _ hbody h := h.withBody _ (by simp [hbody])

/-! ### Decoration -/

/-- A tag that begins a line stands behind the decoration of that line. -/
theorem exists_begins_render {tag : Text} (htag : '\n' ∉ tag) (hne : tag ≠ [])
    (h : Begins tag layout.comment) :
    ∃ lead ∈ ["/** ".toList, lineLead], Begins (lead ++ tag) layout.render := by
  obtain ⟨a, b, hcomment, ha⟩ := h
  obtain ⟨ls, rfl, hls⟩ := ha.exists_unlines
  obtain ⟨t, ht⟩ := exists_leadLines_append lineLead htag hne b
  have hlines : leadLines lineLead layout.comment =
      unlines (ls.map (lineLead ++ ·)) ++ (lineLead ++ tag ++ t) := by
    rw [hcomment, leadLines_unlines_append lineLead hls, ht]
  rw [render, if_neg (by simp [hcomment, hne]), hlines]
  cases layout.firstLine with
  | false =>
    refine ⟨lineLead, by simp, Begins.append_right ?_ _⟩
    rw [if_neg (by decide)]
    refine Begins.append_left ?_ (atLineStart_concat (a := "/**".toList).mpr rfl)
    exact (begins_append (lineLead ++ tag) t).append_left (atLineStart_unlines _)
  | true =>
    simp only [if_true]
    cases ls with
    | nil =>
      refine ⟨"/** ".toList, by simp, Begins.append_right ?_ _⟩
      have hraised :
          after? " *".toList (unlines ([].map (lineLead ++ ·)) ++ (lineLead ++ tag ++ t)) =
          some (' ' :: (tag ++ t)) := by
        rw [after?_eq_some_iff]
        simp [unlines, lineLead]
      rw [hraised, Option.getD_some]
      exact begins_append ("/** ".toList ++ tag) t
    | cons l ls =>
      refine ⟨lineLead, by simp, Begins.append_right ?_ _⟩
      have hraised : after? " *".toList (unlines ((l :: ls).map (lineLead ++ ·)) ++
          (lineLead ++ tag ++ t)) =
          some (unlines ((' ' :: l) :: ls.map (lineLead ++ ·)) ++ (lineLead ++ tag ++ t)) := by
        rw [after?_eq_some_iff]
        simp [unlines_cons, lineLead]
      rw [hraised, Option.getD_some, ← append_assoc]
      refine (begins_append (lineLead ++ tag) t).append_left ?_
      have hfirst : "/**".toList ++ unlines ((' ' :: l) :: ls.map (lineLead ++ ·)) =
          unlines (("/** ".toList ++ l) :: ls.map (lineLead ++ ·)) := by
        simp [unlines_cons]
      rw [hfirst]
      exact atLineStart_unlines _

end Layout

namespace Comment

variable {doc : LocalizedComment} {lead : Text} {span : CommentSpan} {style : Style}
  {tag : BlockTag}

/-- The text of a line of a comment: what follows its decoration. -/
def lineText (line : Text) : Text :=
  line.dropWhile fun c => isBlank c || c = '*' || c = '/'

/-- Whether the text of a line of a comment begins with `tag`. -/
def showsTag (tag comment : Text) : Bool :=
  (lines comment).any fun line => startsWith tag (lineText line)

/-- The lines of a settled comment are those of the decorated one, indented and tidied. -/
theorem lines_settle (span : CommentSpan) {ls : List Text} {rest : Text} (hls : ∀ l ∈ ls, '\n' ∉ l)
    (hrest : '\n' ∉ rest) :
    lines (settle span (unlines ls ++ rest ++ " */".toList ++ ['\n'])) =
      (ls ++ [rest ++ " */".toList]).map fun l => tidyLine (span.indent ++ l) := by
  have htidy : ∀ l ∈ ls.map fun l => tidyLine (span.indent ++ l), '\n' ∉ l := by
    intro l hl
    obtain ⟨m, hm, rfl⟩ := mem_map.mp hl
    exact notMem_tidyLine (by simp [notMem_indent span, hls m hm])
  have hlast : '\n' ∉ span.indent ++ (rest ++ " */".toList) := by
    simp [notMem_indent span, hrest]
  rw [settle_unlines span hls hrest, map_append, map_singleton, tidyLine_closing, spanEnd]
  grind [unlines_concat, lines_unlines, lines_unlines_append htidy hlast (by simp)]

/-- The text of a line is what follows the decoration of a line with a tag. -/
theorem lineText_append {indent : Text} (hindent : ∀ c ∈ indent, c = ' ')
    (hlead : lead ∈ ["/** ".toList, Layout.lineLead]) (tag : BlockTag) (rest : Text) :
    lineText (indent ++ (lead ++ tag.text ++ rest)) = tag.text ++ rest := by
  obtain ⟨w, htag, -⟩ := tag.exists_word
  have hmarks : ∀ c ∈ lead, c = ' ' ∨ c = '*' ∨ c = '/' := by
    rcases mem_cons.mp hlead with rfl | hlead
    · simp
    · rw [mem_singleton.mp hlead]
      simp [Layout.lineLead]
  have hdrop : ∀ c ∈ indent ++ lead, (isBlank c || c = '*' || c = '/') = true := by
    intro c hc
    rcases (mem_append.mp hc).elim (fun hc => .inl (hindent c hc)) (hmarks c) with
      rfl | rfl | rfl <;> decide
  rw [lineText, append_assoc, ← append_assoc, dropWhile_append_of_pos hdrop, htag]
  rfl

/-- Settling keeps the tags that begin decorated lines. -/
theorem showsTag_settle (span : CommentSpan) {s : Text}
    (hlead : lead ∈ ["/** ".toList, Layout.lineLead])
    (h : Begins (lead ++ tag.text) (s ++ " */".toList ++ ['\n'])) :
    showsTag tag.text (settle span (s ++ " */".toList ++ ['\n'])) = true := by
  obtain ⟨ls, rest, rfl, hls, hrest⟩ := exists_unlines_append s
  have hall : ∀ l ∈ ls ++ [rest ++ " */".toList], '\n' ∉ l :=
    forall_mem_append.mpr ⟨hls, forall_mem_singleton.mpr (by simp [hrest])⟩
  have hnewline : '\n' ∉ lead ++ tag.text := by
    rw [mem_append, not_or]
    refine ⟨?_, tag.newline_notMem_text⟩
    rcases mem_cons.mp hlead with rfl | hlead
    · decide
    · rw [mem_singleton.mp hlead]
      decide
  rw [append_assoc (unlines ls), ← unlines_concat] at h
  obtain ⟨_, hl, rest', rfl⟩ := h.exists_line hnewline (by simp [tag.text_ne_nil]) hall
  -- The line is tidy, for it has an at-sign.
  have hat : '@' ∈ span.indent ++ (lead ++ tag.text ++ rest') := by
    obtain ⟨w, htag, -⟩ := tag.exists_word
    simp [htag]
  rw [showsTag, lines_settle span hls hrest, any_eq_true]
  refine ⟨_, mem_map.mpr ⟨_, hl, rfl⟩, ?_⟩
  rw [tidyLine_of_mem hat (by decide) (by decide),
    lineText_append (fun _ => eq_space_of_mem_indent) hlead]
  exact startsWith_iff.mpr (prefix_append _ _)

/-! ### Drafts of comments with a description -/

/-- Texts that are inherited take the places of other entries. -/
theorem isEmpty_inheritThrows (values entries : List Text) :
    (Draft.inheritThrows values entries).isEmpty = entries.isEmpty := by
  unfold Draft.inheritThrows
  generalize values.filterMap Draft.inheritedException? = exceptions
  induction exceptions generalizing entries with
  | nil => rfl
  | cons exception exceptions ih => rw [foldl_cons, ih, isEmpty_map]

/-- The draft of a comment with a description has all entries of the localized comment. -/
theorem isEnteredIn_draftFor (doc : LocalizedComment)
    (h : isTagsOnly (substitute exceptionTagRule span.text) = false) (tag : BlockTag) :
    tag.isEnteredIn (draftFor span doc) = tag.isDocumentedIn doc := by
  have hbody : tag.isEnteredIn (draftFor span doc) =
      tag.isEnteredIn (Draft.prepare span.text doc) := by
    cases tag <;> rfl
  rw [hbody]
  dsimp only [Draft.prepare]
  rw [if_neg (by simp [h])]
  cases tag with
  | param => rfl
  | returns => rfl
  | see => rfl
  | throws =>
    dsimp only [BlockTag.isEnteredIn, BlockTag.isDocumentedIn]
    rw [isEmpty_inheritThrows, isEmpty_map]

theorem description?_draftFor (h : ∀ body ∈ doc.body, body = []) :
    (draftFor span doc).description? = none := by
  have hfill : ∀ source, fillBlocks source [] = [] := fun source => by
    simp [fillBlocks, blockParts, blockPartsFrom, refill]
  rw [Draft.description?, Option.filter_eq_none_iff]
  intro body hbody
  obtain ⟨old, hold, rfl⟩ := Option.map_eq_some_iff.mp hbody
  rw [Draft.body_prepare, Option.ite_none_left_eq_some] at hold
  simp [h old hold.2, hfill]

/-- A replacement of a comment of three lines or more with a description shows each tag that the
comment has and for which there is an entry, unless there is only room for the description. -/
theorem showsTag_synthesize {style : Style} {span : CommentSpan} {doc : LocalizedComment}
    (hheight : 3 ≤ height span.text)
    (hdescription : isTagsOnly (substitute exceptionTagRule span.text) = false)
    (hroom : targetHeight style.layout span ≠ 1 ∨ ∀ body ∈ doc.body, body = [])
    (hreplaced : (synthesize style span doc).text ≠ span.text) {tag : BlockTag}
    (hsource : mentionsTag tag.text (substitute exceptionTagRule span.text) = true)
    (hdoc : tag.isDocumentedIn doc = true) :
    showsTag tag.text (synthesize style span doc).text = true := by
  have hfirst : (firstLayout style span (draftFor span doc)).Showing tag := by
    refine Layout.showing_build style ?_ ?_ (hroom.imp_right description?_draftFor)
    · rw [← hsource]
      exact congrArg _ (Draft.source_prepare span.text doc)
    · exact (isEnteredIn_draftFor doc hdescription tag).trans hdoc
  have hfinal : (finalLayout style span (draftFor span doc)).Showing tag := by
    dsimp only [finalLayout]
    split
    · exact hfirst
    · exact (Layout.showing_kept style tag).resize hfirst
  have hne : ∀ layout : Layout, layout.Showing tag → layout.comment ≠ [] := by
    rintro layout ⟨-, -, -, a, b, hcomment, -⟩
    simp [hcomment, tag.text_ne_nil]
  have hsynthesize : (synthesize style span doc).text =
      if (finalLayout style span (draftFor span doc)).fits then
        settle span (finalLayout style span (draftFor span doc)).pad
      else span.text := by
    rw [text_synthesize (by omega), if_neg (hne _ hfirst)]
    dsimp only
    rw [if_neg (hne _ hfinal)]
  rw [hsynthesize] at hreplaced ⊢
  split at hreplaced
  · next hfits =>
    obtain ⟨lead, hlead, hbegins⟩ := Layout.exists_begins_render tag.newline_notMem_text
      tag.text_ne_nil hfinal.begins
    obtain ⟨s, hpad⟩ := Layout.exists_pad_eq (hne _ hfinal)
    rw [if_pos hfits, hpad]
    refine showsTag_settle span hlead ?_
    rw [← hpad, Layout.pad, if_neg (hne _ hfinal)]
    refine hbegins.append_left fun c hc => ?_
    grind
  · exact absurd rfl hreplaced

/-- A description that is joined into one line and raised, above two tags that stay. -/
theorem showsTag_synthesize_squeezed :
    let span : CommentSpan :=
      { text := "  /** Old.\n   * @exception E x\n   * @return y\n   */\n".toList }
    let doc : LocalizedComment :=
      { body := some "New.\n<ul>\n<li>a\n</ul>".toList, returns := ["r".toList],
        throws := [⟨"E".toList, "t".toList⟩], sees := ["S".toList] }
    3 ≤ height span.text ∧ isTagsOnly (substitute exceptionTagRule span.text) = false ∧
      targetHeight {} span ≠ 1 ∧ (synthesize {} span doc).text ≠ span.text ∧
      mentionsTag BlockTag.throws.text (substitute exceptionTagRule span.text) = true ∧
      BlockTag.throws.isDocumentedIn doc = true ∧
      showsTag BlockTag.throws.text (synthesize {} span doc).text = true := by
  intro span doc
  have hheight : 3 ≤ height span.text := by decide +kernel
  have hdescription : isTagsOnly (substitute exceptionTagRule span.text) = false := by
    decide +kernel
  have hroom : targetHeight {} span ≠ 1 := by decide +kernel
  have hreplaced : (synthesize {} span doc).text ≠ span.text := by decide +kernel
  have hsource : mentionsTag BlockTag.throws.text (substitute exceptionTagRule span.text) =
      true := by
    decide +kernel
  exact ⟨hheight, hdescription, hroom, hreplaced, hsource, rfl,
    showsTag_synthesize hheight hdescription (.inl hroom) hreplaced hsource rfl⟩

/-- A comment of three lines that has room for the description only: the tag is lost. -/
theorem synthesize_loses_tag_three_lines :
    let span : CommentSpan := { text := "/** Old.\n * @return y\n */\n".toList }
    let doc : LocalizedComment := { body := some "New.".toList, returns := ["r".toList] }
    3 ≤ height span.text ∧ isTagsOnly (substitute exceptionTagRule span.text) = false ∧
      mentionsTag BlockTag.returns.text (substitute exceptionTagRule span.text) = true ∧
      BlockTag.returns.isDocumentedIn doc = true ∧
      (synthesize {} span doc).text = "/**\n * New.\n */\n".toList ∧
      contains BlockTag.returns.text (synthesize {} span doc).text = false := by
  decide +kernel

end Comment

end DocGraft
