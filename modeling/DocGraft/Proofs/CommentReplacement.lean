import DocGraft.Proofs.CandidateOrder
import DocGraft.Proofs.Masking
import DocGraft.Proofs.TextClosing

/-!
# Replacing a comment in its lines

The line of a documentation comment holds nothing before the comment but spaces. They are read as
code, one by one, and so is the line end before them: a comment or a literal with text behind it on
its line does not end with white space. What stands before that line is therefore read alike
whatever follows it. Behind a closed comment reading starts afresh. So when the comment is replaced
by another one with white space around it, all other segments stay as they are, up to the white
space next to the comment.

The main results are `Source.Standing.of_atLineStart` and `Source.segments_replace_comment`.
-/

namespace DocGraft.Source

open List Text

variable {d : Char} {gs : List Grain} {t w : Text}

/-! ### White space next to a comment -/

/-- Runs of text without the white space of the code that they begin with. -/
def trimFirst : List (Region × Text) → List (Region × Text)
  | (.code, w) :: rest => if allBlank w then rest else (.code, trimStart w) :: rest
  | rest => rest

/-- Runs of text without the white space of the code that they end with. -/
def trimLast : List (Region × Text) → List (Region × Text)
  | [] => []
  | [(.code, w)] => if allBlank w then [] else [(.code, trimEnd isBlank w)]
  | run :: rest => run :: trimLast rest

theorem trimLast_append {rs : List (Region × Text)} (h : ∀ r ∈ rs.getLast?, r.1 ≠ .code)
    (rest : List (Region × Text)) : trimLast (rs ++ rest) = rs ++ trimLast rest := by
  induction rs with
  | nil => rfl
  | cons r rs ih =>
    cases rs with
    | nil =>
      rw [cons_append, trimLast]
      · rfl
      · grind
    | cons r' rs =>
      have hlast : ∀ q ∈ (r' :: rs).getLast?, q.1 ≠ .code := by simpa using h
      have hcons : trimLast (r :: (r' :: rs ++ rest)) = r :: trimLast (r' :: rs ++ rest) := by
        rw [trimLast]
        simp
      rw [cons_append, hcons, ih hlast]
      rfl

/-- A run of code, or nothing if it is empty. -/
def codeRun (w : Text) : List (Region × Text) :=
  if w = [] then [] else [(.code, w)]

theorem gather_codeGrains (w : Text) : gather (codeGrains w) = codeRun w := by
  rw [codeRun]
  split_ifs with hw
  · rw [hw]
    rfl
  · rw [← append_nil (codeGrains w), gather_codeGrains_append hw]
    rfl

/-- Code behind grains is one run with the code that they end with. -/
theorem exists_gather_append_codeGrains (h : Standing gs t) :
    ∃ rs y, (∀ r ∈ rs.getLast?, r.1 ≠ .code) ∧
      ∀ p, gather (gs ++ codeGrains p) = rs ++ codeRun (y ++ p) := by
  -- The induction takes the grains from the end and passes characters of code on to `p`.
  induction gs using List.reverseRecOn generalizing t with
  | nil => exact ⟨[], [], by simp, gather_codeGrains⟩
  | append_singleton gs g ih =>
    obtain ⟨hgs, hg, -⟩ := standing_append.mp h
    by_cases hcode : g.1 = .code
    · obtain ⟨region, w⟩ := g
      obtain rfl : region = .code := hcode
      obtain ⟨c, rfl, -⟩ := stands_code_iff.mp hg
      obtain ⟨rs, y, hrs, hgather⟩ := ih hgs
      refine ⟨rs, y ++ [c], hrs, fun p => ?_⟩
      simp [← codeGrains_cons, hgather]
    · refine ⟨gather gs ++ [g], [], by simpa using hcode, fun p => ?_⟩
      simp [gather_append_cons hcode, gather_codeGrains]

theorem trimEnd_append_blank (y : Text) {p : Text} (hp : ∀ c ∈ p, isBlank c) :
    trimEnd isBlank (y ++ p) = trimEnd isBlank y := by
  grind [trimEnd, dropWhile_append_of_pos]

theorem trimEnd_eq_nil_iff : trimEnd isBlank w = [] ↔ allBlank w := by
  simp [trimEnd, allBlank]

theorem trimLast_codeRun (w : Text) : trimLast (codeRun w) = codeRun (trimEnd isBlank w) := by
  by_cases hw : w = []
  · rw [hw]
    rfl
  · simp [codeRun, if_neg hw, trimLast, ite_congr (propext trimEnd_eq_nil_iff.symm)]

/-- White space behind grains is taken off again. -/
theorem trimLast_gather_append (h : Standing gs t) {p : Text} (hp : ∀ c ∈ p, isBlank c) :
    trimLast (gather (gs ++ codeGrains p)) = trimLast (gather gs) := by
  obtain ⟨rs, y, hrs, hgather⟩ := exists_gather_append_codeGrains h
  have hnone := hgather []
  rw [codeGrains_nil, append_nil, append_nil] at hnone
  simp [hgather, hnone, trimLast_append hrs, trimLast_codeRun, trimEnd_append_blank y hp]

/-- White space before grains is taken off again. -/
theorem trimFirst_gather_append {q : Text} (hq : ∀ c ∈ q, isBlank c) (gs : List Grain) :
    trimFirst (gather (codeGrains q ++ gs)) = trimFirst (gather gs) := by
  induction q with
  | nil => rfl
  | cons c q ih =>
    obtain ⟨hc, hq⟩ := forall_mem_cons.mp hq
    rw [codeGrains_cons, cons_append, gather, ← ih hq]
    generalize gather (codeGrains q ++ gs) = rs
    rcases exists_code_or_head rs with ⟨v, rest, rfl⟩ | hhead
    · simp [consCode, trimFirst, trimStart, allBlank, hc]
    · rw [consCode_of_head hhead, trimFirst, if_pos (by simpa [allBlank] using hc), trimFirst]
      rintro v rest rfl
      exact hhead _ rfl rfl

/-! ### The line of a comment -/

/-- A grain that ends with white space, with more text behind it on its line, is code. -/
theorem Stands.eq_code_of_blank_end {g : Grain} (h : Stands g (d :: t)) (hd : d ≠ '\n') {c : Char}
    (hlast : g.2.getLast? = some c) (hc : isBlank c) : g = (.code, [c]) := by
  obtain ⟨region, w⟩ := g
  cases region with
  | code =>
    obtain ⟨e, rfl, -⟩ := stands_code_iff.mp h
    obtain rfl : e = c := by simpa using hlast
    rfl
  | lineComment =>
    obtain ⟨u, -, -, hend⟩ := stands_line_iff.mp h
    exact absurd (hend d rfl) hd
  | _ =>
    obtain ⟨u, rfl, -, hlen⟩ := (stands_iff (by decide)).mp h
    rcases (measures_bodyLength (by decide)).ends hlen with ⟨⟨v, rfl⟩, -⟩ | hnil | ⟨-, hend, -⟩
    · -- The last character is that of the closing.
      rw [← append_assoc, getLast?_append_of_ne_nil _ (by decide)] at hlast
      have hblank := Region.isBlank_of_mem (mem_append_right _ (mem_of_getLast? hlast))
      simp [hc] at hblank
    · cases hnil
    · exact absurd (Option.some.inj hend) hd

/-- White space at the end of grains, with more text behind it on its line, is code. -/
theorem Standing.exists_blank_end (h : Standing gs (d :: t)) (hd : d ≠ '\n') {u : Text}
    (hgs : grainText gs = u ++ w) (hw : ∀ c ∈ w, isBlank c ∧ c ≠ '\n') :
    ∃ as, gs = as ++ codeGrains w ∧ grainText as = u := by
  induction w using List.reverseRecOn generalizing gs d t with
  | nil => exact ⟨gs, by simp, by simpa using hgs⟩
  | append_singleton w c ih =>
    obtain ⟨hc, hnewline⟩ := hw c (by simp)
    rcases eq_nil_or_concat gs with rfl | ⟨as, g, rfl⟩
    · simp at hgs
    rw [concat_eq_append] at h hgs ⊢
    obtain ⟨has, hg, -⟩ := standing_append.mp h
    have hlast : g.2.getLast? = some c := by
      have hsame := congrArg List.getLast? hgs
      obtain ⟨v, e, he⟩ := (eq_nil_or_concat g.2).resolve_left hg.ne_nil
      simpa [he] using hsame
    obtain rfl := hg.eq_code_of_blank_end hd hlast hc
    have htext : grainText as = u ++ w := by
      rw [grainText_append, ← append_assoc] at hgs
      exact (append_inj' hgs rfl).1
    obtain ⟨bs, rfl, hbs⟩ := ih has hnewline htext fun e he => hw e (by simp [he])
    exact ⟨bs, by simp, hbs⟩

/-- Grains up to the beginning of a line that is not empty stand before any text. -/
theorem Standing.of_atLineStart (h : Standing gs (d :: t)) (hd : d ≠ '\n')
    (hstart : AtLineStart (grainText gs)) (t' : Text) : Standing gs t' := by
  rcases eq_nil_or_concat gs with rfl | ⟨as, g, rfl⟩
  · trivial
  rw [concat_eq_append] at h hstart ⊢
  obtain ⟨has, hg, -⟩ := standing_append.mp h
  obtain ⟨v, c, hlast⟩ := (eq_nil_or_concat g.2).resolve_left hg.ne_nil
  rw [concat_eq_append] at hlast
  rw [grainText_append, grainText_cons, hlast, grainText_nil, append_nil,
    ← append_assoc, atLineStart_concat] at hstart
  subst hstart
  obtain rfl := hg.eq_code_of_blank_end (c := '\n') hd (by rw [hlast]; simp) (by decide)
  exact standing_append.mpr ⟨has.congr rfl, stands_newline _, trivial⟩

/-! ### The segments around a comment -/

theorem bare_of_isBlank (h : ∀ c ∈ w, isBlank c) : Bare w := by
  intro c hc
  have hblank := h c hc
  refine ⟨?_, ?_, ?_⟩ <;> rintro rfl <;> exact absurd hblank (by decide)

/-- The segments before and behind a comment or literal. -/
theorem segments_eq_append_cons {text : Text} {region : Region} {as bs : List Grain}
    (hr : region ≠ .code) (h : grains text = as ++ (region, w) :: bs) :
    segments text = placed 0 (gather as) ++ ⟨region, (grainText as).length, w⟩ ::
      placed ((grainText as).length + w.length) (gather bs) := by
  simp [segments_eq_placed, h, gather_append_cons (g := (region, w)) hr, placed_append, placed]

/-- The grains around a documentation comment: what stands before its line does so whatever follows,
and its line holds nothing else but white space up to the end of the comment. -/
theorem exists_grains_docComment {text : Text} {segment : Segment} (hmem : segment ∈ segments text)
    (hdoc : isDocComment text segment) :
    ∃ as lead bs, grains text = as ++ codeGrains lead ++ (.blockComment, segment.text) :: bs ∧
      (∀ t, Standing as t) ∧ (∀ c ∈ lead, isBlank c) ∧ segment.region = .blockComment ∧
      segment.start = (grainText (as ++ codeGrains lead)).length ∧
      lineStart text segment.start = (grainText as).length := by
  rw [isDocComment, Bool.and_eq_true, Bool.and_eq_true, decide_eq_true_eq] at hdoc
  obtain ⟨⟨hregion, -⟩, hspaces⟩ := hdoc
  obtain ⟨gs, bs, hgrains, hpos⟩ := exists_grains_of_mem_segments hmem (by rw [hregion]; decide)
  rw [hregion] at hgrains
  obtain ⟨hgs, hw, -⟩ := standing_append.mp (hgrains ▸ standing_grains text)
  have htext : text = grainText gs ++ (segment.text ++ grainText bs) := by
    rw [← grainText_grains text, hgrains, grainText_append, grainText_cons]
  obtain ⟨u, lead, hlead, hu, -, hstart, hmemLead⟩ :=
    Scanner.exists_line_lead (grainText gs) (segment.text ++ grainText bs)
  rw [← htext, ← hpos] at hstart hmemLead
  have hblank : ∀ c ∈ lead, isBlank c ∧ c ≠ '\n' := by
    intro c hc
    have hspace := all_eq_true.mp hspaces c ((hmemLead c).mp hc)
    obtain rfl : c = ' ' := by simpa using hspace
    exact ⟨by decide, by decide⟩
  obtain ⟨w, hopen, -⟩ := stands_block_iff.mp hw
  rw [grainText_cons, hopen] at hgs
  obtain ⟨as, rfl, rfl⟩ := hgs.exists_blank_end (by decide) hlead hblank
  refine ⟨as, lead, bs, hgrains, ?_, fun c hc => (hblank c hc).1, hregion, hpos, hstart⟩
  obtain ⟨has, -⟩ := standing_append.mp hgs
  rw [grainText_codeGrains] at has
  cases lead with
  | nil => exact has.of_atLineStart (by decide) hu
  | cons c lead => exact has.of_atLineStart (hblank c mem_cons_self).2 hu

/-- Replacing a documentation comment, in the lines that it takes up, by another comment with white
space around it leaves all other segments as they are, up to white space of code next to the
comment. -/
theorem segments_replace_comment {text : Text} {segment : Segment} (hmem : segment ∈ segments text)
    (hdoc : isDocComment text segment) {a v b : Text} (ha : ∀ c ∈ a, isBlank c)
    (hb : ∀ c ∈ b, isBlank c) (hv : ¬ HasClosing (v ++ ['*'])) :
    let comment := '/' :: '*' :: (v ++ ['*', '/'])
    let start := lineStart text segment.start
    let stop := segment.stop + if (text.drop segment.stop).head? = some '\n' then 1 else 0
    let edited := Scanner.assemble text 0 [⟨start, stop, a ++ (comment ++ b)⟩]
    ∃ before after before' after',
      segments text = before ++ segment :: after ∧
      segments edited = before' ++ ⟨.blockComment, start + a.length, comment⟩ :: after' ∧
      trimLast (before'.map reading) = trimLast (before.map reading) ∧
      trimFirst (after'.map reading) = trimFirst (after.map reading) := by
  intro comment start stop edited
  obtain ⟨as, lead, bs, hgrains, has, hlead, hregion, hpos, hstart⟩ :=
    exists_grains_docComment hmem hdoc
  obtain ⟨-, -, hbs⟩ := standing_append.mp (hgrains ▸ standing_grains text)
  have htext : text = grainText (as ++ codeGrains lead) ++ segment.text ++ grainText bs := by
    rw [← grainText_grains text, hgrains, grainText_append, grainText_cons, List.append_assoc]
  obtain ⟨rest, hrest⟩ := exists_lineEnd_append (grainText bs)
  have hend : ∀ c ∈ lineEnd (grainText bs), isBlank c := by
    rw [lineEnd]
    split_ifs <;> simp
    decide
  have hbehind : bs = codeGrains (lineEnd (grainText bs)) ++ grains rest := by
    rw [← grains_append ((bare_of_isBlank hend).standing rest), grainText_codeGrains, ← hrest,
      grains_grainText hbs]
  have hedited : edited = grainText as ++ (a ++ (comment ++ (b ++ rest))) := by
    have hstop : segment.stop = (grainText (as ++ codeGrains lead) ++ segment.text).length := by
      rw [Segment.stop, hpos, List.length_append]
    have hdrop : text.drop segment.stop = grainText bs := by
      rw [hstop, htext, List.drop_left]
    have hlast : text.drop stop = rest := by
      have hcount : stop = segment.stop + (lineEnd (grainText bs)).length := by
        simp only [stop, hdrop, lineEnd]
        split_ifs <;> rfl
      rw [hcount, ← List.drop_drop, hdrop]
      nth_rewrite 2 [hrest]
      rw [List.drop_left]
    have hfirst : slice text 0 start = grainText as := by
      simp [slice, show start = _ from hstart, htext]
    simp only [edited, Scanner.assemble, hfirst, hlast, List.append_assoc]
  have hgrains' : grains edited =
      as ++ codeGrains a ++ (.blockComment, comment) :: (codeGrains b ++ grains rest) := by
    have hcomment := (stands_block_of_closed hv (b ++ rest)).grains
    have hblanks := grains_append ((bare_of_isBlank ha).standing (comment ++ (b ++ rest)))
    have hblanks' := grains_append ((bare_of_isBlank hb).standing rest)
    rw [grainText_codeGrains] at hblanks hblanks'
    rw [hedited, grains_append (has _), hblanks, hcomment, hblanks', List.append_assoc]
  have hsegments := segments_eq_append_cons (by decide) hgrains
  have hsegments' := segments_eq_append_cons (by decide) hgrains'
  have hself : (⟨.blockComment, (grainText (as ++ codeGrains lead)).length, segment.text⟩ : Segment)
      = segment := by
    rw [← hpos, ← hregion]
  have hplace : (grainText (as ++ codeGrains a)).length = start + a.length := by
    rw [grainText_append, List.length_append, grainText_codeGrains, ← hstart]
  rw [hself] at hsegments
  rw [hplace] at hsegments'
  refine ⟨_, _, _, _, hsegments, hsegments', ?_, ?_⟩
  · simp [trimLast_gather_append (has []) ha, trimLast_gather_append (has []) hlead]
  · rw [map_reading_placed, map_reading_placed, trimFirst_gather_append hb, hbehind,
      trimFirst_gather_append hend]

/-- A comment behind an unclosed literal and before code on its line is replaced by one that takes
up two lines. -/
theorem segments_replace_comment_unclosed_literal :
    let text := "c = 'x\n  /** a */ int y; // z".toList
    let segment : Segment := ⟨.blockComment, 9, "/** a */".toList⟩
    let edited := "c = 'x\n/** b\n */\n int y; // z".toList
    segment ∈ segments text ∧ isDocComment text segment ∧
      ∃ before after before' after',
        segments text = before ++ segment :: after ∧
        segments edited = before' ++ ⟨.blockComment, 7, "/** b\n */".toList⟩ :: after' ∧
        trimLast (before'.map reading) = trimLast (before.map reading) ∧
        trimFirst (after'.map reading) = trimFirst (after.map reading) := by
  intro text segment edited
  have hmem : segment ∈ segments text := by decide +kernel
  have hdoc : isDocComment text segment = true := by decide +kernel
  have hclosing : ¬ HasClosing ("* b\n ".toList ++ ['*']) := by
    rw [HasClosing]
    decide +kernel
  have hstart : lineStart text segment.start = 7 := by decide +kernel
  have hedited : Scanner.assemble text 0 [⟨7, 17, "/** b\n */\n".toList⟩] = edited := by
    decide +kernel
  obtain ⟨before, after, before', after', hsegments, hsegments', hbefore, hafter⟩ :=
    segments_replace_comment hmem hdoc (a := []) (b := ['\n']) (by simp)
      (List.forall_mem_singleton.mpr (by decide)) hclosing
  rw [hstart] at hsegments'
  refine ⟨hmem, hdoc, before, after, before', after', hsegments, ?_, hbefore, hafter⟩
  rw [← hedited]
  exact hsegments'

end DocGraft.Source
