import DocGraft.Comment.Resize
import DocGraft.Proofs.Masking
import DocGraft.Proofs.TextLines
import DocGraft.Proofs.TextRules

/-!
# Closings in texts

A closing is a star with a slash behind it: in the text of a comment it would end the comment. Where
two texts are put together a closing can only come about between a star at the end of the first and
a slash at the beginning of the second. So putting something in front of lines, and all the rules by
which a layout is squeezed or expanded, neither make nor remove a closing.
-/

namespace DocGraft.Text

open List

variable {a b s : Text} {c : Char} {rule : Rule} {lead t u : Text}

/-- A text has a star with a slash behind it. -/
def HasClosing (s : Text) : Prop :=
  ['*', '/'] <:+: s

@[simp] theorem not_hasClosing_nil : ¬ HasClosing [] := by
  simp [HasClosing]

@[simp] theorem not_hasClosing_singleton (c : Char) : ¬ HasClosing [c] := by
  intro h
  have hlen := h.length_le
  simp at hlen

theorem hasClosing_cons_cons {d : Char} :
    HasClosing (c :: d :: s) ↔ (c = '*' ∧ d = '/') ∨ HasClosing (d :: s) := by
  rw [HasClosing, infix_cons_iff, cons_prefix_cons, cons_prefix_cons]
  simp only [ nil_prefix, and_true]
  exact or_congr (and_congr eq_comm eq_comm) Iff.rfl

/-- The closings of two texts put together, between which none comes about. -/
theorem hasClosing_append (h : a.getLast? = some '*' → b.head? ≠ some '/') :
    HasClosing (a ++ b) ↔ HasClosing a ∨ HasClosing b := by
  induction a with
  | nil => simp
  | cons c a ih =>
    cases a with
    | nil =>
      cases b with
      | nil => simp
      | cons d b =>
        rw [singleton_append, hasClosing_cons_cons]
        have hnot : ¬ (c = '*' ∧ d = '/') := by
          rintro ⟨rfl, rfl⟩
          exact h rfl rfl
        simp [hnot]
    | cons d a =>
      rw [cons_append, cons_append, hasClosing_cons_cons, ← cons_append,
        ih (by simpa using h), hasClosing_cons_cons, or_assoc]

theorem hasClosing_cons (hc : c ≠ '*') : HasClosing (c :: s) ↔ HasClosing s := by
  have h := hasClosing_append (a := [c]) (b := s) (by simp [hc])
  simpa using h

theorem hasClosing_concat (hc : c ≠ '/') : HasClosing (s ++ [c]) ↔ HasClosing s := by
  have h := hasClosing_append (a := s) (b := [c]) (by simp [hc])
  simpa using h

/-- No closing goes over a character that is neither star nor slash. -/
theorem hasClosing_append_cons (hstar : c ≠ '*') (hslash : c ≠ '/') :
    HasClosing (a ++ c :: b) ↔ HasClosing a ∨ HasClosing b := by
  rw [hasClosing_append (by simp [hslash]), hasClosing_cons hstar]

theorem hasClosing_newline_newline :
    HasClosing (a ++ '\n' :: '\n' :: b) ↔ HasClosing (a ++ '\n' :: b) := by
  rw [hasClosing_append_cons (by decide) (by decide), hasClosing_cons (by decide),
    hasClosing_append_cons (by decide) (by decide)]

theorem not_hasClosing_of_notMem (h : '/' ∉ s) : ¬ HasClosing s := fun hs =>
  h (hs.subset (by simp))

theorem HasClosing.of_infix (h : HasClosing s) (hst : s <:+: t) : HasClosing t :=
  h.trans hst

/-! ### Lines -/

theorem hasClosing_unlines {ls : List Text} :
    HasClosing (unlines ls) ↔ ∃ l ∈ ls, HasClosing l := by
  induction ls with
  | nil => simp [unlines]
  | cons l ls ih =>
    rw [unlines_cons, hasClosing_append_cons (by decide) (by decide), ih]
    simp

/-- The closings of two texts of which the first ends where a line begins. -/
theorem AtLineStart.hasClosing_append (h : AtLineStart a) (b : Text) :
    HasClosing (a ++ b) ↔ HasClosing a ∨ HasClosing b :=
  Text.hasClosing_append fun hstar => absurd (h '*' hstar) (by decide)

theorem hasClosing_flatMap {α : Type} {f : α → Text} {xs : List α}
    (h : ∀ x ∈ xs, AtLineStart (f x)) :
    HasClosing (xs.flatMap f) ↔ ∃ x ∈ xs, HasClosing (f x) := by
  induction xs with
  | nil => simp
  | cons x xs ih =>
    rw [flatMap_cons, (h x mem_cons_self).hasClosing_append,
      ih fun y hy => h y (mem_cons_of_mem x hy)]
    simp

theorem exists_mem_fields_hasClosing : (∃ l ∈ fields '\n' s, HasClosing l) ↔ HasClosing s := by
  obtain ⟨ls, rest, rfl, hls, hrest⟩ := exists_unlines_append s
  induction ls with
  | nil =>
    rw [show unlines [] ++ rest = rest from rfl, fields_of_notMem hrest]
    simp
  | cons l ls ih =>
    rw [unlines_cons, append_assoc, cons_append, fields_append_cons (hls l mem_cons_self),
      hasClosing_append_cons (by decide) (by decide), ← ih fun m hm => hls m (mem_cons_of_mem l hm)]
    simp

/-- Leading lines with a text that has no closing and does not end with a star. -/
theorem hasClosing_leadLinesFrom (hlead : ¬ HasClosing lead) (hlast : lead.getLast? ≠ some '*')
    {fresh : Bool} (hc : fresh = true → c ≠ '*') (s : Text) :
    HasClosing (c :: leadLinesFrom lead fresh s) ↔ HasClosing (c :: s) := by
  induction s generalizing fresh c with
  | nil => cases fresh <;> rfl
  | cons d s ih =>
    have htail : HasClosing (d :: leadLinesFrom lead (d = '\n') s) ↔ HasClosing (d :: s) :=
      ih fun h => by
        obtain rfl : d = '\n' := by simpa using h
        decide
    cases fresh with
    | false => rw [leadLinesFrom, hasClosing_cons_cons, hasClosing_cons_cons, htail]
    | true =>
      simp [leadLinesFrom, hasClosing_cons (hc rfl), hasClosing_append (fun h => absurd h hlast),
        htail, hlead]

theorem hasClosing_leadLines (hlead : ¬ HasClosing lead) (hlast : lead.getLast? ≠ some '*')
    (s : Text) : HasClosing (leadLines lead s) ↔ HasClosing s := by
  have h : HasClosing (' ' :: leadLinesFrom lead true s) ↔ HasClosing (' ' :: s) :=
    hasClosing_leadLinesFrom hlead hlast (by simp) s
  rwa [hasClosing_cons (by decide), hasClosing_cons (by decide)] at h

/-! ### Neutral rules -/

theorem hasClosing_append_iff_getLast? :
    HasClosing (a ++ b) ↔ HasClosing a ∨ HasClosing (a.getLast?.toList ++ b) := by
  induction a with
  | nil => simp
  | cons c a ih =>
    cases a with
    | nil => simp
    | cons d a =>
      rw [cons_append, cons_append, hasClosing_cons_cons, ← cons_append, ih,
        hasClosing_cons_cons, getLast?_cons_cons, or_assoc]

/-- No closing goes over a text without one that neither begins with a slash nor ends with a
star. -/
theorem hasClosing_between {m : Text} (hm : ¬ HasClosing m) (hne : m ≠ [])
    (hhead : m.head? ≠ some '/') (hlast : m.getLast? ≠ some '*') :
    HasClosing (a ++ (m ++ b)) ↔ HasClosing a ∨ HasClosing b := by
  obtain ⟨c, m, rfl⟩ := exists_cons_of_ne_nil hne
  rw [hasClosing_append (fun _ => by simpa using hhead),
    hasClosing_append (fun h => absurd h hlast)]
  simp [hm]

theorem not_hasClosing_of_isBlank (h : ∀ c ∈ u, isBlank c) : ¬ HasClosing u :=
  not_hasClosing_of_notMem fun hmem => absurd (h _ hmem) (by decide)

/-- No closing goes over blanks. -/
theorem hasClosing_between_blank (hu : ∀ c ∈ u, isBlank c) (hne : u ≠ []) :
    HasClosing (a ++ (u ++ b)) ↔ HasClosing a ∨ HasClosing b := by
  refine hasClosing_between (not_hasClosing_of_isBlank hu) hne (fun h => ?_) fun h => ?_
  · exact absurd (hu _ (mem_of_head? h)) (by decide)
  · exact absurd (hu _ (mem_of_getLast? h)) (by decide)

/-- A rule that neither makes nor removes a closing. A star is the last character written only if it
is the last one read, unless markup follows. -/
structure Neutral (rule : Rule) : Prop where
  apply : ∀ written before s out n, (s.head? ≠ some '<' → written = some '*' → before = some '*') →
    rule before s = some (out, n) → ∃ u rest, s = u ++ rest ∧ u ≠ [] ∧ u.length = n ∧
      (rest.head? ≠ some '<' → (written.toList ++ out).getLast? = some '*' →
        u.getLast? = some '*') ∧
      (HasClosing (written.toList ++ (out ++ rest)) ↔ HasClosing (written.toList ++ (u ++ rest)))

theorem Neutral.consumes (h : Neutral rule) : Consumes rule := by
  intro before s out n hrule
  obtain ⟨u, rest, hs, hne, hlength, -⟩ := h.apply before before s out n (fun _ h => h) hrule
  exact ⟨u, rest, hs, hne, hlength⟩

/-- Wherever a neutral rule is applied. -/
theorem Neutral.hasClosing_rewrites (h : Neutral rule) {k : Nat} {before : Option Char}
    (hr : Rewrites rule k before s t) (written : Option Char)
    (hlinked : s.head? ≠ some '<' → written = some '*' → before = some '*') :
    HasClosing (written.toList ++ t) ↔ HasClosing (written.toList ++ s) := by
  induction hr generalizing written with
  | rest => rfl
  | @keep _ _ c s t _ ih =>
    have htail : HasClosing (c :: t) ↔ HasClosing (c :: s) := ih (some c) fun _ h => h
    cases written with
    | none => exact htail
    | some d => simp [hasClosing_cons_cons, htail]
  | @place _ _ u s out t hne hrule _ ih =>
    obtain ⟨v, rest, hs, -, hlength, hlinked', hiff⟩ := h.apply written _ _ out _ hlinked hrule
    obtain ⟨rfl, rfl⟩ := append_inj hs hlength.symm
    rw [← append_assoc, hasClosing_append_iff_getLast?, ih _ hlinked',
      ← hasClosing_append_iff_getLast?, append_assoc, hiff]

theorem Neutral.hasClosing_substitute (h : Neutral rule) (s : Text) :
    HasClosing (substitute rule s) ↔ HasClosing s := by
  obtain ⟨k, hk⟩ := h.consumes.exists_rewrites none s
  exact h.hasClosing_rewrites hk none fun _ h => h

theorem Neutral.hasClosing_substituteFirst? (h : Neutral rule)
    (ht : substituteFirst? rule s = some t) : HasClosing t ↔ HasClosing s :=
  h.hasClosing_rewrites (h.consumes.rewrites_first ht) none fun _ h => h

end DocGraft.Text

namespace DocGraft.Layout

open List Text

variable {before : Option Char} {n : Nat} {out s : Text} {rule : Rule}

/-! ### The rules of resizing -/

/-- The rules that squeeze a layout drop an empty paragraph, or white space before markup or at the
beginning of a line. -/
theorem exists_of_mem_squeezeRules (h : rule ∈ squeezeRules)
    (hrule : rule before s = some (out, n)) :
    ∃ u rest, s = u ++ rest ∧ u ≠ [] ∧ u.length = n ∧
      (u = "<p>\n\n<p>".toList ∧ out = "<p>".toList ∨
        (∀ c ∈ u, isBlank c) ∧ out = [] ∧ (rest.head? = some '<' ∨ ∀ c ∈ before, c = '\n')) := by
  have hrules : rule = paragraphRule ∨ rule = blankLineRule ∨
      ∃ tags : List String, (∀ tag ∈ tags, tag.toList.head? = some '<') ∧ rule = joinRule tags := by
    simp only [squeezeRules, mem_cons, not_mem_nil, or_false] at h
    rcases h with h | h | h | h
    · exact .inl h
    · exact .inr (.inr ⟨_, by decide, h⟩)
    · exact .inr (.inr ⟨_, by decide, h⟩)
    · exact .inr (.inl h)
  rcases hrules with rfl | rfl | ⟨tags, htags, rfl⟩
  · rw [paragraphRule, literalRule, Option.ite_none_right_eq_some, startsWith_iff,
      Option.some.injEq, Prod.mk.injEq] at hrule
    obtain ⟨⟨rest, rfl⟩, rfl, rfl⟩ := hrule
    simp
  · simp only [blankLineRule, drop_run, Option.ite_none_right_eq_some, Option.some.injEq,
      Prod.mk.injEq] at hrule
    obtain ⟨⟨hbefore, hhead⟩, rfl, rfl⟩ := hrule
    obtain ⟨rest, hrest⟩ := head?_eq_some_iff.mp hhead
    refine ⟨s.takeWhile (fun c => isBlank c && c ≠ '\n') ++ ['\n'], rest,
      ?_, by simp, by simp [run],
      .inr ⟨fun c hc => ?_, rfl, .inr fun c hc => ?_⟩⟩
    · simp [← hrest]
    · rcases mem_append.mp hc with hc | hc
      · have hboth := mem_takeWhile_imp hc
        exact (Bool.and_eq_true_iff.mp hboth).1
      · rw [mem_singleton.mp hc]
        decide
    · grind [Option.mem_def.mp hc]
  · simp only [joinRule, drop_run, Option.ite_none_right_eq_some, Option.some.injEq, Prod.mk.injEq,
      any_eq_true] at hrule
    obtain ⟨⟨hpos, tag, htag, hstarts⟩, rfl, rfl⟩ := hrule
    refine ⟨s.takeWhile isBlank, s.dropWhile isBlank, takeWhile_append_dropWhile.symm,
      length_pos_iff.mp hpos, rfl, .inr ⟨fun _ => mem_takeWhile_imp, rfl, .inl ?_⟩⟩
    obtain ⟨rest, hrest⟩ := startsWith_iff.mp hstarts
    grind

theorem head?_ne_of_isBlank {u : Text} (h : ∀ c ∈ u, isBlank c) (hne : u ≠ []) (rest : Text) :
    (u ++ rest).head? ≠ some '<' := by
  rw [head?_append_of_ne_nil _ hne]
  exact fun hlt => absurd (h _ (mem_of_head? hlt)) (by decide)

theorem neutral_of_mem (h : rule ∈ squeezeRules) : Neutral rule where
  apply written before s out n hlinked hrule := by
    obtain ⟨u, rest, rfl, hne, hlength, ⟨rfl, rfl⟩ | ⟨hblank, rfl, hplace⟩⟩ :=
      exists_of_mem_squeezeRules h hrule
    · refine ⟨_, rest, rfl, hne, hlength, fun _ hstar => absurd hstar (by simp), ?_⟩
      rw [hasClosing_between (not_hasClosing_of_notMem (by decide)) (by decide) (by decide)
        (by decide), hasClosing_between (not_hasClosing_of_notMem (by decide)) (by decide)
        (by decide) (by decide)]
    · have hstar : rest.head? ≠ some '<' → written ≠ some '*' := fun hrest hwritten =>
        absurd (hplace.resolve_left hrest _
          (hlinked (head?_ne_of_isBlank hblank hne rest) hwritten)) (by decide)
      have hlast : (written.toList ++ []).getLast? = written := by cases written <;> rfl
      refine ⟨u, rest, rfl, hne, hlength, fun hrest h => absurd (hlast ▸ h) (hstar hrest), ?_⟩
      rw [nil_append, hasClosing_between_blank hblank hne, hasClosing_append]
      grind

/-- The rules that put empty lines around blocks double a line end. -/
theorem exists_double_newline (h : rule ∈ [openerRule, closerRule])
    (hrule : rule before s = some (out, n)) :
    ∃ u rest, s = u ++ '\n' :: rest ∧ out ++ s.drop n = u ++ '\n' :: '\n' :: rest := by
  simp only [mem_cons, not_mem_nil, or_false] at h
  rcases h with rfl | rfl
  · unfold openerRule at hrule
    split at hrule
    · next c rest =>
      simp only [Option.ite_none_right_eq_some, Option.some.injEq, Prod.mk.injEq] at hrule
      obtain ⟨-, rfl, rfl⟩ := hrule
      exact ⟨[c], rest, rfl, rfl⟩
    · simp at hrule
  · obtain ⟨tag, htag, hrule⟩ := exists_of_findSome?_eq_some hrule
    split at hrule
    · next c rest hafter =>
      split_ifs at hrule
      simp only [Option.some.injEq, Prod.mk.injEq] at hrule
      obtain ⟨rfl, rfl⟩ := hrule
      rw [after?_eq_some_iff] at hafter
      have hlast : tag.toList.getLast? = some '\n' := by
        simp only [mem_cons, not_mem_nil, or_false] at htag
        rcases htag with rfl | rfl | rfl | rfl | rfl <;> decide
      obtain ⟨lead, hlead⟩ := getLast?_eq_some_iff.mp hlast
      refine ⟨lead, c :: rest, by simp [hafter, hlead], ?_⟩
      rw [hafter, ← String.length_toList, drop_left, hlead]
      simp
    · simp at hrule

theorem exists_of_substituteFirst?_double (h : rule ∈ [openerRule, closerRule]) {r : Text}
    (hr : substituteFirst? rule s = some r) :
    ∃ u rest, s = u ++ '\n' :: rest ∧ r = u ++ '\n' :: '\n' :: rest := by
  obtain ⟨a, t, out, n, rfl, hrule, rfl⟩ := exists_of_substituteFirstFrom? hr
  obtain ⟨u, rest, rfl, hout⟩ := exists_double_newline h hrule
  grind

end DocGraft.Layout

/-! ## Texts that are one comment -/

namespace DocGraft.Text

/-- The first closing of a text. -/
theorem HasClosing.exists_first {s : Text} (h : HasClosing s) :
    ∃ a b, s = a ++ '*' :: '/' :: b ∧ ¬ HasClosing (a ++ ['*']) := by
  induction s with
  | nil => exact absurd h not_hasClosing_nil
  | cons c s ih =>
    by_cases hs : ∃ b, c = '*' ∧ s = '/' :: b
    · obtain ⟨b, rfl, rfl⟩ := hs
      exact ⟨[], b, rfl, not_hasClosing_singleton '*'⟩
    · have hclosing : HasClosing s := by
        cases s with
        | nil => exact absurd h (not_hasClosing_singleton c)
        | cons d s =>
          refine (hasClosing_cons_cons.mp h).resolve_left ?_
          rintro ⟨rfl, rfl⟩
          exact hs ⟨s, rfl, rfl⟩
      obtain ⟨a, b, rfl, ha⟩ := ih hclosing
      refine ⟨c :: a, b, rfl, fun hfirst => ?_⟩
      cases a with
      | nil => exact absurd hfirst (by simp [hasClosing_cons_cons])
      | cons d a =>
        rw [List.cons_append, List.cons_append, hasClosing_cons_cons] at hfirst
        rcases hfirst with ⟨rfl, rfl⟩ | hfirst
        · exact hs ⟨_, rfl, rfl⟩
        · exact ha hfirst

end DocGraft.Text

namespace DocGraft.Source

open List Text

variable {a t v : Text}

/-- The segments that are not white space. -/
def solid (segments : List Segment) : List Segment :=
  segments.filter fun segment => !(segment.region = .code && allBlank segment.text)

/-- Whether a text is read as one closed comment with white space around it. -/
def isLoneComment (text : Text) : Bool :=
  match solid (segments text) with
  | [segment] =>
    segment.region = .blockComment && endsWith "*/".toList segment.text && 4 ≤ segment.text.length
  | _ => false

theorem regionAt_isBlank {c : Char} (hc : isBlank c) (t : Text) : regionAt [] (c :: t) = .code := by
  refine regionAt_eq_code_iff.mpr ⟨?_, ?_, ?_⟩ <;> rintro rfl <;> exact absurd hc (by decide)

theorem codeLength_blank (ha : ∀ c ∈ a, isBlank c) (ht : codeLength t = 0) :
    codeLength (a ++ t) = a.length := by
  induction a with
  | nil => exact ht
  | cons c a ih =>
    simp [codeLength_cons (regionAt_isBlank (ha c mem_cons_self) _), ih fun d hd => ha d
      (mem_cons_of_mem c hd)]

/-- White space before a comment, or at the end of a text, is read as code. -/
theorem reads_blank (ha : ∀ c ∈ a, isBlank c) (hne : a ≠ []) (ht : codeLength t = 0) :
    Reads .code a t where
  ne_nil := hne
  region_eq := by
    obtain ⟨c, a, rfl⟩ := exists_cons_of_ne_nil hne
    exact regionAt_isBlank (ha c mem_cons_self) _
  length_eq := codeLength_blank ha ht

theorem solid_segmentsFrom_blank (ha : ∀ c ∈ a, isBlank c) (ht : codeLength t = 0) (pos : Nat) :
    solid (segmentsFrom [] pos 0 (a ++ t)) = solid (segmentsFrom [] (pos + a.length) 0 t) := by
  by_cases hne : a = []
  · rw [hne]
    rfl
  · grind [(reads_blank ha hne ht).segmentsFrom, solid, allBlank]

/-- A text without solid segments is white space. -/
theorem isBlank_of_solid_eq_nil {pos : Nat} (h : solid (segmentsFrom [] pos 0 t) = []) :
    ∀ c ∈ t, isBlank c := by
  induction t using segment_induction generalizing pos with
  | nil => simp
  | cons region w t hreads ih =>
    rw [hreads.segmentsFrom, solid, filter_eq_nil_iff] at h
    intro c hc
    rcases mem_append.mp hc with hc | hc
    · have hw := h _ mem_cons_self
      simp only [Bool.not_eq_eq_eq_not, Bool.not_true, Bool.not_eq_false, Bool.and_eq_true,
        decide_eq_true_eq, allBlank, all_eq_true] at hw
      exact hw.2 c hc
    · have htail : solid (segmentsFrom [] (pos + w.length) 0 t) = [] :=
        filter_eq_nil_iff.mpr fun segment hs => h segment (mem_cons_of_mem _ hs)
      exact ih htail c hc

/-- The solid segments of a text that begins with a comment, after white space. -/
theorem solid_segments_comment (ha : ∀ c ∈ a, isBlank c) (hv : ¬ HasClosing (v ++ ['*']))
    (t : Text) :
    ∃ pos, solid (segments (a ++ ('/' :: '*' :: (v ++ ['*', '/']) ++ t))) =
      ⟨.blockComment, a.length, '/' :: '*' :: (v ++ ['*', '/'])⟩ ::
        solid (segmentsFrom [] pos 0 t) := by
  have hreads : Reads .blockComment ('/' :: '*' :: (v ++ ['*', '/'])) t := by
    cases stands_block_of_closed hv t with
    | word hr h => exact h
  have hcode : codeLength ('/' :: '*' :: (v ++ ['*', '/']) ++ t) = 0 := by
    simp [codeLength]
  refine ⟨a.length + ('/' :: '*' :: (v ++ ['*', '/'])).length, ?_⟩
  rw [segments_eq, solid_segmentsFrom_blank ha hcode, hreads.segmentsFrom, solid,
    filter_cons_of_pos (by simp), Nat.zero_add]
  rfl

/-- A comment that ends with a closing is read as one comment exactly if that closing is its
first. -/
theorem isLoneComment_iff {b : Text} (ha : ∀ c ∈ a, isBlank c) (hb : ∀ c ∈ b, isBlank c) :
    isLoneComment (a ++ ('/' :: '*' :: (v ++ ['*', '/']) ++ b)) = true ↔
      ¬ HasClosing (v ++ ['*']) := by
  constructor
  · intro hlone hclosing
    obtain ⟨v₁, v₂, hv, hfirst⟩ := hclosing.exists_first
    have hsplit : '/' :: '*' :: (v ++ ['*', '/']) ++ b =
        '/' :: '*' :: (v₁ ++ ['*', '/']) ++ (v₂ ++ '/' :: b) := by
      have h := congrArg (· ++ '/' :: b) hv
      simpa using h
    obtain ⟨pos, hsolid⟩ := solid_segments_comment ha hfirst (v₂ ++ '/' :: b)
    have hmore : solid (segmentsFrom [] pos 0 (v₂ ++ '/' :: b)) ≠ [] := fun hnil =>
      absurd (isBlank_of_solid_eq_nil hnil '/' (by simp)) (by decide)
    obtain ⟨segment, rest, hrest⟩ := exists_cons_of_ne_nil hmore
    rw [hsplit, isLoneComment, hsolid, hrest] at hlone
    simp at hlone
  · intro hclosing
    obtain ⟨pos, hsolid⟩ := solid_segments_comment ha hclosing b
    have hnone : solid (segmentsFrom [] pos 0 b) = [] := by
      have h := solid_segmentsFrom_blank (t := []) hb rfl pos
      rwa [append_nil] at h
    have hend : endsWith "*/".toList ('/' :: '*' :: (v ++ ['*', '/'])) = true :=
      endsWith_iff.mpr ⟨'/' :: '*' :: v, rfl⟩
    rw [isLoneComment, hsolid, hnone]
    simp only [hend]
    simp

end DocGraft.Source
