import Mathlib
import DocGraft.Text.Lines

/-!
# Texts as lists of lines

A text that ends with a line end is the text of a list of lines, and the operations on lines act on
that list: `mapLines` maps it, `leadLines` puts a lead in front of each of its members, and the
number of line ends is its length.
-/

namespace DocGraft.Text

open List

variable {a : Text} {ls : List Text} {l u : Text} {sep : Char} {ts : List Text}

/-! ### Fields -/

theorem fields_of_notMem (h : sep ∉ a) : fields sep a = [a] := by
  induction a with
  | nil => rfl
  | cons c a ih =>
    rw [mem_cons, not_or] at h
    rw [fields, if_neg (Ne.symm h.1), ih h.2]

theorem fields_append_cons (h : sep ∉ a) (s : Text) :
    fields sep (a ++ sep :: s) = a :: fields sep s := by
  induction a with
  | nil => simp [fields]
  | cons c a ih =>
    rw [mem_cons, not_or] at h
    rw [cons_append, fields, if_neg (Ne.symm h.1), ih h.2]

theorem joinWith_cons (sep t : Text) (h : ts ≠ []) :
    joinWith sep (t :: ts) = t ++ sep ++ joinWith sep ts := by
  cases ts with
  | nil => exact absurd rfl h
  | cons u us => rfl

theorem fields_joinWith {t : Text} (h : ∀ u ∈ t :: ts, sep ∉ u) :
    fields sep (joinWith [sep] (t :: ts)) = t :: ts := by
  induction ts generalizing t with
  | nil => exact fields_of_notMem (h t mem_cons_self)
  | cons u ts ih =>
    obtain ⟨ht, h⟩ := forall_mem_cons.mp h
    rw [joinWith_cons _ _ (by simp), append_assoc, singleton_append, fields_append_cons ht, ih h]

/-- Joined texts without separators give the texts. -/
theorem eq_of_joinWith_eq {us : List Text} (hts : ∀ t ∈ ts, sep ∉ t) (hus : ∀ u ∈ us, sep ∉ u)
    (hlength : ts.length = us.length) (h : joinWith [sep] ts = joinWith [sep] us) : ts = us := by
  cases ts with
  | nil => grind
  | cons t ts =>
    cases us with
    | nil => simp at hlength
    | cons u us => rw [← fields_joinWith hts, h, fields_joinWith hus]

theorem fields_ne_nil (sep : Char) (s : Text) : fields sep s ≠ [] := by
  cases s with
  | nil => simp [fields]
  | cons c s =>
    grind [fields]

theorem joinWith_fields (sep : Char) (s : Text) : joinWith [sep] (fields sep s) = s := by
  induction s with
  | nil => rfl
  | cons c s ih =>
    obtain ⟨f, fs, hfields⟩ := exists_cons_of_ne_nil (fields_ne_nil sep s)
    rw [hfields] at ih
    rw [fields, hfields]
    split_ifs with hc
    · rw [joinWith_cons [sep] [] (by simp), ih, hc]
      rfl
    · cases fs with
      | nil => exact congrArg (c :: ·) ih
      | cons g gs => exact congrArg (c :: ·) ih

theorem fields_append_sep (sep : Char) (a b : Text) :
    fields sep (a ++ sep :: b) = fields sep a ++ fields sep b := by
  induction a with
  | nil => simp [fields]
  | cons c a ih =>
    rw [cons_append, fields, ih, fields]
    split
    · rfl
    · obtain ⟨f, fs, hf⟩ := exists_cons_of_ne_nil (fields_ne_nil sep a)
      rw [hf]
      rfl

theorem exists_fields_append {lead : Text} (hlead : '\n' ∉ lead) (s : Text) :
    ∃ rest others, fields '\n' (lead ++ s) = (lead ++ rest) :: others := by
  induction lead with
  | nil => exact exists_cons_of_ne_nil (fields_ne_nil '\n' s)
  | cons c lead ih =>
    rw [mem_cons, not_or] at hlead
    obtain ⟨rest, others, h⟩ := ih hlead.2
    simp [fields, if_neg (Ne.symm hlead.1), h]

/-! ### The text of a list of lines -/

/-- The text of a list of lines, each with its line end. -/
def unlines (ls : List Text) : Text :=
  ls.flatMap (· ++ ['\n'])

theorem unlines_cons (l : Text) (ls : List Text) : unlines (l :: ls) = l ++ '\n' :: unlines ls := by
  simp [unlines]

theorem unlines_append (ls ms : List Text) : unlines (ls ++ ms) = unlines ls ++ unlines ms := by
  simp [unlines]

theorem unlines_concat (ls : List Text) (l : Text) :
    unlines (ls ++ [l]) = unlines ls ++ l ++ ['\n'] := by
  simp [unlines]

theorem joinWith_concat_nil (ls : List Text) : joinWith ['\n'] (ls ++ [[]]) = unlines ls := by
  induction ls with
  | nil => rfl
  | cons l ls ih =>
    rw [cons_append, joinWith_cons _ _ (by simp), ih, unlines_cons]
    simp

theorem fields_unlines_append (h : ∀ l ∈ ls, '\n' ∉ l) (s : Text) :
    fields '\n' (unlines ls ++ s) = ls ++ fields '\n' s := by
  induction ls with
  | nil => rfl
  | cons l ls ih =>
    simp [unlines_cons, fields_append_cons (h l mem_cons_self), ih fun m hm => h m (mem_cons_of_mem
      l hm)]

theorem fields_unlines (h : ∀ l ∈ ls, '\n' ∉ l) : fields '\n' (unlines ls) = ls ++ [[]] := by
  simpa [fields] using fields_unlines_append h []

/-- A line end at the end of a text opens no further line. -/
theorem lines_unlines (h : ∀ l ∈ ls, '\n' ∉ l) : lines (unlines ls) = ls := by
  simp [lines, fields_unlines h]

/-- The last line may lack its line end. -/
theorem lines_unlines_append (h : ∀ m ∈ ls, '\n' ∉ m) (hl : '\n' ∉ l) (hne : l ≠ []) :
    lines (unlines ls ++ l) = ls ++ [l] := by
  simp [fields_unlines_append h, fields_of_notMem hl, lines, hne]

theorem count_unlines (h : ∀ l ∈ ls, '\n' ∉ l) : (unlines ls).count '\n' = ls.length := by
  induction ls with
  | nil => rfl
  | cons l ls ih =>
    simp [unlines_cons, count_eq_zero_of_not_mem (h l mem_cons_self), ih fun m hm => h m
      (mem_cons_of_mem l hm)]

/-- Every text is the text of lines with a rest behind them that has no line end. -/
theorem exists_unlines_append (s : Text) :
    ∃ ls rest, s = unlines ls ++ rest ∧ (∀ l ∈ ls, '\n' ∉ l) ∧ '\n' ∉ rest := by
  induction s with
  | nil => exact ⟨[], [], rfl, by simp, by simp⟩
  | cons c s ih =>
    obtain ⟨ls, rest, rfl, hls, hrest⟩ := ih
    by_cases hc : c = '\n'
    · subst hc
      refine ⟨[] :: ls, rest, by simp [unlines_cons], ?_, hrest⟩
      intro l hl
      rcases mem_cons.mp hl with rfl | hl
      · simp
      · exact hls l hl
    · cases ls with
      | nil => exact ⟨[], c :: rest, by simp [unlines], by simp, by simp [Ne.symm hc, hrest]⟩
      | cons l ls =>
        refine ⟨(c :: l) :: ls, rest, by simp [unlines_cons], ?_, hrest⟩
        intro m hm
        rcases mem_cons.mp hm with rfl | hm
        · simp [Ne.symm hc, hls l mem_cons_self]
        · exact hls m (mem_cons_of_mem l hm)

/-- A text that ends with a line end is the text of its lines. -/
theorem exists_unlines (s : Text) :
    ∃ ls, s ++ ['\n'] = unlines ls ∧ ∀ l ∈ ls, '\n' ∉ l := by
  obtain ⟨ls, rest, rfl, hls, hrest⟩ := exists_unlines_append s
  refine ⟨ls ++ [rest], (unlines_concat ls rest).symm, ?_⟩
  intro l hl
  rcases mem_append.mp hl with hl | hl
  · exact hls l hl
  · rwa [mem_singleton.mp hl]

/-! ### Beginnings of lines -/

/-- A text ends where a line begins. -/
def AtLineStart (a : Text) : Prop :=
  ∀ c ∈ a.getLast?, c = '\n'

theorem atLineStart_nil : AtLineStart [] := by
  simp [AtLineStart]

theorem atLineStart_concat {c : Char} : AtLineStart (a ++ [c]) ↔ c = '\n' := by
  simp [AtLineStart]

theorem AtLineStart.append {b : Text} (ha : AtLineStart a) (hb : AtLineStart b) :
    AtLineStart (a ++ b) := by
  rcases eq_nil_or_concat b with rfl | ⟨b, c, rfl⟩
  · rwa [append_nil]
  · rw [concat_eq_append] at hb ⊢
    rw [← append_assoc]
    exact atLineStart_concat.mpr (atLineStart_concat.mp hb)

theorem atLineStart_flatMap {α : Type} {f : α → Text} {xs : List α}
    (h : ∀ x ∈ xs, AtLineStart (f x)) : AtLineStart (xs.flatMap f) := by
  induction xs with
  | nil => exact atLineStart_nil
  | cons x xs ih =>
    rw [flatMap_cons]
    exact (h x mem_cons_self).append (ih fun y hy => h y (mem_cons_of_mem x hy))

theorem atLineStart_unlines (ls : List Text) : AtLineStart (unlines ls) :=
  atLineStart_flatMap fun _ _ => atLineStart_concat.mpr rfl

theorem AtLineStart.exists_unlines (ha : AtLineStart a) :
    ∃ ls, a = unlines ls ∧ ∀ l ∈ ls, '\n' ∉ l := by
  rcases eq_nil_or_concat a with rfl | ⟨a, c, rfl⟩
  · exact ⟨[], rfl, by simp⟩
  · rw [concat_eq_append] at ha ⊢
    rw [atLineStart_concat.mp ha]
    exact Text.exists_unlines a

/-! ### Operations on lines -/

theorem mapLines_unlines (f : Text → Text) (hf : f [] = []) (h : ∀ l ∈ ls, '\n' ∉ l) :
    mapLines f (unlines ls) = unlines (ls.map f) := by
  rw [mapLines, fields_unlines h, map_append, map_singleton, hf, joinWith_concat_nil]

theorem leadLinesFrom_false_append (lead : Text) (hu : '\n' ∉ u) (s : Text) :
    leadLinesFrom lead false (u ++ s) = u ++ leadLinesFrom lead false s := by
  induction u with
  | nil => rfl
  | cons c u ih =>
    rw [mem_cons, not_or] at hu
    have hc : (decide (c = '\n')) = false := decide_eq_false (Ne.symm hu.1)
    rw [cons_append, leadLinesFrom, hc, ih hu.2, cons_append]

theorem leadLinesFrom_true_append (lead : Text) (h : '\n' ∉ l) (s : Text) :
    leadLinesFrom lead true (l ++ '\n' :: s) = lead ++ l ++ '\n' :: leadLinesFrom lead true s := by
  cases l with
  | nil => simp [leadLinesFrom]
  | cons c l =>
    rw [mem_cons, not_or] at h
    have hc : (decide (c = '\n')) = false := decide_eq_false (Ne.symm h.1)
    simp [leadLinesFrom, hc, leadLinesFrom_false_append lead h.2]

theorem leadLines_unlines_append (lead : Text) (h : ∀ l ∈ ls, '\n' ∉ l) (s : Text) :
    leadLines lead (unlines ls ++ s) = unlines (ls.map (lead ++ ·)) ++ leadLines lead s := by
  induction ls with
  | nil => rfl
  | cons l ls ih =>
    grind [unlines_cons, leadLines, leadLinesFrom_true_append lead (h l mem_cons_self), leadLines]

theorem exists_leadLines_append (lead : Text) (hu : '\n' ∉ u) (hne : u ≠ []) (s : Text) :
    ∃ t, leadLines lead (u ++ s) = lead ++ u ++ t := by
  obtain ⟨c, u, rfl⟩ := exists_cons_of_ne_nil hne
  rw [mem_cons, not_or] at hu
  have hc : (decide (c = '\n')) = false := decide_eq_false (Ne.symm hu.1)
  refine ⟨leadLinesFrom lead false s, ?_⟩
  simp [leadLines, leadLinesFrom, hc, leadLinesFrom_false_append lead hu.2]

theorem leadLines_unlines (lead : Text) (h : ∀ l ∈ ls, '\n' ∉ l) :
    leadLines lead (unlines ls) = unlines (ls.map (lead ++ ·)) := by
  simpa [leadLines, leadLinesFrom] using leadLines_unlines_append lead h []

/-- A lead without line ends keeps their number. -/
theorem count_leadLinesFrom (lead : Text) (h : '\n' ∉ lead) (fresh : Bool) (s : Text) :
    (leadLinesFrom lead fresh s).count '\n' = s.count '\n' := by
  induction s generalizing fresh with
  | nil => cases fresh <;> rfl
  | cons c s ih =>
    cases fresh with
    | false => rw [leadLinesFrom, count_cons, count_cons, ih]
    | true =>
      simp [leadLinesFrom, count_eq_zero_of_not_mem h, count_cons, ih]

end DocGraft.Text
