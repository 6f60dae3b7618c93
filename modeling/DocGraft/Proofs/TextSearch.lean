import Mathlib
import DocGraft.Text.Basic

/-!
# Searching and cutting texts

The searches of texts in terms of prefixes, suffixes and infixes of lists: `startsWith`, `endsWith`
and `contains` decide these relations, and `after?` and `cut?` give what stands around the text
that was found.
-/

namespace DocGraft.Text

open List

variable {p : Char → Bool} {s w : Text} {sep : Char} {b lead needle : Text} {c : Char}

theorem after?_eq_some_iff {rest : Text} : after? lead s = some rest ↔ s = lead ++ rest := by
  induction lead generalizing s with
  | nil => simp [after?, eq_comm]
  | cons a lead ih =>
    cases s with
    | nil => simp [after?]
    | cons c s =>
      rw [after?]
      grind

@[simp] theorem after?_append (lead rest : Text) : after? lead (lead ++ rest) = some rest :=
  after?_eq_some_iff.mpr rfl

theorem startsWith_iff : startsWith lead s = true ↔ lead <+: s := by
  rw [startsWith, Option.isSome_iff_exists]
  exact exists_congr fun rest => after?_eq_some_iff.trans eq_comm

theorem endsWith_iff {tail : Text} : endsWith tail s = true ↔ tail <:+ s := by
  rw [endsWith, startsWith_iff, reverse_prefix]

theorem eq_of_cut?_eq_some {a : Text} (h : cut? needle s = some (a, b)) : s = a ++ needle ++ b := by
  induction s generalizing a with
  | nil =>
    grind [cut?]
  | cons c s ih =>
    rw [cut?] at h
    split at h
    · next rest hr =>
      simp only [Option.some.injEq, Prod.mk.injEq] at h
      obtain ⟨rfl, rfl⟩ := h
      simpa using after?_eq_some_iff.mp hr
    · grind [Option.map_eq_some_iff]

theorem contains_iff : contains needle s = true ↔ needle <:+: s := by
  rw [contains, Option.isSome_iff_exists]
  constructor
  · rintro ⟨⟨a, b⟩, h⟩
    exact ⟨a, b, (eq_of_cut?_eq_some h).symm⟩
  · intro h
    induction s with
    | nil =>
      rw [infix_nil] at h
      exact ⟨([], []), by simp [cut?, h]⟩
    | cons c s ih =>
      rw [cut?]
      split
      · next rest _ => exact ⟨_, rfl⟩
      · next hr =>
        rcases infix_cons_iff.mp h with ⟨rest, hrest⟩ | h
        · rw [after?_eq_some_iff.mpr hrest.symm] at hr
          simp at hr
        · grind

theorem prefix_of_append_cons {l : Text} (hw : c ∉ w) (h : w <+: l ++ c :: s) : w <+: l := by
  obtain ⟨t, ht⟩ := h
  rcases append_eq_append_iff.mp ht with ⟨u, rfl, -⟩ | ⟨u, rfl, hu⟩
  · exact prefix_append _ _
  · cases u with
    | nil => simp
    | cons d u =>
      grind

/-- A text does not begin before its first character stands somewhere. -/
theorem infix_of_append {u : Text} (hu : c ∉ u) (h : c :: w <:+: u ++ s) : c :: w <:+: s := by
  induction u with
  | nil => exact h
  | cons d u ih =>
    rw [mem_cons, not_or] at hu
    rcases infix_cons_iff.mp h with ⟨t, ht⟩ | h
    · exact absurd (List.cons.inj ht).1 hu.1
    · exact ih hu.2 h

theorem contains_eq_false_iff : contains needle s = false ↔ ¬ needle <:+: s := by
  rw [← contains_iff, Bool.not_eq_true]

theorem takeWhile_append_of_head (hw : ∀ c ∈ w, p c) (hs : ∀ c ∈ s.head?, p c = false) :
    (w ++ s).takeWhile p = w := by
  rw [takeWhile_append_of_pos hw]
  cases s with
  | nil => simp
  | cons c s => simp [hs c rfl]

theorem takeWhile_ne_append_cons (hw : sep ∉ w) (s : Text) :
    (w ++ sep :: s).takeWhile (· ≠ sep) = w :=
  takeWhile_append_of_head (fun _ hc => decide_eq_true (ne_of_mem_of_not_mem hc hw)) (by simp)

theorem run_append (hw : ∀ c ∈ w, p c) (hs : ∀ c ∈ s.head?, p c = false) :
    run p (w ++ s) = w.length := by
  rw [run, takeWhile_append_of_head hw hs]

theorem cutLast_append_cons (hs : sep ∉ s) (a : Text) : cutLast sep (a ++ sep :: s) = (a, s) := by
  have hreverse : (a ++ sep :: s).reverse = s.reverse ++ sep :: a.reverse := by simp
  rw [cutLast, hreverse, takeWhile_ne_append_cons (by simpa using hs), drop_length_add_append]
  simp

theorem cutLast_of_notMem (hs : sep ∉ s) : cutLast sep s = ([], s) := by
  have hall : s.reverse.takeWhile (· ≠ sep) = s.reverse := by
    simpa using takeWhile_append_of_head (s := [])
      (fun c hc => decide_eq_true (ne_of_mem_of_not_mem hc (mt mem_reverse.mp hs))) (by simp)
  rw [cutLast, hall]
  simp

theorem drop_run (p : Char → Bool) (s : Text) : s.drop (run p s) = s.dropWhile p := by
  have h := congrArg (List.drop (run p s)) (takeWhile_append_dropWhile (p := p) (l := s)).symm
  rwa [run, drop_left] at h

theorem trimEnd_append_cons (a : Text) (hc : p c = false) (hb : ∀ d ∈ b, p d) :
    trimEnd p (a ++ c :: b) = a ++ [c] := by
  rw [trimEnd, reverse_append, reverse_cons, append_assoc,
    dropWhile_append_of_pos (by simpa using hb)]
  simp [hc]

end DocGraft.Text
