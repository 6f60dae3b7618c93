import DocGraft.Proofs.WrapSpacing
import DocGraft.Proofs.TextLines

/-!
# How far wrapped lines reach beyond the width

A line of wide characters and spaces is broken by a count of its weight that starts again at each
break, although the new line may begin with the character before which it was broken. Between two
breaks the count goes beyond the width only along a run of characters after which a line may end. So
the open line weighs at most two more than the count, and the count at most the width and such a
run.

The main results are `Comment.fits_wrapFrom` and `Comment.weight_line_wrapLine_le`.
-/

namespace DocGraft

open List

namespace Text

variable {s u : Text}

/-- The weight of the heaviest run of neighbouring characters that satisfy `p`. -/
def heaviestRun (p : Char → Bool) : Text → Nat
  | [] => 0
  | c :: s => max (weight ((c :: s).takeWhile p)) (heaviestRun p s)

theorem weight_takeWhile_le (p : Char → Bool) (s : Text) :
    weight (s.takeWhile p) ≤ heaviestRun p s := by
  cases s with
  | nil => exact Nat.le_refl 0
  | cons c s => exact Nat.le_max_left _ _

theorem heaviestRun_le_cons (p : Char → Bool) (c : Char) (s : Text) :
    heaviestRun p s ≤ heaviestRun p (c :: s) :=
  Nat.le_max_right _ _

theorem weight_append (s t : Text) : weight (s ++ t) = weight s + weight t := by
  induction s with
  | nil => simp [weight]
  | cons c s ih => rw [cons_append, weight, weight, ih, Nat.add_assoc]

theorem weight_reverse (s : Text) : weight s.reverse = weight s := by
  induction s with
  | nil => rfl
  | cons c s ih => rw [reverse_cons, weight_append, ih, weight, weight, weight, Nat.add_comm]; rfl

/-- All lines of a text weigh at most `bound`, where the first one goes on from a weight `w`. -/
def Fits (bound : Int) : (w : Nat) → Text → Prop
  | w, [] => w ≤ bound
  | w, c :: s => if c = '\n' then w ≤ bound ∧ Fits bound 0 s else Fits bound (w + charWeight c) s

variable {bound : Int} {w : Nat}

theorem fits_append (hu : '\n' ∉ u) (s : Text) :
    Fits bound w (u ++ s) ↔ Fits bound (w + weight u) s := by
  induction u generalizing w with
  | nil => rfl
  | cons c u ih =>
    rw [mem_cons, not_or] at hu
    rw [cons_append, Fits, if_neg (Ne.symm hu.1), ih hu.2, weight, Nat.add_assoc]

theorem fits_newline : Fits bound w ('\n' :: s) ↔ w ≤ bound ∧ Fits bound 0 s := by
  rw [Fits, if_pos rfl]

theorem fits_of_notMem (hu : '\n' ∉ u) (h : (w + weight u : Int) ≤ bound) : Fits bound w u := by
  rw [← append_nil u, fits_append hu, Fits]
  exact_mod_cast h

theorem lines_concat_newline (s : Text) : lines (s ++ ['\n']) = fields '\n' s := by
  obtain ⟨ls, rest, rfl, hls, hrest⟩ := exists_unlines_append s
  have hall : ∀ l ∈ ls ++ [rest], '\n' ∉ l := by
    rw [forall_mem_append]
    exact ⟨hls, by simpa using hrest⟩
  rw [← unlines_concat, lines_unlines hall, fields_unlines_append hls, fields_of_notMem hrest]

theorem Fits.weight_fields_le (h : Fits bound 0 s) :
    ∀ l ∈ fields '\n' s, (weight l : Int) ≤ bound := by
  obtain ⟨ls, rest, rfl, hls, hrest⟩ := exists_unlines_append s
  rw [fields_unlines_append hls, fields_of_notMem hrest]
  induction ls with
  | nil =>
    have hlast := (fits_append (s := []) hrest).mp (by simpa [unlines] using h)
    simpa [Fits] using hlast
  | cons l ls ih =>
    obtain ⟨hl, hls⟩ := forall_mem_cons.mp hls
    rw [unlines_cons, append_assoc, fits_append hl, cons_append, fits_newline, Nat.zero_add] at h
    exact forall_mem_cons.mpr ⟨h.1, ih h.2 hls⟩

end Text

namespace Comment

open Text

variable {settings : WrapSettings} {width : Int} {c next : Char} {line : Text} {w : Int}

/-- A character of wide text that stays on its line is within the width, or a line may end after
it. -/
theorem le_width_of_breakAt (hmin : 0 ≤ settings.minMargin) (hc : c = ' ' ∨ charWeight c = 2)
    (h : breakAt settings width w c next = .none) :
    w ≤ width ∨ c ∈ settings.punctuation ++ settings.particles := by
  rw [breakAt] at h
  split_ifs at h with hlow hspace hbreaker hnext hwidth hwide
  · exact .inl (by omega)
  · exact .inr hbreaker
  · exact .inl hwidth
  · rw [not_or] at hwide
    have := hc.resolve_left hspace
    omega

/-- No line of wide text is broken at a place behind. -/
theorem breakAt_ne_behind (hc : c = ' ' ∨ charWeight c = 2) :
    breakAt settings width w c next ≠ .behind := by
  intro h
  rw [breakAt] at h
  split_ifs at h with hlow hspace hbreaker hnext hwidth hwide
  rw [not_or] at hwide
  have := hc.resolve_left hspace
  omega

theorem ne_newline_of_wide (hc : c = ' ' ∨ charWeight c = 2) : c ≠ '\n' := by
  rintro rfl
  rcases hc with hc | hc
  · cases hc
  · revert hc
    decide

theorem charWeight_le (c : Char) : charWeight c ≤ 2 := by
  rw [charWeight]
  split_ifs <;> omega

/-- What the count says of the open line, `R` being the weight of the heaviest run of characters
after which a line may end. -/
structure Counted (settings : WrapSettings) (width : Int) (R e : Nat) (line : Text) (w : Int)
    (s : Text) : Prop where
  wide : ∀ c ∈ s, c = ' ' ∨ charWeight c = 2
  newline : '\n' ∉ line
  count : w = weight line
  extra : e ≤ 2
  excess : ∃ r : Nat, w ≤ width + r ∧
    r + weight (s.takeWhile (· ∈ settings.punctuation ++ settings.particles)) ≤ R
  runs : heaviestRun (· ∈ settings.punctuation ++ settings.particles) s ≤ R

namespace Counted

variable {R e : Nat} {line : Text} {w : Int} {c : Char} {s : Text}

theorem weight_le (h : Counted settings width R e line w s) :
    (e + weight line : Int) ≤ width + R + 2 := by
  obtain ⟨r, hr, hrun⟩ := h.excess
  have := h.count
  have := h.extra
  omega

theorem fresh (h : Counted settings width R e line w (c :: s)) (hwidth : 0 ≤ width) {e' : Nat}
    (he : e' ≤ 2) : Counted settings width R e' [] 0 s where
  wide b hb := h.wide b (mem_cons_of_mem c hb)
  newline := by simp
  count := rfl
  extra := he
  excess := by
    have hruns := (weight_takeWhile_le _ s).trans ((heaviestRun_le_cons _ c s).trans h.runs)
    exact ⟨0, by omega, by omega⟩
  runs := (heaviestRun_le_cons _ c s).trans h.runs

theorem keep (h : Counted settings width R e line w (c :: s)) (hmin : 0 ≤ settings.minMargin)
    {next : Char} (hbreak : breakAt settings width (w + charWeight c) c next = .none) :
    Counted settings width R e (c :: line) (w + charWeight c) s where
  wide b hb := h.wide b (mem_cons_of_mem c hb)
  newline := by
    rw [mem_cons, not_or]
    exact ⟨(ne_newline_of_wide (h.wide c mem_cons_self)).symm, h.newline⟩
  count := by
    rw [weight, h.count]
    omega
  extra := h.extra
  excess := by
    obtain ⟨r, hr, hrun⟩ := h.excess
    by_cases hbreaker : c ∈ settings.punctuation ++ settings.particles
    · rw [takeWhile_cons_of_pos (by simpa using hbreaker), weight] at hrun
      exact ⟨r + charWeight c, by omega, by omega⟩
    · have hruns := (weight_takeWhile_le _ s).trans ((heaviestRun_le_cons _ c s).trans h.runs)
      have hle := le_width_of_breakAt hmin (h.wide c mem_cons_self) hbreak
      exact ⟨0, by have := hle.resolve_right hbreaker; omega, by omega⟩
  runs := (heaviestRun_le_cons _ c s).trans h.runs

/-- A line that ends after a character of a run. -/
theorem weight_cons_le (h : Counted settings width R e line w (c :: s))
    (hbreaker : c ∈ settings.punctuation ++ settings.particles) :
    (e + weight (c :: line) : Int) ≤ width + R + 2 := by
  obtain ⟨r, hr, hrun⟩ := h.excess
  rw [takeWhile_cons_of_pos (by simpa using hbreaker), weight] at hrun
  have := h.count
  have := h.extra
  rw [weight]
  omega

end Counted

/-- The lines of what is left of a line of wide text stay within the bound. -/
theorem fits_wrapFrom (hwidth : 0 ≤ width) (hmin : 0 ≤ settings.minMargin)
    (hskip : 0 ≤ settings.skipMargin) {R e : Nat} {s : Text}
    (h : Counted settings width R e line w s) :
    Fits (width + settings.skipMargin + 4 + R) e (wrapFrom settings width line w s) := by
  fun_induction wrapFrom settings width line w s generalizing e
  case case1 line w =>
    have hweight := h.weight_le
    refine fits_of_notMem (by simpa using h.newline) ?_
    rw [weight_reverse]
    omega
  case case2 line w c =>
    have hweight := h.weight_le
    have hc := charWeight_le c
    refine fits_of_notMem ?_ ?_
    · rw [mem_reverse, mem_cons, not_or]
      exact ⟨(ne_newline_of_wide (h.wide c mem_cons_self)).symm, h.newline⟩
    · rw [weight_reverse, weight]
      omega
  case case3 line w c d s hrest =>
    -- The rest that is kept whole is weighed without its last character.
    have hlast : weight (c :: d :: s) ≤ weight (c :: d :: s).dropLast + 2 := by
      have hsplit := dropLast_append_getLast (cons_ne_nil c (d :: s))
      have hweight := congrArg weight hsplit
      have hc := charWeight_le ((c :: d :: s).getLast (cons_ne_nil c (d :: s)))
      rw [weight_append, weight, weight] at hweight
      omega
    have hcount := h.count
    have hextra := h.extra
    rw [fits_append (by simpa using h.newline), weight_reverse]
    refine fits_of_notMem (fun hmem => ne_newline_of_wide (h.wide _ hmem) rfl) ?_
    push_cast
    omega
  case case4 line w c d s hrest w' hbreak ih => exact ih (h.keep hmin hbreak)
  case case5 line w c d s hrest w' hbreak ih =>
    have hweight := h.weight_le
    rw [fits_append (by simpa using h.newline), fits_newline, weight_reverse]
    exact ⟨by push_cast; omega, ih (h.fresh hwidth (Nat.zero_le 2))⟩
  case case6 line w c d s hrest w' hbreak ih =>
    have hweight := h.weight_cons_le (mem_of_breakAt hbreak)
    have hnewline : '\n' ∉ (c :: line).reverse := by
      rw [mem_reverse, mem_cons, not_or]
      exact ⟨(ne_newline_of_wide (h.wide c mem_cons_self)).symm, h.newline⟩
    have hsplit : line.reverse ++ c :: '\n' :: wrapFrom settings width [] 0 (d :: s) =
        (c :: line).reverse ++ '\n' :: wrapFrom settings width [] 0 (d :: s) := by simp
    rw [hsplit, fits_append hnewline, fits_newline, weight_reverse]
    exact ⟨by push_cast; omega, ih (h.fresh hwidth (Nat.zero_le 2))⟩
  case case7 line w c d s hrest w' hbreak ih =>
    have hweight := h.weight_le
    have hc := ne_newline_of_wide (h.wide c mem_cons_self)
    rw [fits_append (by simpa using h.newline), fits_newline, weight_reverse, Fits, if_neg hc]
    exact ⟨by push_cast; omega, ih (h.fresh hwidth (by rw [Nat.zero_add]; exact charWeight_le c))⟩
  case case8 line w c d s hrest w' hbreak broken ih =>
    exact absurd hbreak (breakAt_ne_behind (h.wide c mem_cons_self))

/-- Every line into which wide text is broken weighs at most the width, the margin for a rest that
is kept whole, two wide characters and the heaviest run of characters after which a line may end. -/
theorem weight_line_wrapLine_le {line : Text} (hline : ∀ c ∈ line, c = ' ' ∨ charWeight c = 2)
    (hwidth : 1 ≤ width) (hmin : 0 ≤ settings.minMargin) (hskip : 0 ≤ settings.skipMargin) :
    ∀ l ∈ lines (wrapLine settings width line), (weight l : Int) ≤ width + settings.skipMargin + 4 +
      heaviestRun (· ∈ settings.punctuation ++ settings.particles) line := by
  have hcounted :
      Counted settings width (heaviestRun (· ∈ settings.punctuation ++ settings.particles) line)
      0 [] 0 line := {
    wide := hline
    newline := by simp
    count := rfl
    extra := Nat.zero_le 2
    excess := ⟨0, by omega, by simpa using weight_takeWhile_le _ line⟩
    runs := Nat.le_refl _ }
  have hfits := fits_wrapFrom (by omega) hmin hskip hcounted
  intro l hl
  have hmem : l ∈ fields '\n' (wrapFrom settings width [] 0 line) := by
    rwa [wrapLine, lines_concat_newline] at hl
  exact hfits.weight_fields_le l hmem

/-- A line that reaches the bound: it begins with the character before which it was broken, and its
rest is kept whole. -/
theorem weight_line_wrapLine_le_reached :
    let settings : WrapSettings := { minMargin := 0, skipMargin := 2 }
    let line := "漢字漢字漢".toList
    (∀ c ∈ line, c = ' ' ∨ charWeight c = 2) ∧ (1 : Int) ≤ 2 ∧ 0 ≤ settings.minMargin ∧
      0 ≤ settings.skipMargin ∧
      wrapLine settings 2 line = "漢\n字漢字漢\n".toList ∧
      (weight "字漢字漢".toList : Int) = 2 + settings.skipMargin + 4 ∧
      ∀ l ∈ lines (wrapLine settings 2 line), (weight l : Int) ≤ 2 + settings.skipMargin + 4 +
        heaviestRun (· ∈ settings.punctuation ++ settings.particles) line := by
  intro settings line
  have hall : (line.all fun c => charWeight c = 2) = true := by decide +kernel
  have hline : ∀ c ∈ line, c = ' ' ∨ charWeight c = 2 := fun c hc =>
    .inr (of_decide_eq_true (List.all_eq_true.mp hall c hc))
  exact ⟨hline, by decide, by decide, by decide, by decide +kernel, by decide +kernel,
    weight_line_wrapLine_le hline (by decide) (by decide) (by decide)⟩

end Comment

end DocGraft
