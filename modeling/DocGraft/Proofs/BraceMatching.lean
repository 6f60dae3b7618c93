import DocGraft.Proofs.MaskedScans

/-!
# Matching braces

The end of a body is looked for with a count that goes up at each opening brace and down at each
closing one. It comes back to zero behind the closing brace that matches the first opening one, if
no closing brace stands between the start of the search and that opening one. A closing brace there
takes part in the count, and then the offset that is found is never the end of the body.

The main results are `Source.braceEndFrom_eq_some_iff` and `Source.braceEnd?_isBodyEnd_iff`.
-/

namespace DocGraft.Source

open List Text

variable {c : Char} {depth : Int} {i j n pos start stop : Nat} {opened : Bool} {s text : Text}

/-! ### The count -/

/-- How much a character adds to the count. -/
def rise (c : Char) : Int :=
  if c = '{' then 1 else if c = '}' then -1 else 0

/-- How much a text adds to the count. -/
def excess (s : Text) : Int :=
  (s.map rise).sum

theorem excess_cons (c : Char) (s : Text) : excess (c :: s) = rise c + excess s :=
  sum_cons

theorem excess_append (s t : Text) : excess (s ++ t) = excess s + excess t := by
  simp [excess]

theorem excess_eq_count (s : Text) : excess s = s.count '{' - s.count '}' := by
  induction s with
  | nil => rfl
  | cons c s ih =>
    rw [excess_cons, ih, rise, count_cons, count_cons]
    split_ifs with hopen hclose <;> simp_all <;> omega

/-- The count comes to zero at the end of a text, and not before. -/
structure Returns (depth : Int) (s : Text) (n : Nat) : Prop where
  lt : n < s.length
  zero : depth + excess (s.take (n + 1)) = 0
  least : ∀ m < n, depth + excess (s.take (m + 1)) ≠ 0

theorem returns_zero_iff : Returns depth (c :: s) 0 ↔ depth + rise c = 0 := by
  constructor
  · intro h
    simpa [excess] using h.zero
  · exact fun h => ⟨by simp, by simpa [excess] using h, by simp⟩

theorem returns_succ_iff (h : depth + rise c ≠ 0) :
    Returns depth (c :: s) (n + 1) ↔ Returns (depth + rise c) s n := by
  have hcount : ∀ m, depth + excess ((c :: s).take (m + 1)) =
      depth + rise c + excess (s.take m) := by
    intro m
    rw [take_succ_cons, excess_cons, Int.add_assoc]
  constructor
  · intro hreturns
    refine ⟨Nat.lt_of_succ_lt_succ hreturns.lt, ?_, fun m hm => ?_⟩
    · rw [← hcount]
      exact hreturns.zero
    · rw [← hcount]
      exact hreturns.least (m + 1) (Nat.succ_lt_succ hm)
  · intro hreturns
    refine ⟨Nat.succ_lt_succ hreturns.lt, ?_, fun m hm => ?_⟩
    · rw [hcount]
      exact hreturns.zero
    · rw [hcount]
      cases m with
      | zero => simpa [excess] using h
      | succ m => exact hreturns.least m (Nat.lt_of_succ_lt_succ hm)

/-- Where the count ends, it has come to zero. -/
theorem exists_excess_of_braceEndFrom (h : braceEndFrom pos depth opened s = some stop) :
    ∃ n, stop = pos + n + 1 ∧ depth + excess (s.take (n + 1)) = 0 := by
  induction s generalizing pos depth opened with
  | nil => cases h
  | cons c s ih =>
    have hnext : ∀ opened', braceEndFrom (pos + 1) (depth + rise c) opened' s = some stop →
        ∃ n, stop = pos + n + 1 ∧ depth + excess ((c :: s).take (n + 1)) = 0 := by
      intro opened' hfound
      obtain ⟨n, rfl, hzero⟩ := ih hfound
      refine ⟨n + 1, by omega, ?_⟩
      rw [take_succ_cons, excess_cons, ← Int.add_assoc, hzero]
    rw [braceEndFrom] at h
    split_ifs at h with hopen hclose hend
    · exact hnext true (by rwa [rise, if_pos hopen])
    · refine ⟨0, (Option.some.inj h).symm, ?_⟩
      rw [Bool.and_eq_true, decide_eq_true_eq] at hend
      simpa [excess, rise, hclose, ← Int.sub_eq_add_neg] using hend.2
    · exact hnext opened (by rwa [rise, if_neg hopen, if_pos hclose])
    · exact hnext opened (by rwa [rise, if_neg hopen, if_neg hclose, Int.add_zero])

/-- A positive count ends where it first comes back to zero. -/
theorem braceEndFrom_eq_some_iff (hdepth : 0 < depth) :
    braceEndFrom pos depth true s = some stop ↔ ∃ n, stop = pos + n + 1 ∧ Returns depth s n := by
  induction s generalizing pos depth with
  | nil => exact ⟨nofun, fun ⟨n, _, h⟩ => absurd h.lt (Nat.not_lt_zero n)⟩
  | cons c s ih =>
    by_cases hzero : depth + rise c = 0
    · -- Only a closing brace takes the last step, and the count ends there.
      have hclose : c = '}' ∧ depth - 1 = 0 := by
        rw [rise] at hzero
        split_ifs at hzero with hopen hclose <;> first | omega | exact ⟨hclose, by omega⟩
      rw [braceEndFrom, hclose.1, if_neg (by decide), if_pos rfl, if_pos (by simp [hclose.2])]
      constructor
      · intro h
        exact ⟨0, (Option.some.inj h).symm, returns_zero_iff.mpr (hclose.1 ▸ hzero)⟩
      · rintro ⟨n, rfl, hreturns⟩
        cases n with
        | zero => rfl
        | succ n =>
          refine absurd ?_ (hreturns.least 0 (Nat.succ_pos n))
          simpa [excess, hclose.1] using hzero
    · have hnext : braceEndFrom pos depth true (c :: s) =
          braceEndFrom (pos + 1) (depth + rise c) true s := by
        rw [braceEndFrom]
        rw [rise] at hzero ⊢
        grind
      have hpos : 0 < depth + rise c := by
        grind [rise]
      rw [hnext, ih hpos]
      constructor
      · rintro ⟨n, rfl, hreturns⟩
        exact ⟨n + 1, by omega, (returns_succ_iff hzero).mpr hreturns⟩
      · rintro ⟨n, rfl, hreturns⟩
        cases n with
        | zero => exact absurd (returns_zero_iff.mp hreturns) hzero
        | succ n => exact ⟨n, by omega, (returns_succ_iff hzero).mp hreturns⟩

theorem braceEndFrom_of_notMem (h : '{' ∉ s) : braceEndFrom pos depth false s = none := by
  induction s generalizing pos depth with
  | nil => rfl
  | cons c s ih =>
    rw [mem_cons, not_or] at h
    rw [braceEndFrom, if_neg (Ne.symm h.1), ih h.2, ih h.2]
    simp

/-! ### The end of a body -/

/-- The first opening brace at or after an offset. -/
structure IsFirstOpening (text : Text) (start i : Nat) : Prop where
  le : start ≤ i
  opening : text[i]? = some '{'
  first : ∀ k, start ≤ k → k < i → text[k]? ≠ some '{'

/-- The offset behind the first character with which the text from the first opening brace on has as
many closing braces as opening ones. -/
def IsBodyEnd (text : Text) (start stop : Nat) : Prop :=
  ∃ i j, IsFirstOpening text start i ∧ i < j ∧ j < text.length ∧ stop = j + 1 ∧
    (slice text i (j + 1)).count '{' = (slice text i (j + 1)).count '}' ∧
    ∀ k, i < k → k < j → (slice text i (k + 1)).count '{' ≠ (slice text i (k + 1)).count '}'

/-- No closing brace stands between an offset and the first opening brace behind it. -/
def StrayFree (text : Text) (start : Nat) : Prop :=
  ∀ i, IsFirstOpening text start i → '}' ∉ slice text start i

theorem IsFirstOpening.opening_notMem (h : IsFirstOpening text start i) :
    '{' ∉ slice text start i := by
  intro hmem
  obtain ⟨k, hk⟩ := mem_iff_getElem?.mp hmem
  rw [slice, getElem?_take] at hk
  split_ifs at hk with hlt
  rw [getElem?_drop] at hk
  exact h.first (start + k) (by omega) (by omega) hk

theorem IsFirstOpening.length_slice (h : IsFirstOpening text start i) :
    (slice text start i).length = i - start := by
  obtain ⟨hlt, -⟩ := List.getElem?_eq_some_iff.mp h.opening
  rw [slice, length_take, length_drop]
  omega

theorem IsFirstOpening.drop_opening (h : IsFirstOpening text start i) :
    text.drop i = '{' :: text.drop (i + 1) := by
  obtain ⟨hlt, hget⟩ := List.getElem?_eq_some_iff.mp h.opening
  rw [drop_eq_getElem_cons hlt, hget]

theorem IsFirstOpening.drop_start (h : IsFirstOpening text start i) :
    text.drop start = slice text start i ++ '{' :: text.drop (i + 1) := by
  have hdrop : text.drop i = (text.drop start).drop (i - start) := by
    rw [drop_drop, Nat.add_sub_cancel' h.le]
  rw [← h.drop_opening, hdrop, slice, take_append_drop]

/-- What an opening brace at or after the offset leads to. -/
theorem exists_isFirstOpening (h : '{' ∈ text.drop start) : ∃ i, IsFirstOpening text start i := by
  obtain ⟨w, s, hsplit, hnone⟩ := eq_append_cons_of_mem h
  refine ⟨start + w.length, Nat.le_add_right _ _, ?_, fun k hle hlt hk => hnone ?_⟩
  · simp [← getElem?_drop, hsplit]
  · obtain ⟨m, rfl⟩ := Nat.exists_eq_add_of_le hle
    rw [← getElem?_drop, hsplit, getElem?_append_left (by omega)] at hk
    exact mem_of_getElem? hk

theorem IsFirstOpening.eq (h : IsFirstOpening text start i) (h' : IsFirstOpening text start j) :
    i = j := by
  rcases Nat.lt_trichotomy i j with hlt | heq | hlt
  · exact absurd h.opening (h'.first i h.le hlt)
  · exact heq
  · exact absurd h'.opening (h.first j h'.le hlt)

/-- The braces from the first opening one up to an offset behind it are even when the count, with
that one in it, is zero. -/
theorem IsFirstOpening.count_eq_iff (h : IsFirstOpening text start i) (m : Nat) :
    (slice text i (i + 1 + m + 1)).count '{' = (slice text i (i + 1 + m + 1)).count '}' ↔
      1 + excess ((text.drop (i + 1)).take (m + 1)) = 0 := by
  have hslice : slice text i (i + 1 + m + 1) = '{' :: (text.drop (i + 1)).take (m + 1) := by
    rw [slice, h.drop_opening, show i + 1 + m + 1 - i = m + 1 + 1 by omega, take_succ_cons]
  have hexcess : excess (slice text i (i + 1 + m + 1)) =
      1 + excess ((text.drop (i + 1)).take (m + 1)) := by
    rw [hslice, excess_cons]
    rfl
  rw [← hexcess, excess_eq_count]
  omega

/-- The end of a body is where the count that begins behind its opening brace returns. -/
theorem IsFirstOpening.isBodyEnd_iff (h : IsFirstOpening text start i) :
    IsBodyEnd text start stop ↔
      ∃ n, stop = i + 1 + n + 1 ∧ Returns 1 (text.drop (i + 1)) n := by
  constructor
  · rintro ⟨i', j, hfirst, hlt, hlength, rfl, heven, hleast⟩
    obtain rfl := h.eq hfirst
    obtain ⟨n, rfl⟩ := Nat.exists_eq_add_of_le (Nat.succ_le_of_lt hlt)
    refine ⟨n, rfl, by rw [length_drop]; omega, (h.count_eq_iff n).mp heven, fun m hm => ?_⟩
    exact mt (h.count_eq_iff m).mpr (hleast (i + 1 + m) (by omega) (by omega))
  · rintro ⟨n, rfl, hreturns⟩
    have hlength := hreturns.lt
    rw [length_drop] at hlength
    refine ⟨i, i + 1 + n, h, by omega, by omega, rfl, (h.count_eq_iff n).mpr hreturns.zero, ?_⟩
    intro k hlt hk
    obtain ⟨m, rfl⟩ := Nat.exists_eq_add_of_le (Nat.succ_le_of_lt hlt)
    exact mt (h.count_eq_iff m).mp (hreturns.least m (by omega))

/-- A search with no stray brace finds the end of the body, and nothing if there is none. A search
with a stray brace never finds it. -/
theorem braceEnd?_isBodyEnd_iff (text : Text) (start : Nat) :
    (StrayFree text start → ∀ stop, braceEnd? text start = some stop ↔ IsBodyEnd text start stop) ∧
      ∀ stop, IsBodyEnd text start stop →
        (braceEnd? text start = some stop ↔ StrayFree text start) := by
  have hfree : StrayFree text start →
      ∀ stop, braceEnd? text start = some stop ↔ IsBodyEnd text start stop := by
    intro hfree stop
    by_cases hmem : '{' ∈ text.drop start
    · obtain ⟨i, hfirst⟩ := exists_isFirstOpening hmem
      have hlength : start + (slice text start i).length = i := by
        rw [hfirst.length_slice, Nat.add_sub_cancel' hfirst.le]
      rw [braceEnd?, hfirst.drop_start, braceEndFrom_append hfirst.opening_notMem (hfree i hfirst),
        hlength, braceEndFrom, if_pos rfl, braceEndFrom_eq_some_iff (by decide),
        hfirst.isBodyEnd_iff]
      rfl
    · rw [braceEnd?, braceEndFrom_of_notMem hmem]
      refine ⟨fun hnone => absurd hnone (by simp), ?_⟩
      rintro ⟨i, _, hfirst, _⟩
      refine absurd ?_ hmem
      rw [hfirst.drop_start]
      simp
  refine ⟨hfree, fun stop hbody => ⟨fun hfound i hfirst => ?_, fun h => (hfree h stop).mpr hbody⟩⟩
  -- Both counts are zero at the end, so the braces before the first opening one are even.
  obtain ⟨n, hstop, hzero⟩ := exists_excess_of_braceEndFrom hfound
  obtain ⟨m, hstop', hreturns⟩ := hfirst.isBodyEnd_iff.mp hbody
  have hlength := hfirst.length_slice
  have hle := hfirst.le
  have htake : n + 1 = (slice text start i).length + (m + 1 + 1) := by omega
  rw [hfirst.drop_start, htake, take_length_add_append, take_succ_cons, excess_append, excess_cons,
    excess_eq_count, count_eq_zero.mpr hfirst.opening_notMem] at hzero
  have hreturn := hreturns.zero
  rw [← count_eq_zero]
  change _ + (_ - _ + (1 + _)) = (0 : Int) at hzero
  omega

/-- A body with another one inside it. -/
theorem braceEnd?_isBodyEnd_nested :
    let text := "a \x7b\x7b\x7d b\x7d \x7d".toList
    StrayFree text 0 ∧ braceEnd? text 0 = some 8 ∧ IsBodyEnd text 0 8 := by
  intro text
  have hfirst : IsFirstOpening text 0 2 := by
    refine ⟨by decide, by decide, fun k _ hk => ?_⟩
    interval_cases k <;> decide
  have hfree : StrayFree text 0 := by
    intro i hi
    rw [hi.eq hfirst]
    decide
  have hfound : braceEnd? text 0 = some 8 := by decide
  exact ⟨hfree, hfound, ((braceEnd?_isBodyEnd_iff text 0).1 hfree 8).mp hfound⟩

/-- A stray brace keeps the count from coming back to zero at the end of the body. -/
theorem braceEnd?_stray_brace :
    IsBodyEnd "\x7d \x7b \x7d".toList 0 5 ∧ braceEnd? "\x7d \x7b \x7d".toList 0 = none := by
  refine ⟨⟨2, 4, ⟨by decide, by decide, fun k _ hk => ?_⟩, by decide, by decide, rfl, by decide,
    fun k hlt hk => ?_⟩, by decide⟩
  · interval_cases k <;> decide
  · obtain rfl : k = 3 := by omega
    decide

end DocGraft.Source
