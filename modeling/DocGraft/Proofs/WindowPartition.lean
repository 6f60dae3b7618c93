import DocGraft.Proofs.Lexing
import DocGraft.Source.Window

/-!
# Windows cut into segments

A window of a text is cut into segments from left to right. Each segment takes at least one
character and none behind the window, so that the segments lie side by side and fill the window,
and reading can be taken up again at the end of any of them. A cursor that moves through the text
step by step, looking past the window where three quotes may stand, comes to its end after at most
as many rounds as the window has characters, and finds the same segments.

The main results are `Source.tokenize_of_lt`, `Source.windowFrom_eq` and
`Source.tokenize_partitions`.
-/

namespace DocGraft.Source

open List Text

variable {text : Text} {start stop : Nat} {beyond quote s : Text} {g : Text → Nat} {k n : Nat}
  {p : Text → Bool}

/-! ### The first segment of a window -/

theorem length_slice (h : stop ≤ text.length) : (slice text start stop).length = stop - start := by
  rw [slice, length_take, length_drop]
  omega

theorem slice_eq_nil (h : stop ≤ start) : slice text start stop = [] := by
  rw [slice, Nat.sub_eq_zero_of_le h, take_zero]

theorem exists_slice_eq_cons (hlt : start < stop) (hstop : stop ≤ text.length) :
    ∃ c s, slice text start stop = c :: s := by
  refine exists_cons_of_ne_nil (ne_nil_of_length_pos ?_)
  rw [length_slice hstop]
  omega

theorem drop_slice (text : Text) (start stop n : Nat) :
    (slice text start stop).drop n = slice text (start + n) stop := by
  rw [slice, slice, drop_take, drop_drop, Nat.sub_sub]

theorem take_slice (h : start + n ≤ stop) :
    (slice text start stop).take n = slice text start (start + n) := by
  rw [slice, slice, take_take, Nat.add_sub_cancel_left, Nat.min_eq_left (by omega)]

/-- What lies behind the window matters for double quotes only. -/
theorem regionAt_beyond (beyond : Text) (c : Char) (s : Text) :
    regionAt beyond (c :: s) =
      if c = '"' then
        if startsWith ['"', '"'] (s.take 2 ++ beyond) then .textBlock else .stringLiteral
      else regionAt [] (c :: s) := by
  split_ifs with hc hopen
  · rw [hc, regionAt, if_pos hopen]
  · rw [hc, regionAt, if_neg hopen]
  · rw [regionAt.eq_def, regionAt.eq_def]
    split <;> simp_all

/-- The segment with which a window begins. -/
def firstSegment (text : Text) (start stop : Nat) : Segment :=
  let region := regionAt (text.drop stop) (slice text start stop)
  ⟨region, start, (slice text start stop).take (regionLength region (slice text start stop))⟩

@[simp] theorem start_firstSegment (text : Text) (start stop : Nat) :
    (firstSegment text start stop).start = start := rfl

theorem regionLength_beyond_pos (beyond : Text) (c : Char) (s : Text) :
    0 < regionLength (regionAt beyond (c :: s)) (c :: s) := by
  rw [regionAt_beyond]
  split_ifs with hc hopen
  · simp only [regionLength, length_take, length_cons]
    omega
  · simp only [regionLength, length_take, length_cons]
    omega
  · exact regionLength_pos

theorem length_text_firstSegment (text : Text) (start stop : Nat) :
    (firstSegment text start stop).text.length =
      regionLength (regionAt (text.drop stop) (slice text start stop)) (slice text start stop) := by
  rw [firstSegment, length_take, Nat.min_eq_left (regionLength_le _ _)]

/-- The first segment takes at least one character. -/
theorem lt_stop_firstSegment (hlt : start < stop) (hstop : stop ≤ text.length) :
    start < (firstSegment text start stop).stop := by
  obtain ⟨c, s, hslice⟩ := exists_slice_eq_cons hlt hstop
  have hpos := regionLength_beyond_pos (text.drop stop) c s
  rw [← hslice, ← length_text_firstSegment] at hpos
  exact Nat.lt_add_of_pos_right hpos

/-- The first segment takes no character behind the window. -/
theorem stop_firstSegment_le (hlt : start < stop) (hstop : stop ≤ text.length) :
    (firstSegment text start stop).stop ≤ stop := by
  have hle := regionLength_le (regionAt (text.drop stop) (slice text start stop))
    (slice text start stop)
  rw [← length_text_firstSegment, length_slice hstop] at hle
  rw [Segment.stop, start_firstSegment]
  omega

theorem text_firstSegment (hlt : start < stop) (hstop : stop ≤ text.length) :
    (firstSegment text start stop).text =
      slice text start (firstSegment text start stop).stop := by
  have hend := stop_firstSegment_le hlt hstop
  rw [Segment.stop, start_firstSegment] at hend ⊢
  rw [length_text_firstSegment] at hend ⊢
  exact take_slice hend

theorem tokenize_self (text : Text) (stop : Nat) : tokenize text stop stop = [] := by
  rw [tokenize, slice_eq_nil (Nat.le_refl stop), segmentsFrom]

/-- The first segment of a window and the segments of the rest. -/
theorem tokenize_of_lt (hlt : start < stop) (hstop : stop ≤ text.length) :
    tokenize text start stop =
      firstSegment text start stop :: tokenize text (firstSegment text start stop).stop stop := by
  have hfirst := lt_stop_firstSegment hlt hstop
  rw [Segment.stop, start_firstSegment, length_text_firstSegment] at hfirst ⊢
  obtain ⟨c, s, hslice⟩ := exists_slice_eq_cons hlt hstop
  have hrest := drop_slice text start stop
    (regionLength (regionAt (text.drop stop) (slice text start stop)) (slice text start stop))
  rw [tokenize, tokenize, ← hrest, firstSegment]
  rw [hslice] at hfirst ⊢
  obtain ⟨n, hn⟩ := Nat.exists_eq_add_of_lt hfirst
  have hlength : regionLength (regionAt (text.drop stop) (c :: s)) (c :: s) = n + 1 := by omega
  rw [segmentsFrom, segmentsFrom_skip]
  simp only [hlength, Nat.add_sub_cancel, drop_succ_cons, Nat.add_assoc, Nat.add_comm 1]

/-- Induction along the segments of a window, from its end. -/
theorem window_induction {P : Nat → Prop} (hstop : stop ≤ text.length) (done : P stop)
    (step : ∀ start, start < stop → P (firstSegment text start stop).stop → P start)
    (hstart : start ≤ stop) : P start := by
  induction hn : stop - start using Nat.strong_induction_on generalizing start with
  | _ n ih =>
    rcases Nat.eq_or_lt_of_le hstart with rfl | hlt
    · exact done
    · have hmore := lt_stop_firstSegment hlt hstop
      have hend := stop_firstSegment_le hlt hstop
      exact step start hlt (ih _ (by omega) hend rfl)

/-! ### Segments side by side -/

/-- The segments are not empty, hold the text at their place and lie side by side from `start` to
`stop`. -/
def Tiles (text : Text) : (start : Nat) → List Segment → (stop : Nat) → Prop
  | start, [], stop => start = stop
  | start, segment :: rest, stop =>
    segment.start = start ∧ segment.text ≠ [] ∧
      segment.text = slice text segment.start segment.stop ∧ Tiles text segment.stop rest stop

theorem tiles_tokenize (hstart : start ≤ stop) (hstop : stop ≤ text.length) :
    Tiles text start (tokenize text start stop) stop := by
  refine window_induction (P := fun start => Tiles text start (tokenize text start stop) stop)
    hstop ?_ ?_ hstart
  · rw [tokenize_self]
    rfl
  · intro start hlt ih
    rw [tokenize_of_lt hlt hstop]
    refine ⟨rfl, ?_, text_firstSegment hlt hstop, ih⟩
    have hpos := lt_stop_firstSegment hlt hstop
    rw [Segment.stop, start_firstSegment] at hpos
    exact ne_nil_of_length_pos (by omega)

namespace Tiles

variable {segments : List Segment}

variable (h : Tiles text start segments stop)

include h

theorem mem {segment : Segment} (mem : segment ∈ segments) :
    segment.text ≠ [] ∧ segment.text = slice text segment.start segment.stop := by
  induction segments generalizing start with
  | nil => cases mem
  | cons first rest ih =>
    obtain ⟨-, hne, htext, hrest⟩ := h
    rcases mem_cons.mp mem with rfl | mem
    · exact ⟨hne, htext⟩
    · exact ih hrest mem

theorem head? : ∀ first ∈ segments.head?, first.start = start := by
  cases segments with
  | nil => simp
  | cons first rest => simpa using h.1

theorem isChain : segments.IsChain fun segment next => segment.stop = next.start := by
  induction segments generalizing start with
  | nil => exact .nil
  | cons first rest ih =>
    obtain ⟨-, -, -, hrest⟩ := h
    rw [isChain_cons]
    exact ⟨fun next hnext => (hrest.head? next hnext).symm, ih hrest⟩

theorem getLast? : ∀ last ∈ segments.getLast?, last.stop = stop := by
  induction segments generalizing start with
  | nil => simp
  | cons first rest ih =>
    obtain ⟨-, -, -, hrest⟩ := h
    cases rest with
    | nil =>
      intro last hlast
      obtain rfl : first = last := by simpa using hlast
      exact hrest
    | cons next rest => exact ih hrest

end Tiles

/-- Reading can be taken up where a segment begins and where it ends. -/
theorem tokenize_restart (hstart : start ≤ stop) (hstop : stop ≤ text.length)
    {before after : List Segment} {segment : Segment}
    (h : tokenize text start stop = before ++ segment :: after) :
    tokenize text segment.start stop = segment :: after ∧
      tokenize text segment.stop stop = after := by
  induction before generalizing start with
  | nil =>
    rcases Nat.eq_or_lt_of_le hstart with rfl | hlt
    · rw [tokenize_self] at h
      cases h
    · have hfirst := h
      rw [tokenize_of_lt hlt hstop] at h
      obtain ⟨rfl, hrest⟩ := List.cons.inj h
      exact ⟨hfirst, hrest⟩
  | cons first before ih =>
    rcases Nat.eq_or_lt_of_le hstart with rfl | hlt
    · rw [tokenize_self] at h
      cases h
    · rw [tokenize_of_lt hlt hstop] at h
      exact ih (stop_firstSegment_le hlt hstop) (List.cons.inj h).2

theorem tokenize_eq_nil_iff (hstart : start ≤ stop) (hstop : stop ≤ text.length) :
    tokenize text start stop = [] ↔ start = stop := by
  refine ⟨fun h => ?_, fun h => h ▸ tokenize_self text start⟩
  rcases Nat.eq_or_lt_of_le hstart with heq | hlt
  · exact heq
  · rw [tokenize_of_lt hlt hstop] at h
    cases h

/-! ### The cursor -/

theorem placeOf_natCast (h : n ≤ text.length) : placeOf text n = n := by
  rw [placeOf, if_neg (by omega)]
  omega

/-- The cursor looks at the characters of the window. -/
theorem charAt_natCast (hstop : stop ≤ text.length) (pos : Nat) :
    charAt text stop pos = .ok (slice text pos stop).head? := by
  rw [charAt]
  split_ifs with hdone hout
  · rw [slice_eq_nil (by omega)]
    rfl
  · omega
  · rw [placeOf_natCast (by omega), slice, head?_take, if_neg (by omega)]

theorem drop_eq_slice_append (hstart : start ≤ stop) :
    text.drop start = slice text start stop ++ text.drop stop := by
  have h := take_append_drop (stop - start) (text.drop start)
  rw [drop_drop, Nat.add_sub_cancel' hstart] at h
  exact h.symm

theorem startsWith_quotes_take (s beyond : Text) :
    startsWith ['"', '"'] (s.take 2 ++ beyond) = startsWith ['"', '"'] (s ++ beyond) := by
  rcases s with _ | ⟨c, _ | ⟨d, s⟩⟩
  · rfl
  · rfl
  · simp only [startsWith, after?, take_succ_cons, take_zero, cons_append]
    split_ifs <;> rfl

/-- The cursor finds the region of the first segment, although it looks at three quotes in the text
and not in the window. -/
theorem regionOf_eq (hlt : start < stop) (hstop : stop ≤ text.length) :
    regionOf text stop start = .ok (firstSegment text start stop).region := by
  obtain ⟨c, s, hslice⟩ := exists_slice_eq_cons hlt hstop
  have hnext : charAt text stop ((start : Int) + 1) = .ok s.head? := by
    have h := charAt_natCast hstop (start + 1)
    rw [← drop_slice, hslice, drop_one, tail_cons] at h
    exact_mod_cast h
  have hquotes : startsWith ['"', '"', '"'] (text.drop start) =
      (decide (c = '"') && startsWith ['"', '"'] (s.take 2 ++ text.drop stop)) := by
    rw [drop_eq_slice_append hlt.le, hslice, startsWith_quotes_take]
    by_cases hc : c = '"'
    · simp [startsWith, after?, hc]
    · simp [startsWith, after?, hc, Ne.symm hc]
  rw [regionOf, charAt_natCast hstop, hnext, hslice, placeOf_natCast (hlt.le.trans hstop), hquotes,
    firstSegment, hslice, regionAt_beyond, regionAt_cons]
  by_cases hc : c = '"'
  · subst hc
    simp [bind, Except.bind, pure, Except.pure]
  · simp only [bind, Except.bind, pure, Except.pure, head?_cons, Option.some.injEq, hc, if_false]
    split_ifs <;> rfl

/-- A search for the first place at which `p` holds, as a recursion along the text. -/
theorem find?_range_eq (hnil : g [] = 0)
    (hcons : ∀ c s, g (c :: s) = if p (c :: s) then k else g s + 1) (w : Text) :
    (((List.range w.length).find? fun n => p (w.drop n)).map (· + k)).getD w.length = g w := by
  induction w with
  | nil => simp [hnil]
  | cons c s ih =>
    rw [length_cons, range_succ_eq_map, find?_cons, drop_zero, hcons, ← ih]
    split
    · next h => simp [h]
    · next h =>
      rw [find?_map, if_neg (by simp [h])]
      have hshift : ((fun n => p ((c :: s).drop n)) ∘ Nat.succ) = fun n => p (s.drop n) := rfl
      rw [hshift]
      cases (List.range s.length).find? fun n => p (s.drop n) with
      | none => rfl
      | some n =>
        simp only [Option.map_some, Option.getD_some]
        omega

theorem firstAt?_getD (hnil : g [] = 0)
    (hcons : ∀ c s, g (c :: s) = if p (c :: s) then k else g s + 1) (hstart : start ≤ stop)
    (hstop : stop ≤ text.length) :
    ((firstAt? p text start stop).map fun n => Int.ofNat (n + k)).getD stop =
      start + g (slice text start stop) := by
  have h := find?_range_eq hnil hcons (slice text start stop)
  rw [firstAt?, ← h]
  cases (List.range (slice text start stop).length).find? fun n =>
      p ((slice text start stop).drop n) with
  | none =>
    simp only [Option.map_none, Option.getD_none, length_slice hstop]
    omega
  | some n =>
    simp only [Option.map_some, Option.getD_some, Int.ofNat_eq_natCast]
    omega

theorem singleton_prefix_iff {c : Char} : [c] <+: s ↔ s.head? = some c := by
  cases s with
  | nil => simp
  | cons d s => simp [cons_prefix_cons, eq_comm]

theorem codeEnd_eq (hstart : start ≤ stop) (hstop : stop ≤ text.length) :
    codeEnd text stop start = start + codeLength (slice text start stop) := by
  rw [codeEnd, Int.toNat_natCast, Int.toNat_natCast, Nat.min_eq_right hstop]
  refine firstAt?_getD (k := 0) rfl (fun c s => ?_) hstart hstop
  have hopens : (startsWith ['/', '*'] (c :: s) || startsWith ['/', '/'] (c :: s) ||
      decide ((c :: s).head? = some '"') || decide ((c :: s).head? = some '\'')) =
        !decide (regionAt [] (c :: s) = .code) := by
    rw [Bool.eq_iff_iff]
    simp only [Bool.or_eq_true, startsWith_iff, decide_eq_true_eq, Bool.not_eq_true',
      decide_eq_false_iff_not, regionAt_eq_code_iff, cons_prefix_cons, head?_cons,
      Option.some.injEq, singleton_prefix_iff]
    grind
  rw [hopens]
  by_cases h : regionAt [] (c :: s) = .code
  · simp [h, codeLength_cons h]
  · simp [h, codeLength_eq_zero h]

theorem commentEnd_eq {closing : Text} (hnil : g [] = 0)
    (hcons : ∀ c s, g (c :: s) = if startsWith closing (c :: s) then k else g s + 1)
    (hstart : start + 2 ≤ stop) (hstop : stop ≤ text.length) :
    commentEnd closing k text stop start = start + 2 + g (slice text (start + 2) stop) := by
  have hplace : placeOf text ((start : Int) + 2) = start + 2 := by
    exact_mod_cast placeOf_natCast (hstart.trans hstop)
  rw [commentEnd, hplace, placeOf_natCast hstop]
  exact_mod_cast firstAt?_getD hnil hcons hstart hstop

/-- How far a literal goes behind its opening if it closes with `quote`, whatever lies `beyond`. -/
structure Quoted (g : Text → Nat) (quote : Text) : Prop where
  nil : g [] = 0
  lone : g ['\\'] = 1
  escape : ∀ c s, g ('\\' :: c :: s) = g s + 2
  cons : ∀ c s beyond, c ≠ '\\' → g (c :: s) =
    if startsWith quote (c :: s ++ beyond) then min quote.length (s.length + 1)
    else if c = '\n' ∧ quote.length = 1 then 0 else g s + 1

/-- The cursor passes over the inside of a literal. -/
theorem literalEnd_eq (h : Quoted g quote) (hstop : stop ≤ text.length) (fuel : Nat)
    (hstart : start ≤ stop) (hfuel : stop - start ≤ fuel) :
    literalEnd quote text stop fuel start = .ok (start + g (slice text start stop)) := by
  induction fuel generalizing start with
  | zero =>
    rw [literalEnd, slice_eq_nil (by omega), h.nil]
    rfl
  | succ fuel ih =>
    rw [literalEnd]
    rcases Nat.eq_or_lt_of_le hstart with rfl | hlt
    · rw [if_pos (Int.le_refl _), slice_eq_nil (Nat.le_refl _), h.nil]
      rfl
    obtain ⟨c, s, hslice⟩ := exists_slice_eq_cons hlt hstop
    have hlength : (slice text start stop).length = stop - start := length_slice hstop
    rw [hslice, length_cons] at hlength
    rw [if_neg (by omega), charAt_natCast hstop, hslice, placeOf_natCast (hlt.le.trans hstop),
      drop_eq_slice_append hlt.le, hslice]
    have hgo : ∀ n, start + n ≤ stop → 0 < n → literalEnd quote text stop fuel
        (min ((start : Int) + n) stop) = .ok (start + (g ((c :: s).drop n) + n : Nat)) := by
      intro n hn hpos
      have hrest := ih hn (by omega)
      rw [← drop_slice, hslice] at hrest
      rw [min_eq_left (by omega), ← Nat.cast_add, hrest]
      congr 1
      omega
    simp only [Except.bind, head?_cons, Option.some.injEq]
    by_cases hc : c = '\\'
    · subst hc
      rw [if_pos rfl]
      cases s with
      | nil =>
        have hone := hgo 1 (by omega) Nat.one_pos
        rw [length_nil] at hlength
        rw [min_eq_right (by omega)] at hone ⊢
        rw [hone, h.lone, drop_one, tail_cons, h.nil]
      | cons d s =>
        rw [length_cons] at hlength
        rw [h.escape]
        exact hgo 2 (by omega) Nat.two_pos
    · rw [if_neg hc, h.cons c s (text.drop stop) hc]
      split_ifs
      · congr 1
        omega
      · rfl
      · exact hgo 1 (by omega) Nat.one_pos

theorem quoted_quotedLength (quote : Char) : Quoted (quotedLength quote) [quote] where
  nil := rfl
  lone := rfl
  escape := quotedLength_escape quote
  cons c s beyond hc := by
    rw [quotedLength_cons quote hc]
    simp [startsWith_iff, eq_comm (a := quote)]

theorem quoted_blockLiteralLength : Quoted blockLiteralLength ['"', '"', '"'] where
  nil := rfl
  lone := rfl
  escape := blockLiteralLength_escape
  cons c s beyond hc := by
    rw [blockLiteralLength_cons hc]
    -- Quotes that close behind the window make the literal go on to its end.
    rcases s with _ | ⟨d, _ | ⟨e, s⟩⟩
    · simp [blockLiteralLength]
    · by_cases hd : d = '\\'
      · simp [hd, blockLiteralLength, startsWith, after?]
      · simp [blockLiteralLength_cons hd, blockLiteralLength, startsWith, after?]
    · simp [startsWith_iff, cons_prefix_cons, eq_comm (a := '"')]

/-- The cursor comes to the end of a literal that begins at `start`. -/
theorem literalEnd_opening (h : Quoted g quote) (hstart : start ≤ stop)
    (hstop : stop ≤ text.length) :
    literalEnd quote text stop ((stop : Int) - start).toNat
      (min ((start : Int) + quote.length) stop) =
      .ok ((start + (((slice text start stop).take quote.length).length +
        g ((slice text start stop).drop quote.length)) : Nat) : Int) := by
  have hmin : min ((start : Int) + quote.length) stop =
      (min (start + quote.length) stop : Nat) := by
    omega
  have hdrop : slice text (min (start + quote.length) stop) stop =
      (slice text start stop).drop quote.length := by
    rw [drop_slice]
    rcases Nat.le_total (start + quote.length) stop with hle | hle
    · rw [Nat.min_eq_left hle]
    · rw [Nat.min_eq_right hle, slice_eq_nil (Nat.le_refl stop), slice_eq_nil hle]
  rw [hmin, literalEnd_eq h hstop _ (by omega) (by omega), hdrop,
    length_take, length_slice hstop]
  congr 1
  omega

theorem exists_of_regionAt_blockComment (h : regionAt beyond s = .blockComment) :
    ∃ u, s = '/' :: '*' :: u := by
  rw [regionAt.eq_def] at h
  split at h
  · exact ⟨_, rfl⟩
  · cases h
  · split_ifs at h
  · cases h
  · cases h

theorem exists_of_regionAt_lineComment (h : regionAt beyond s = .lineComment) :
    ∃ u, s = '/' :: '/' :: u := by
  rw [regionAt.eq_def] at h
  split at h
  · cases h
  · exact ⟨_, rfl⟩
  · split_ifs at h
  · cases h
  · cases h

theorem regionEnd_eq (hlt : start < stop) (hstop : stop ≤ text.length) :
    regionEnd (firstSegment text start stop).region text stop start =
      .ok (firstSegment text start stop).stop := by
  have hend : (firstSegment text start stop).stop = start +
      regionLength (firstSegment text start stop).region (slice text start stop) := by
    rw [Segment.stop, start_firstSegment, length_text_firstSegment]
    rfl
  rw [hend]
  cases hregion : (firstSegment text start stop).region with
  | code =>
    rw [regionEnd, codeEnd_eq hlt.le hstop]
    exact_mod_cast rfl
  | stringLiteral =>
    exact literalEnd_opening (quoted_quotedLength '"') hlt.le hstop
  | charLiteral =>
    exact literalEnd_opening (quoted_quotedLength '\'') hlt.le hstop
  | textBlock =>
    exact literalEnd_opening quoted_blockLiteralLength hlt.le hstop
  | blockComment =>
    obtain ⟨u, hslice⟩ := exists_of_regionAt_blockComment hregion
    have hlength : (slice text start stop).length = stop - start := length_slice hstop
    have hinside : slice text (start + 2) stop = u := by rw [← drop_slice, hslice]; rfl
    rw [hslice, length_cons, length_cons] at hlength
    have hlengths (c : Char) (s : Text) : blockLength (c :: s) =
        if startsWith ['*', '/'] (c :: s) then 2 else blockLength s + 1 := by
      simp [blockLength_cons, startsWith_iff, cons_prefix_cons, singleton_prefix_iff,
        eq_comm (a := '*')]
    rw [regionEnd, commentEnd_eq rfl hlengths (by omega) hstop, hinside, hslice]
    congr 1
    simp only [regionLength, take_succ_cons, take_zero, drop_succ_cons,
      drop_zero, length_cons, length_nil]
    omega
  | lineComment =>
    obtain ⟨u, hslice⟩ := exists_of_regionAt_lineComment hregion
    have hlength : (slice text start stop).length = stop - start := length_slice hstop
    have hinside : slice text (start + 2) stop = u := by rw [← drop_slice, hslice]; rfl
    rw [hslice, length_cons, length_cons] at hlength
    have hlengths (c : Char) (s : Text) : run (· ≠ '\n') (c :: s) =
        if startsWith ['\n'] (c :: s) then 0 else run (· ≠ '\n') s + 1 := by
      by_cases hc : c = '\n' <;>
        simp [run, startsWith_iff, hc, eq_comm (a := '\n')]
    have hopening : run (· ≠ '\n') ('/' :: '/' :: u) = run (· ≠ '\n') u + 2 := by simp [run]
    rw [regionEnd, commentEnd_eq rfl hlengths (by omega) hstop, hinside, hslice, regionLength,
      hopening]
    congr 1
    omega

/-- The cursor finds the segments of a window in at most as many rounds as it has characters. -/
theorem windowFrom_eq (hstart : start ≤ stop) (hstop : stop ≤ text.length) (fuel : Nat)
    (hfuel : stop - start ≤ fuel) :
    windowFrom text stop fuel start = .ok ((tokenize text start stop).map fun segment =>
      ⟨segment.region, segment.start, segment.stop, segment.text⟩) := by
  induction fuel generalizing start with
  | zero =>
    obtain rfl : start = stop := by omega
    rw [windowFrom, tokenize_self]
    rfl
  | succ fuel ih =>
    rw [windowFrom]
    rcases Nat.eq_or_lt_of_le hstart with rfl | hlt
    · rw [if_pos (Int.le_refl _), tokenize_self]
      rfl
    have hmore := lt_stop_firstSegment hlt hstop
    have hend := stop_firstSegment_le hlt hstop
    rw [if_neg (by omega), regionOf_eq hlt hstop, tokenize_of_lt hlt hstop, map_cons]
    simp only [bind, Except.bind]
    rw [regionEnd_eq hlt hstop]
    simp only [ih hend (by omega), pure, Except.pure, sliceAt]
    rw [placeOf_natCast (hlt.le.trans hstop), placeOf_natCast (hend.trans hstop),
      ← text_firstSegment hlt hstop, start_firstSegment]

/-- The segments of a window fill it. Reading comes to an end, however many rounds are allowed
beyond the number of characters; no segment is empty, each begins where the one before it ends, the
first at the beginning of the window and the last one before its end; and reading from a boundary
between segments gives the segments behind it. -/
theorem tokenize_partitions (hstart : start ≤ stop) (hstop : stop ≤ text.length) :
    (∀ fuel, stop - start ≤ fuel → windowFrom text stop fuel start =
      .ok ((tokenize text start stop).map fun segment =>
        ⟨segment.region, segment.start, segment.stop, segment.text⟩)) ∧
    (∀ segment ∈ tokenize text start stop,
      segment.text ≠ [] ∧ segment.text = slice text segment.start segment.stop) ∧
    (tokenize text start stop).IsChain (fun segment next => segment.stop = next.start) ∧
    (∀ first ∈ (tokenize text start stop).head?, first.start = start) ∧
    (∀ last ∈ (tokenize text start stop).getLast?, last.stop = stop) ∧
    (tokenize text start stop = [] ↔ start = stop) ∧
    ∀ before segment after, tokenize text start stop = before ++ segment :: after →
      tokenize text segment.start stop = segment :: after ∧
        tokenize text segment.stop stop = after := by
  have htiles := tiles_tokenize hstart hstop
  refine ⟨windowFrom_eq hstart hstop, fun segment mem => htiles.mem mem, htiles.isChain,
    htiles.head?, htiles.getLast?, tokenize_eq_nil_iff hstart hstop, ?_⟩
  intro before segment after h
  exact tokenize_restart hstart hstop h

/-- A window that ends between three quotes, read again from the place where they begin. -/
theorem tokenize_partitions_cut_quotes :
    let text := "a/*b*/\"\"\"c".toList
    let quotes : Segment := ⟨.textBlock, 6, ['"', '"']⟩
    (0 ≤ 8 ∧ 8 ≤ text.length) ∧
      tokenize text 0 8 = [⟨.code, 0, ['a']⟩, ⟨.blockComment, 1, "/*b*/".toList⟩] ++ quotes :: [] ∧
      tokenize text 6 8 = [quotes] ∧ tokenize text 8 8 = [] := by
  intro text quotes
  have hcut : tokenize text 0 8 =
      [⟨.code, 0, ['a']⟩, ⟨.blockComment, 1, "/*b*/".toList⟩] ++ quotes :: [] := by decide
  have hrestart :=
    (tokenize_partitions (by decide : 0 ≤ 8) (by decide : 8 ≤ text.length)).2.2.2.2.2.2
  exact ⟨⟨by decide, by decide⟩, hcut, hrestart _ quotes [] hcut⟩

end DocGraft.Source

/-! ## Windows and the texts in them -/

namespace DocGraft

/-- The segment at a place that lies `n` characters further on. -/
def Segment.shift (n : Nat) (segment : Segment) : Segment :=
  { segment with start := segment.start + n }

namespace Source

open List Text

def WindowSegment.shift (n : Nat) (segment : WindowSegment) : WindowSegment :=
  { segment with start := segment.start + n, stop := segment.stop + n }

/-- The text `w` is made of the first ones of three quotes, and the text `beyond` begins with the
others. -/
def CutQuotes (w beyond : Text) : Prop :=
  w = ['"'] ∧ ['"', '"'] <+: beyond ∨ w = ['"', '"'] ∧ ['"'] <+: beyond

instance (w beyond : Text) : Decidable (CutQuotes w beyond) :=
  inferInstanceAs (Decidable (_ ∨ _))

/-- The window ends between three quotes: the last segment of the text in it is made of the first
ones of them. -/
def CutsQuotes (text : Text) (start stop : Nat) : Prop :=
  ∃ last ∈ (segments (slice text start stop)).getLast?, CutQuotes last.text (text.drop stop)

variable {beyond text w : Text} {start stop : Nat}

/-! ### What lies behind a window -/

/-- A text is read in the same way whatever lies behind it, unless it is the beginning of three
quotes that lie there. -/
theorem regionAt_of_not_cutQuotes {c : Char} {s : Text} (h : ¬ CutQuotes (c :: s) beyond) :
    regionAt beyond (c :: s) = regionAt [] (c :: s) := by
  rw [regionAt_beyond, regionAt_beyond []]
  by_cases hc : c = '"'
  · subst hc
    rcases s with _ | ⟨d, _ | ⟨e, s⟩⟩ <;>
      simp_all [CutQuotes, startsWith_iff, cons_prefix_cons, eq_comm (a := '"')]
  · simp [hc]

/-- The first ones of three quotes are all of a text block, and by themselves all of a string. -/
theorem segmentsFrom_cutQuotes (h : CutQuotes w beyond) (pos : Nat) :
    segmentsFrom beyond pos 0 w = [⟨.textBlock, pos, w⟩] ∧
      segmentsFrom [] pos 0 w = [⟨.stringLiteral, pos, w⟩] := by
  rcases h with ⟨rfl, t, rfl⟩ | ⟨rfl, t, rfl⟩ <;> exact ⟨rfl, rfl⟩

/-- The first segment of a window that does not cut quotes right there. -/
theorem Reads.segmentsFrom_beyond {region : Region} {t : Text} (h : Reads region w t)
    (hcut : ¬ CutQuotes (w ++ t) beyond) (pos : Nat) :
    Source.segmentsFrom beyond pos 0 (w ++ t) =
      ⟨region, pos, w⟩ :: Source.segmentsFrom beyond (pos + w.length) 0 t := by
  obtain ⟨c, v, rfl⟩ := exists_cons_of_ne_nil h.ne_nil
  have hregion := h.region_eq
  have hlength := h.length_eq
  rw [cons_append] at hcut hregion hlength ⊢
  rw [Source.segmentsFrom, regionAt_of_not_cutQuotes hcut, hregion, hlength, segmentsFrom_skip,
    ← cons_append, take_left, length_cons, Nat.add_sub_cancel, drop_left, Nat.add_assoc,
    Nat.add_comm 1]

/-- What lies behind a window shows in its last segment at most, and there only if the window cuts
quotes. -/
theorem segmentsFrom_beyond (beyond w : Text) (pos : Nat) :
    ((¬ ∃ last ∈ (segmentsFrom [] pos 0 w).getLast?, CutQuotes last.text beyond) ∧
        segmentsFrom beyond pos 0 w = segmentsFrom [] pos 0 w) ∨
      ∃ before p v, CutQuotes v beyond ∧
        segmentsFrom [] pos 0 w = before ++ [⟨.stringLiteral, p, v⟩] ∧
        segmentsFrom beyond pos 0 w = before ++ [⟨.textBlock, p, v⟩] := by
  induction w using segment_induction generalizing pos with
  | nil => exact .inl ⟨by simp [segmentsFrom], by simp [segmentsFrom]⟩
  | cons region w t h ih =>
    by_cases hcut : CutQuotes (w ++ t) beyond
    · obtain ⟨hwindow, halone⟩ := segmentsFrom_cutQuotes hcut pos
      exact .inr ⟨[], pos, w ++ t, hcut, halone, hwindow⟩
    rw [h.segmentsFrom, h.segmentsFrom_beyond hcut]
    rcases ih (pos + w.length) with ⟨hlast, heq⟩ | ⟨before, p, v, hv, halone, hwindow⟩
    · refine .inl ⟨?_, by rw [heq]⟩
      cases t with
      | nil => simpa [segmentsFrom] using hcut
      | cons c t =>
        rw [segmentsFrom_cons] at hlast ⊢
        simpa using hlast
    · exact .inr ⟨⟨region, pos, w⟩ :: before, p, v, hv, by rw [halone, cons_append],
        by rw [hwindow, cons_append]⟩

theorem segmentsFrom_shift (beyond : Text) (n pos skip : Nat) (s : Text) :
    segmentsFrom beyond (pos + n) skip s = (segmentsFrom beyond pos skip s).map
      (Segment.shift n) := by
  fun_induction segmentsFrom beyond pos skip s with
  | case1 => rfl
  | case2 pos skip c s ih => rw [segmentsFrom, ← ih, Nat.add_right_comm]
  | case3 pos c s region length ih =>
    rw [segmentsFrom, map_cons, ← ih, Nat.add_right_comm]
    rfl

/-- Either a window is read like the text in it, or it cuts quotes and its last segment is read as a
text block and not as a string. -/
theorem tokenize_cases (text : Text) (start stop : Nat) :
    (¬ CutsQuotes text start stop ∧
        tokenize text start stop = (segments (slice text start stop)).map (Segment.shift start)) ∨
      (CutsQuotes text start stop ∧ ∃ before p v,
        (segments (slice text start stop)).map (Segment.shift start) =
          before ++ [⟨.stringLiteral, p, v⟩] ∧
        tokenize text start stop = before ++ [⟨.textBlock, p, v⟩]) := by
  have halone : (segments (slice text start stop)).map (Segment.shift start) =
      segmentsFrom [] start 0 (slice text start stop) := by
    rw [segments_eq, ← segmentsFrom_shift, Nat.zero_add]
  have hcuts : CutsQuotes text start stop ↔ ∃ last ∈
      ((segments (slice text start stop)).map (Segment.shift start)).getLast?,
        CutQuotes last.text (text.drop stop) := by
    simp [CutsQuotes, getLast?_map, Segment.shift]
  rw [hcuts, halone]
  rcases segmentsFrom_beyond (text.drop stop) (slice text start stop) start with
    h | ⟨before, p, v, hv, hstring, hblock⟩
  · exact .inl h
  · exact .inr ⟨by simpa [hstring] using hv, before, p, v, hstring, hblock⟩

/-! ### Windows and slices -/

/-- A window is read like the text in it, by the recursion and by the cursor, exactly if it does not
cut three quotes. In any case it is cut into segments at the same places, and all of them but the
last one are read in the same ways. -/
theorem tokenize_slice_iff (hstart : start ≤ stop) (hstop : stop ≤ text.length) :
    let alone := (segments (slice text start stop)).map (Segment.shift start)
    (tokenize text start stop = alone ↔ ¬ CutsQuotes text start stop) ∧
      (∀ fuel, stop - start ≤ fuel →
        (windowFrom text stop fuel start =
            (windowFrom (slice text start stop) (stop - start : Nat) fuel 0).map
              (List.map (WindowSegment.shift start)) ↔ ¬ CutsQuotes text start stop)) ∧
      (tokenize text start stop).map (fun segment => (segment.start, segment.stop)) =
        alone.map (fun segment => (segment.start, segment.stop)) ∧
      (tokenize text start stop).dropLast = alone.dropLast := by
  intro alone
  have hiff : tokenize text start stop = alone ↔ ¬ CutsQuotes text start stop := by
    rcases tokenize_cases text start stop with ⟨hcut, heq⟩ | ⟨hcut, before, p, v, hstring, hblock⟩
    · exact iff_of_true heq hcut
    · refine iff_of_false ?_ (not_not.mpr hcut)
      simp [alone, hstring, hblock]
  refine ⟨hiff, fun fuel hfuel => ?_, ?_⟩
  · have hlength : (slice text start stop).length = stop - start := length_slice hstop
    have hslice : windowFrom (slice text start stop) (stop - start : Nat) fuel 0 =
        .ok ((segments (slice text start stop)).map fun segment =>
          ⟨segment.region, segment.start, segment.stop, segment.text⟩) := by
      rw [segments, hlength]
      exact windowFrom_eq (Nat.zero_le _) hlength.ge fuel (by omega)
    have hinjective : Function.Injective fun segment : Segment =>
        (⟨segment.region, segment.start, segment.stop, segment.text⟩ : WindowSegment) := by
      rintro ⟨_, _, _⟩ ⟨_, _, _⟩ h
      simp_all
    rw [windowFrom_eq hstart hstop fuel hfuel, hslice, ← hiff, Except.map, Except.ok.injEq,
      ← (map_injective_iff.mpr hinjective).eq_iff, map_map, map_map]
    simp [Function.comp_def, Segment.shift, WindowSegment.shift, Segment.stop, Int.add_right_comm]
  · rcases tokenize_cases text start stop with ⟨-, heq⟩ | ⟨-, before, p, v, hstring, hblock⟩
    · rw [heq]
      exact ⟨rfl, rfl⟩
    · simp [alone, hstring, hblock, Segment.stop]

/-- A window behind a comment that ends with a whole string. -/
theorem tokenize_slice_whole_string :
    let text := "a/*b*/\"\"c\"".toList
    (1 ≤ 8 ∧ 8 ≤ text.length) ∧ ¬ CutsQuotes text 1 8 ∧
      tokenize text 1 8 = [⟨.blockComment, 1, "/*b*/".toList⟩, ⟨.stringLiteral, 6, ['"', '"']⟩] ∧
      tokenize text 1 8 = (segments (slice text 1 8)).map (Segment.shift 1) := by
  intro text
  have hcuts : ¬ CutsQuotes text 1 8 := by
    rw [CutsQuotes]
    decide
  exact ⟨⟨by decide, by decide⟩, hcuts, by decide,
    (tokenize_slice_iff (by decide) (by decide)).1.mpr hcuts⟩

/-- The text behind the window decides how a string of two quotes is read. -/
theorem tokenize_slice_cut_quotes :
    let text := "\"\"\"".toList
    (0 ≤ 2 ∧ 2 ≤ text.length) ∧ tokenize text 0 2 = [⟨.textBlock, 0, ['"', '"']⟩] ∧
      (segments (slice text 0 2)).map (Segment.shift 0) = [⟨.stringLiteral, 0, ['"', '"']⟩] := by
  decide

end Source

end DocGraft
