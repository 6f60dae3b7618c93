import DocGraft.Proofs.Masking
import DocGraft.Proofs.WindowPartition

/-!
# What masking shows and what it hides

A comment or a literal begins with the delimiter that opens it, and ends with the one that closes it
unless it is cut short by the end of its line or of the text. Masking keeps these delimiters and
makes everything between them blank, so that no character moves and no line end is lost or made.
What the masked text shows beyond delimiters and white space is code. Reading the masked text finds
the same segments again: a delimiter at the end of a blank inside closes it, and where there is none
the reading stops for the reason for which it stopped before.

The main results are `Source.blankBetween_cases`, `Source.mask_keeps_shape`, `Source.segments_mask`
and `Source.mask_lexes_alike`.
-/

namespace DocGraft

open List

/-- The segment as it is in the masked text. -/
def Segment.blanked (segment : Segment) : Segment :=
  { segment with text := segment.masked }

/-- How a segment is read, with its two ends. -/
def Segment.span (segment : Segment) : Region × Nat × Nat :=
  (segment.region, segment.start, segment.stop)

namespace Source

open Text

variable {g : Grain} {head s t tail text w : Text} {i : Nat} {region : Region} {segment : Segment}

/-! ### Delimiters -/

/-- A text that begins with its opening is masked up to its closing, or to its end if it has none
behind the opening. -/
theorem blankBetween_cases (tail : Text) (h : head <+: s) :
    (∃ inner, s = head ++ (inner ++ tail) ∧
      blankBetween head tail s = head ++ (blankOut inner ++ tail)) ∨
    ∃ inner, s = head ++ inner ∧ ¬ tail <:+ inner ∧
      blankBetween head tail s = head ++ blankOut inner := by
  obtain ⟨inner, rfl⟩ := h
  have hslice : ∀ u v : Text,
      slice (head ++ (u ++ v)) head.length (head.length + u.length) = u := by
    intro u v
    simp [slice]
  by_cases htail : tail <:+ inner
  · obtain ⟨inner, rfl⟩ := htail
    have hkept : (endsWith tail (head ++ (inner ++ tail)) &&
        decide (head.length + tail.length ≤ (head ++ (inner ++ tail)).length)) = true := by
      rw [Bool.and_eq_true, endsWith_iff, decide_eq_true_eq, length_append, length_append]
      grind
    have hstop : (head ++ (inner ++ tail)).length - tail.length = head.length + inner.length := by
      grind
    exact .inl ⟨inner, rfl, by simp only [blankBetween, hkept, if_true, hstop, hslice]⟩
  · have hkept : (endsWith tail (head ++ inner) &&
        decide (head.length + tail.length ≤ (head ++ inner).length)) = false := by
      by_contra hkept
      rw [Bool.not_eq_false, Bool.and_eq_true, endsWith_iff, decide_eq_true_eq,
        length_append] at hkept
      exact htail (suffix_of_suffix_length_le hkept.1 (suffix_append head inner)
        (by omega))
    have hinner := hslice inner []
    rw [append_nil, ← length_append] at hinner
    refine .inr ⟨inner, rfl, htail, ?_⟩
    simp only [blankBetween, hkept, Bool.false_eq_true, if_false, length_nil, Nat.sub_zero,
      hinner, append_nil]

/-- The masked text of a comment or a literal, closed or cut short. -/
theorem Stands.maskGrain_cases (h : Stands (region, w) t) (hr : region ≠ .code) :
    (∃ inner, w = region.opening ++ (inner ++ region.closing) ∧
      maskGrain (region, w) = region.opening ++ (blankOut inner ++ region.closing)) ∨
    ∃ inner, w = region.opening ++ inner ∧ ¬ region.closing <:+ inner ∧
      maskGrain (region, w) = region.opening ++ blankOut inner := by
  rw [maskGrain_eq (g := (region, w)) hr]
  exact blankBetween_cases _ h.opening_isPrefix

/-! ### Line ends -/

theorem map_newline_blankOut (s : Text) :
    (blankOut s).map (fun c => decide (c = '\n')) = s.map fun c => decide (c = '\n') := by
  rw [blankOut, map_map]
  refine map_congr_left fun c _ => ?_
  by_cases hc : c = '\n' <;> simp [hc]

/-- Masking keeps the line ends of a grain in their places, and makes no others. -/
theorem Stands.map_newline_maskGrain (h : Stands g t) :
    (maskGrain g).map (fun c => decide (c = '\n')) = g.2.map fun c => decide (c = '\n') := by
  obtain ⟨region, w⟩ := g
  by_cases hr : region = .code
  · rw [hr]
    rfl
  · rcases h.maskGrain_cases hr with ⟨inner, htext, hmasked⟩ | ⟨inner, htext, -, hmasked⟩
    · rw [hmasked, htext]
      simp only [map_append, map_newline_blankOut]
    · rw [hmasked, htext]
      simp only [map_append, map_newline_blankOut]

/-- Masking keeps the line ends of a text in their places, and makes no others. -/
theorem map_newline_mask (text : Text) :
    (mask text).map (fun c => decide (c = '\n')) = text.map fun c => decide (c = '\n') := by
  rw [mask_eq]
  induction text using grain_induction with
  | nil => rfl
  | cons g t h ih =>
    simp [h.grains, ih, h.map_newline_maskGrain]

theorem length_mask (text : Text) : (mask text).length = text.length := by
  simpa using congrArg List.length (map_newline_mask text)

/-! ### Places -/

/-- A comment or literal among the segments stands where it is. -/
theorem exists_stands_of_mem_segments (h : segment ∈ segments text) (hr : segment.region ≠ .code) :
    ∃ t, Stands (segment.region, segment.text) t := by
  obtain ⟨as, bs, hgrains, -⟩ := exists_grains_of_mem_segments h hr
  obtain ⟨-, hstands, -⟩ := standing_append.mp (hgrains ▸ standing_grains text)
  exact ⟨_, hstands⟩

theorem length_masked_of_mem_segments (h : segment ∈ segments text) :
    segment.masked.length = segment.text.length := by
  by_cases hr : segment.region = .code
  · rw [Segment.masked, hr]
  · obtain ⟨t, hstands⟩ := exists_stands_of_mem_segments h hr
    exact length_maskGrain hstands

/-- What is put together from pieces of the lengths of segments side by side has each piece at the
place of its segment. -/
theorem Tiles.getElem?_flatMap {start stop : Nat} {segments : List Segment}
    (h : Tiles text start segments stop) {f : Segment → Text}
    (hf : ∀ segment ∈ segments, (f segment).length = segment.text.length)
    (hmem : segment ∈ segments) (hstart : segment.start ≤ i) (hstop : i < segment.stop) :
    (segments.flatMap f)[i - start]? = (f segment)[i - segment.start]? ∧ start ≤ segment.start := by
  induction segments generalizing start with
  | nil => cases hmem
  | cons first rest ih =>
    obtain ⟨rfl, -, -, hrest⟩ := h
    rw [flatMap_cons]
    rcases mem_cons.mp hmem with rfl | hmem
    · grind [Segment.stop]
    · obtain ⟨htail, hle⟩ := ih hrest (fun s hs => hf s (mem_cons_of_mem first hs)) hmem
      rw [Segment.stop] at htail hle
      refine ⟨?_, by omega⟩
      grind

theorem Tiles.exists_mem {start stop : Nat} {segments : List Segment}
    (h : Tiles text start segments stop) (hstart : start ≤ i) (hstop : i < stop) :
    ∃ segment ∈ segments, segment.start ≤ i ∧ i < segment.stop := by
  induction segments generalizing start with
  | nil =>
    obtain rfl : start = stop := h
    omega
  | cons first rest ih =>
    obtain ⟨rfl, -, -, hrest⟩ := h
    by_cases hi : i < first.stop
    · exact ⟨first, mem_cons_self, hstart, hi⟩
    · grind

theorem tiles_segments (text : Text) : Tiles text 0 (segments text) text.length :=
  tiles_tokenize (Nat.zero_le _) le_rfl

theorem getElem?_mask (h : segment ∈ segments text) (hstart : segment.start ≤ i)
    (hstop : i < segment.stop) : (mask text)[i]? = segment.masked[i - segment.start]? :=
  ((tiles_segments text).getElem?_flatMap (fun _ => length_masked_of_mem_segments) h hstart
    hstop).1

theorem getElem?_of_mem_segments (h : segment ∈ segments text) (hstart : segment.start ≤ i)
    (hstop : i < segment.stop) : text[i]? = segment.text[i - segment.start]? := by
  grind [((tiles_segments text).mem h).2, slice]

/-- At each place between the delimiters stands a blank, and at all other places what stood there:
a character of the opening, or of the closing counted from the end. -/
theorem getElem?_blankBetween (tail : Text) (h : head <+: s) (hi : i < s.length) :
    ((blankBetween head tail s)[i]? = some ' ' ∨ (blankBetween head tail s)[i]? = some '\n') ∨
    ∃ c, s[i]? = some c ∧ (blankBetween head tail s)[i]? = some c ∧
      (head[i]? = some c ∨
        s.length ≤ i + tail.length ∧ tail[i + tail.length - s.length]? = some c) := by
  have hblank : ∀ inner : Text, ∀ n < inner.length,
      (blankOut inner)[n]? = some ' ' ∨ (blankOut inner)[n]? = some '\n' := by
    intro inner n hn
    have hsome := getElem?_eq_getElem (l := blankOut inner) (by simpa [blankOut] using hn)
    rcases mem_blankOut (mem_of_getElem? hsome) with hc | hc
    · exact .inl (hc ▸ hsome)
    · exact .inr (hc ▸ hsome)
  have hlength : ∀ inner : Text, (blankOut inner).length = inner.length := fun inner =>
    length_map _
  by_cases hhead : i < head.length
  · have hsome := getElem?_eq_getElem hhead
    refine .inr ⟨_, ?_, ?_, .inl hsome⟩
    · obtain ⟨rest, rfl⟩ := h
      rw [getElem?_append_left hhead, hsome]
    · rw [blankBetween, getElem?_append_left hhead, hsome]
  have hbehind : ∀ u : Text, (head ++ u)[i]? = u[i - head.length]? := fun u =>
    getElem?_append_right (by omega)
  rcases blankBetween_cases tail h with ⟨inner, rfl, hmasked⟩ | ⟨inner, rfl, -, hmasked⟩
  · rw [length_append, length_append] at hi ⊢
    rw [hmasked, hbehind, hbehind]
    by_cases hinner : i - head.length < inner.length
    · grind
    · grind
  · grind

theorem slice_mask_of_code (h : segment ∈ segments text) (hr : segment.region = .code) :
    slice (mask text) segment.start segment.stop = slice text segment.start segment.stop := by
  have hmasked : segment.masked = segment.text := by rw [Segment.masked, hr]
  refine ext_getElem? fun n => ?_
  rw [slice, slice, getElem?_take, getElem?_take, getElem?_drop, getElem?_drop]
  split_ifs with hn
  · rw [getElem?_mask h (by omega) (by omega), getElem?_of_mem_segments h (by omega) (by omega),
      hmasked]
  · rfl

/-- Masking shows blanks in a comment or literal, and its delimiters. -/
theorem getElem?_mask_of_ne_code (h : segment ∈ segments text) (hr : segment.region ≠ .code)
    (hstart : segment.start ≤ i) (hstop : i < segment.stop) :
    ((mask text)[i]? = some ' ' ∨ (mask text)[i]? = some '\n') ∨
    ∃ c, text[i]? = some c ∧ (mask text)[i]? = some c ∧
      (segment.region.opening[i - segment.start]? = some c ∨
        segment.stop ≤ i + segment.region.closing.length ∧
          segment.region.closing[i + segment.region.closing.length - segment.stop]? = some c) := by
  obtain ⟨t, hstands⟩ := exists_stands_of_mem_segments h hr
  have hmasked : segment.masked =
      blankBetween segment.region.opening segment.region.closing segment.text :=
    maskGrain_eq (g := (segment.region, segment.text)) hr
  have hopening : segment.region.opening <+: segment.text := hstands.opening_isPrefix
  have hplace := getElem?_blankBetween segment.region.closing hopening
    (i := i - segment.start) (by rw [Segment.stop] at hstop; omega)
  have hclosing : i + segment.region.closing.length - segment.stop =
      i - segment.start + segment.region.closing.length - segment.text.length := by
    rw [Segment.stop]
    omega
  have hlast : segment.stop ≤ i + segment.region.closing.length ↔
      segment.text.length ≤ i - segment.start + segment.region.closing.length := by
    rw [Segment.stop]
    omega
  rwa [getElem?_mask h hstart hstop, getElem?_of_mem_segments h hstart hstop, hmasked, hclosing,
    hlast]

/-- What masking shows beyond delimiters and blanks is code. -/
theorem exists_code_of_getElem?_mask {c : Char} (hc : (mask text)[i]? = some c)
    (hshown : c ∉ ['/', '*', '"', '\'', ' ', '\n']) :
    text[i]? = some c ∧
      ∃ segment ∈ segments text, segment.region = .code ∧ segment.start ≤ i ∧ i < segment.stop := by
  have hi : i < text.length := length_mask text ▸ (List.getElem?_eq_some_iff.mp hc).1
  obtain ⟨segment, hmem, hstart, hstop⟩ := (tiles_segments text).exists_mem (Nat.zero_le i) hi
  rw [getElem?_mask hmem hstart hstop] at hc
  have hr : segment.region = .code := by
    by_contra hr
    have hdelimiter := mem_maskGrain (g := (segment.region, segment.text)) hr
      (mem_of_getElem? hc)
    exact hshown (by simpa using hdelimiter)
  refine ⟨?_, segment, hmem, hr, hstart, hstop⟩
  rw [getElem?_of_mem_segments hmem hstart hstop, ← hc, Segment.masked, hr]

/-- Masking moves nothing. The masked text has the length of the text and the same line ends, and it
equals the text on code. In a comment or literal it shows blanks, and of the text nothing but
characters of the delimiters in their places. So everything else that it shows, such as braces,
parentheses, semicolons, letters and digits, is code and stands where it stood. -/
theorem mask_keeps_shape (text : Text) :
    (mask text).length = text.length ∧
    (∀ i : Nat, (mask text)[i]? = some '\n' ↔ text[i]? = some '\n') ∧
    (∀ segment ∈ segments text, segment.region = .code →
      slice (mask text) segment.start segment.stop = slice text segment.start segment.stop) ∧
    (∀ segment ∈ segments text, segment.region ≠ .code →
      ∀ i : Nat, segment.start ≤ i → i < segment.stop →
        ((mask text)[i]? = some ' ' ∨ (mask text)[i]? = some '\n') ∨
        ∃ c, text[i]? = some c ∧ (mask text)[i]? = some c ∧
          (segment.region.opening[i - segment.start]? = some c ∨
            segment.stop ≤ i + segment.region.closing.length ∧
              segment.region.closing[i + segment.region.closing.length - segment.stop]? = some c)) ∧
    ∀ (i : Nat) (c : Char), (mask text)[i]? = some c → c ∉ ['/', '*', '"', '\'', ' ', '\n'] →
      text[i]? = some c ∧
        ∃ segment ∈ segments text, segment.region = .code ∧ segment.start ≤ i ∧
          i < segment.stop := by
  refine ⟨length_mask text, fun i => ?_, fun segment => slice_mask_of_code,
    fun segment hmem hr i => getElem?_mask_of_ne_code hmem hr,
    fun i c => exists_code_of_getElem?_mask⟩
  have hnewline : ∀ s : Text,
      s[i]? = some '\n' ↔ (s.map fun c => decide (c = '\n'))[i]? = some true := by simp
  rw [hnewline, hnewline, map_newline_mask]

/-! ### Reading over blanks -/

theorem blankOut_eq_self (h : ∀ c ∈ s, c = ' ' ∨ c = '\n') : blankOut s = s := by
  refine (map_congr_left fun c hc => ?_).trans (map_id s)
  rcases h c hc with rfl | rfl <;> rfl

theorem eq_space_of_mem_blankOut (h : '\n' ∉ s) {c : Char} (hc : c ∈ blankOut s) : c = ' ' := by
  obtain ⟨d, hd, rfl⟩ := mem_map.mp hc
  rw [if_neg]
  rintro rfl
  exact h hd

/-! ### Reading the masked text -/

/-- A grain as it is in the masked text. -/
def blankGrain (g : Grain) : Grain :=
  (g.1, maskGrain g)

theorem stands_blank_line (h : Stands (.lineComment, w) t) :
    Stands (blankGrain (.lineComment, w)) t := by
  obtain ⟨u, hu, hline, hend⟩ := stands_line_iff.mp h
  rcases h.maskGrain_cases (by decide) with ⟨inner, hw, hmasked⟩ | ⟨inner, -, hopen, -⟩
  · obtain rfl : inner = u := by simpa [Region.opening, Region.closing, hu] using hw.symm
    rw [Region.closing, append_nil] at hmasked
    refine stands_line_iff.mpr ⟨blankOut inner, hmasked, ?_, hend⟩
    exact fun hmem => absurd (eq_space_of_mem_blankOut hline hmem) (by decide)
  · exact absurd nil_suffix hopen

/-- Blanks are passed, if they have no line end where it would be the end. -/
theorem bodyLength_blankOut (hr : region.closing ≠ []) {inner : Text}
    (hline : region = .stringLiteral ∨ region = .charLiteral → '\n' ∉ inner) (t : Text) :
    bodyLength region (blankOut inner ++ t) = (blankOut inner).length + bodyLength region t := by
  refine (measures_bodyLength hr).append (fun c hc => ⟨fun _ => ?_, fun hhead => ?_,
    fun hliteral => ?_⟩) t
  · rcases mem_blankOut hc with rfl | rfl <;> decide
  · have hblank := Region.isBlank_of_mem
      (mem_append_right region.opening (mem_of_mem_head? hhead))
    rcases mem_blankOut hc with rfl | rfl <;> exact absurd hblank (by decide)
  · rw [eq_space_of_mem_blankOut (hline hliteral) hc]
    decide

/-- Blanks before a text do not begin with a quote. -/
theorem head?_blankOut_append_ne {inner : Text} (h : inner = [] → t.head? ≠ some '"') :
    (blankOut inner ++ t).head? ≠ some '"' := by
  cases inner with
  | nil => exact h rfl
  | cons c inner =>
    rw [blankOut, map_cons, cons_append, head?_cons]
    split_ifs <;> decide

theorem stands_blank (hr : region.closing ≠ []) (h : Stands (region, w) t)
    (hline : region = .stringLiteral ∨ region = .charLiteral → '\n' ∉ w) :
    Stands (blankGrain (region, w)) t := by
  have hmeasures := measures_bodyLength hr
  have hcode : region ≠ .code := by
    rintro rfl
    exact hr rfl
  obtain ⟨u, hu, hquotes, hlen⟩ := (stands_iff hr).mp h
  rcases h.maskGrain_cases hcode with ⟨inner, rfl, hmasked⟩ | ⟨inner, rfl, hopen, hmasked⟩
  · obtain rfl : inner ++ region.closing = u := append_cancel_left hu
    refine (stands_iff hr).mpr ⟨blankOut inner ++ region.closing, hmasked, fun hstring => ?_, ?_⟩
    · -- Only an empty literal has a quote right behind its opening, and then no third one follows.
      cases inner with
      | nil => exact hquotes hstring
      | cons c inner =>
        rw [append_assoc]
        exact fun hopens => head?_blankOut_append_ne (by simp) hopens.1
    · rw [append_assoc, bodyLength_blankOut hr fun hliteral hmem => hline hliteral
        (by simp [hmem]), hmeasures.close, length_append]
  · obtain rfl : inner = u := append_cancel_left hu
    -- What is not closed goes to the end of the text or of its line.
    have hend : t = [] ∨
        (region = .stringLiteral ∨ region = .charLiteral) ∧ t.head? = some '\n' := by
      rcases hmeasures.ends hlen with ⟨hclosed, -⟩ | hnil | ⟨hliteral, hhead, -⟩
      · exact absurd hclosed hopen
      · exact .inl hnil
      · exact .inr ⟨hliteral, hhead⟩
    have hzero : bodyLength region t = 0 := by
      rcases hend with rfl | ⟨hliteral, hhead⟩
      · exact hmeasures.nil
      · obtain ⟨t, rfl⟩ := head?_eq_some_iff.mp hhead
        exact hmeasures.line hliteral t
    refine (stands_iff hr).mpr ⟨blankOut inner, hmasked, fun _ hopens => ?_, ?_⟩
    · refine head?_blankOut_append_ne (fun _ => ?_) hopens.1
      rcases hend with rfl | ⟨-, hhead⟩
      · simp
      · simp [hhead]
    · rw [bodyLength_blankOut hr fun hliteral hmem => hline hliteral (by simp [hmem]), hzero,
        Nat.add_zero]

/-- A grain is read alike when its inside is blank, unless it is a literal with a line end in it. -/
theorem Stands.blankGrain (h : Stands g t)
    (hline : g.1 = .stringLiteral ∨ g.1 = .charLiteral → '\n' ∉ g.2) : Stands (blankGrain g) t := by
  obtain ⟨region, w⟩ := g
  cases region with
  | code => exact h
  | lineComment => exact stands_blank_line h
  | _ => exact stands_blank (by decide) h hline

theorem Stands.head?_maskGrain (h : Stands g t) : (maskGrain g).head? = g.2.head? := by
  obtain ⟨region, w⟩ := g
  by_cases hr : region = .code
  · rw [hr]
    rfl
  · obtain ⟨c, s, hcons⟩ := exists_cons_of_ne_nil (Region.opening_ne_nil hr)
    rcases h.maskGrain_cases hr with ⟨inner, htext, hmasked⟩ | ⟨inner, htext, -, hmasked⟩
    · rw [hmasked, htext, hcons]
      rfl
    · rw [hmasked, htext, hcons]
      rfl

/-- Grains are read alike when their insides are blank. -/
theorem Standing.map_blankGrain {gs : List Grain} (h : Standing gs t)
    (hline : ∀ g ∈ gs, g.1 = .stringLiteral ∨ g.1 = .charLiteral → '\n' ∉ g.2) :
    Standing (gs.map Source.blankGrain) t := by
  induction gs with
  | nil => trivial
  | cons g gs ih =>
    obtain ⟨hfirst, hrest⟩ := forall_mem_cons.mp hline
    refine ⟨(h.1.blankGrain hfirst).congr ?_, ih h.2 hrest⟩
    cases gs with
    | nil => rfl
    | cons g' gs =>
      have hhead : (Source.blankGrain g').2.head? = g'.2.head? := h.2.1.head?_maskGrain
      simp only [map_cons, grainText_cons, append_assoc, List.head?_append, hhead]
      obtain ⟨c, s, hcons⟩ := exists_cons_of_ne_nil h.2.1.ne_nil
      simp [hcons]

theorem grainText_map_blankGrain (gs : List Grain) :
    grainText (gs.map blankGrain) = gs.flatMap maskGrain := by
  rw [grainText, flatMap_map]
  rfl

/-- The grains of the masked text. -/
theorem grains_mask
    (h : ∀ g ∈ grains text, g.1 = .stringLiteral ∨ g.1 = .charLiteral → '\n' ∉ g.2) :
    grains (mask text) = (grains text).map blankGrain := by
  rw [mask_eq, ← grainText_map_blankGrain,
    grains_grainText ((standing_grains text).map_blankGrain h)]

theorem gather_map_blankGrain (gs : List Grain) :
    gather (gs.map blankGrain) = (gather gs).map blankGrain := by
  have hcons : ∀ w (rs : List Grain), consCode w (rs.map blankGrain) =
      (consCode w rs).map blankGrain := by
    intro w rs
    rcases exists_code_or_head rs with ⟨v, rest, rfl⟩ | hhead
    · rfl
    · rw [consCode_of_head hhead, consCode_of_head]
      · rfl
      · cases rs with
        | nil => simp
        | cons r rs => simpa [blankGrain] using hhead
  induction gs with
  | nil => rfl
  | cons g gs ih =>
    obtain ⟨region, w⟩ := g
    by_cases hg : region = .code
    · subst hg
      rw [map_cons, blankGrain, gather, ih, gather, ← hcons]
      rfl
    · simp [gather_cons (g := blankGrain (region, w)) hg, gather_cons (g := (region, w)) hg, ih]

theorem placed_map_blankGrain {pos : Nat} {rs : List Grain}
    (h : ∀ segment ∈ placed pos rs, segment.masked.length = segment.text.length) :
    placed pos (rs.map blankGrain) = (placed pos rs).map Segment.blanked := by
  induction rs generalizing pos with
  | nil => rfl
  | cons r rs ih =>
    rw [placed] at h
    obtain ⟨hfirst, hrest⟩ := forall_mem_cons.mp h
    have hlength : (blankGrain r).2.length = r.2.length := hfirst
    rw [map_cons, placed, hlength, ih hrest, placed, map_cons]
    rfl

/-- The segments of the masked text are those of the text, with their insides blank. -/
theorem segments_mask
    (h : ∀ segment ∈ segments text, segment.region = .stringLiteral ∨ segment.region =
      .charLiteral → '\n' ∉ segment.text) :
    segments (mask text) = (segments text).map Segment.blanked := by
  have hgrains : ∀ g ∈ grains text, g.1 = .stringLiteral ∨ g.1 = .charLiteral → '\n' ∉ g.2 := by
    intro g hg hliteral
    obtain ⟨segment, hmem, hg⟩ := mem_flatMap.mp hg
    grind [Segment.grains]
  have hlength : ∀ segment ∈ placed 0 (gather (grains text)),
      segment.masked.length = segment.text.length := by
    rw [← segments_eq_placed]
    exact fun segment => length_masked_of_mem_segments
  rw [segments_eq_placed, segments_eq_placed, grains_mask hgrains, gather_map_blankGrain,
    placed_map_blankGrain hlength]

/-- Masking again what is masked changes nothing. -/
theorem blankBetween_blankBetween (h : head <+: s) :
    blankBetween head tail (blankBetween head tail s) = blankBetween head tail s := by
  have hagain : ∀ inner, (∀ c ∈ inner, c = ' ' ∨ c = '\n') →
      blankBetween head tail (head ++ (inner ++ tail)) = head ++ (inner ++ tail) := by
    intro inner hinner
    rcases blankBetween_cases tail (prefix_append head (inner ++ tail)) with
      ⟨inner', heq, hmasked⟩ | ⟨inner', heq, hopen, -⟩
    · obtain rfl := append_cancel_right (append_cancel_left heq)
      rw [hmasked, blankOut_eq_self hinner]
    · grind [append_cancel_left heq]
  rcases blankBetween_cases tail h with ⟨inner, -, hmasked⟩ | ⟨inner, -, -, hmasked⟩
  · rw [hmasked, hagain _ fun _ => mem_blankOut]
  · rw [hmasked]
    rcases blankBetween_cases tail (prefix_append head (blankOut inner)) with
      ⟨inner', heq, -⟩ | ⟨inner', heq, -, hmasked⟩
    · rw [heq, hagain inner' fun c hc => mem_blankOut (s := inner) ?_]
      grind [append_cancel_left heq]
    · rw [hmasked, ← append_cancel_left heq, blankOut_eq_self fun _ => mem_blankOut]

theorem masked_blanked (h : segment ∈ segments text) : segment.blanked.masked = segment.masked := by
  by_cases hr : segment.region = .code
  · simp [Segment.blanked, Segment.masked, hr]
  · obtain ⟨t, hstands⟩ := exists_stands_of_mem_segments h hr
    have hmasked : ∀ pos w, (⟨segment.region, pos, w⟩ : Segment).masked =
        blankBetween segment.region.opening segment.region.closing w := fun _ w =>
      maskGrain_eq (g := (segment.region, w)) hr
    rw [Segment.blanked, hmasked, hmasked segment.start segment.text]
    exact blankBetween_blankBetween hstands.opening_isPrefix

/-- Masked text is read like the text. If no string or character literal goes over a line end, the
masked text has segments read in the same ways at the same places, and masking it again changes
nothing. -/
theorem mask_lexes_alike {text : Text}
    (h : ∀ segment ∈ segments text,
      segment.region = .stringLiteral ∨ segment.region = .charLiteral → '\n' ∉ segment.text) :
    mask (mask text) = mask text ∧
      (segments (mask text)).map Segment.span = (segments text).map Segment.span := by
  have hsegments := segments_mask h
  constructor
  · rw [mask, hsegments, List.flatMap_map, mask]
    exact List.flatMap_congr fun segment hmem => masked_blanked hmem
  · rw [hsegments, List.map_map]
    refine List.map_congr_left fun segment hmem => ?_
    simp [Segment.span, Segment.stop, Segment.blanked, length_masked_of_mem_segments hmem]

/-- Literals with an escaped quote and with none at their ends, a text block with one quote too many
and a comment that is cut short by the end of the text. -/
theorem mask_lexes_alike_cut_short :
    let text := "s = \"x\\\"y\"; c = 'b\n\"\"\"c\"\"\"\"\n/*/ d".toList
    let masked := "s = \"    \"; c = ' \n\"\"\" \"\"\"\"\n/*   ".toList
    (∀ segment ∈ segments text,
      segment.region = .stringLiteral ∨ segment.region = .charLiteral → '\n' ∉ segment.text) ∧
    mask text = masked ∧ mask masked = masked ∧
      (segments masked).map Segment.span = (segments text).map Segment.span := by
  intro text masked
  have hline : ∀ segment ∈ segments text,
      segment.region = .stringLiteral ∨ segment.region = .charLiteral → '\n' ∉ segment.text := by
    decide +kernel
  have hmask : mask text = masked := by decide +kernel
  have halike := mask_lexes_alike hline
  grind

end Source

end DocGraft
