import DocGraft.Proofs.Lexing

/-!
# Grains in their places

The segments of a text are its grains in their places, except that neighbouring characters of code
make up one segment. So whatever is collected from segments, and does not see where code is cut, can
be collected from grains. The masked text is collected in this way, grain by grain, and each grain
keeps its length.

The main results are `Source.flatMap_segments`, `Source.mask_eq` and `Source.stands_block_closed`.
-/

namespace DocGraft.Source

open List Text

variable {c : Char} {g : Grain} {gs : List Grain} {s t : Text} {head tail v : Text}

/-! ### Places -/

/-- Grains as segments, the first of them at the offset `pos`. -/
def placed : (pos : Nat) → List Grain → List Segment
  | _, [] => []
  | pos, g :: gs => ⟨g.1, pos, g.2⟩ :: placed (pos + g.2.length) gs

theorem placed_append (pos : Nat) (gs hs : List Grain) :
    placed pos (gs ++ hs) = placed pos gs ++ placed (pos + (grainText gs).length) hs := by
  induction gs generalizing pos with
  | nil => rfl
  | cons g gs ih => simp [placed, ih, Nat.add_assoc]

/-- The segments of a part of a text that begins where a grain does. -/
theorem mem_placed {pos : Nat} {segment : Segment} :
    segment ∈ placed pos gs ↔
      ∃ as bs, gs = as ++ (segment.region, segment.text) :: bs ∧
        segment.start = pos + (grainText as).length := by
  induction gs generalizing pos with
  | nil => simp [placed]
  | cons g gs ih =>
    rw [placed, mem_cons, ih]
    constructor
    · rintro (rfl | ⟨as, bs, rfl, h⟩)
      · exact ⟨[], gs, rfl, rfl⟩
      · exact ⟨g :: as, bs, rfl, by rw [h, grainText_cons, length_append]; omega⟩
    · rintro ⟨_ | ⟨a, as⟩, bs, hgs, h⟩
      · obtain ⟨rfl, rfl⟩ := List.cons.inj hgs
        obtain ⟨region, start, text⟩ := segment
        simp only [grainText_nil, length_nil, Nat.add_zero] at h
        exact .inl (by rw [h])
      · obtain ⟨rfl, rfl⟩ := List.cons.inj hgs
        refine .inr ⟨as, bs, rfl, ?_⟩
        rw [h, grainText_cons, length_append]
        omega

/-- What is collected from segments, in a way that does not see where code is cut, is collected
from grains. -/
theorem flatMap_segments {β : Type} (f : Segment → List β) (hnil : ∀ pos, f ⟨.code, pos, []⟩ = [])
    (hcode : ∀ pos c s, f ⟨.code, pos, c :: s⟩ = f ⟨.code, pos, [c]⟩ ++ f ⟨.code, pos + 1, s⟩)
    (text : Text) : (segments text).flatMap f = (placed 0 (grains text)).flatMap f := by
  have hsplit : ∀ region pos w, (placed pos (Segment.grains ⟨region, 0, w⟩)).flatMap f =
      f ⟨region, pos, w⟩ := by
    intro region pos w
    by_cases hr : region = .code
    · subst hr
      simp only [Segment.grains]
      induction w generalizing pos with
      | nil => exact (hnil pos).symm
      | cons c w ih =>
        simp [placed, hcode pos c w, ← ih (pos + 1)]
    · simp only [Segment.grains]
      exact append_nil _
  have hlength : ∀ region (w : Text), (grainText (Segment.grains ⟨region, 0, w⟩)).length =
      w.length := by
    intro region w
    by_cases hr : region = .code
    · subst hr
      simp [Segment.grains, grainText, flatMap_map]
    · simp [Segment.grains, grainText]
  have hmain : ∀ pos, (segmentsFrom [] pos 0 text).flatMap f =
      (placed pos (grains text)).flatMap f := by
    induction text using segment_induction with
    | nil => intro pos; rfl
    | cons region w t h ih =>
      intro pos
      simp [h.segmentsFrom, h.grains, placed_append, hsplit, hlength, ih]
  rw [segments_eq, hmain]

/-! ### Block comments -/

theorem blockLength_append_close (h : ¬ ['*', '/'] <:+: v ++ ['*']) (t : Text) :
    blockLength (v ++ '*' :: '/' :: t) = v.length + 2 := by
  induction v with
  | nil => simp [blockLength]
  | cons c v ih =>
    have htail : ¬ ['*', '/'] <:+: v ++ ['*'] := fun hv => h (infix_cons hv)
    rw [cons_append, blockLength_cons, if_neg, ih htail, length_cons]
    rintro ⟨rfl, hs⟩
    cases v with
    | nil => simp at hs
    | cons d v =>
      obtain rfl : d = '/' := by simpa using hs
      exact h ⟨[], v ++ ['*'], by simp⟩

theorem blockLength_closed {u : Text} (h : blockLength (u ++ t) = u.length) (ht : t ≠ []) :
    ∃ v, u = v ++ ['*', '/'] ∧ ¬ ['*', '/'] <:+: v ++ ['*'] := by
  induction u with
  | nil =>
    obtain ⟨c, t, rfl⟩ := exists_cons_of_ne_nil ht
    grind [blockLength_cons]
  | cons c u ih =>
    rw [cons_append, blockLength_cons] at h
    split_ifs at h with hclose
    · obtain ⟨rfl, hs⟩ := hclose
      obtain ⟨d, rfl⟩ : ∃ d, u = [d] := length_eq_one_iff.mp (by simpa using h.symm)
      obtain rfl : d = '/' := by simpa using hs
      refine ⟨[], rfl, fun hv => ?_⟩
      have hlen := hv.length_le
      simp at hlen
    · obtain ⟨v, rfl, hv⟩ := ih (by simpa using h)
      refine ⟨c :: v, rfl, fun hcv => ?_⟩
      rcases infix_cons_iff.mp hcv with ⟨r, hr⟩ | hv'
      · obtain ⟨rfl, hrest⟩ := List.cons.inj hr
        refine hclose ⟨rfl, ?_⟩
        cases v with
        | nil => simp at hrest
        | cons d v =>
          obtain rfl : '/' = d := (List.cons.inj hrest).1
          rfl
      · exact hv hv'

/-- A block comment with text behind it ends with its first closing. -/
theorem stands_block_closed {w : Text} (h : Stands (.blockComment, w) t) (ht : t ≠ []) :
    ∃ v, w = '/' :: '*' :: (v ++ ['*', '/']) ∧ ¬ ['*', '/'] <:+: v ++ ['*'] := by
  obtain ⟨u, rfl, hlen⟩ := stands_block_iff.mp h
  obtain ⟨v, rfl, hv⟩ := blockLength_closed hlen ht
  exact ⟨v, rfl, hv⟩

/-- A block comment that ends with its first closing stands before any text. -/
theorem stands_block_of_closed (h : ¬ ['*', '/'] <:+: v ++ ['*']) (t : Text) :
    Stands (.blockComment, '/' :: '*' :: (v ++ ['*', '/'])) t := by
  refine stands_block_iff.mpr ⟨v ++ ['*', '/'], rfl, ?_⟩
  simp [blockLength_append_close h]

/-! ### Line ends behind a grain -/

/-- A grain with text behind it is read as such before a line end too. -/
theorem Stands.before_newline (h : Stands g t) (ht : t ≠ []) (t' : Text) :
    Stands g ('\n' :: t') := by
  obtain ⟨region, w⟩ := g
  cases region with
  | code =>
    obtain ⟨c, rfl, hc⟩ := stands_code_iff.mp h
    obtain ⟨hq, ha, -⟩ := regionAt_eq_code_iff.mp hc
    exact stands_code_iff.mpr ⟨c, rfl, regionAt_eq_code_iff.mpr ⟨hq, ha, fun _ => by simp⟩⟩
  | lineComment =>
    obtain ⟨u, rfl, hu, -⟩ := stands_line_iff.mp h
    exact stands_line_iff.mpr ⟨u, rfl, hu, by simp⟩
  | _ =>
    obtain ⟨u, rfl, hopen, hlen⟩ := (stands_iff (by decide)).mp h
    refine (stands_iff (by decide)).mpr ⟨u, rfl, fun hstring => ?_,
      (measures_bodyLength (by decide)).before_newline hlen ht t'⟩
    obtain _ | ⟨d, _ | ⟨e, u⟩⟩ := u
    · simp
    · simp
    · simpa using hopen hstring

/-- Grains with text behind them are read as such before a line end too. -/
theorem Standing.before_newline (h : Standing gs t) (ht : t ≠ []) (t' : Text) :
    Standing gs ('\n' :: t') := by
  induction gs with
  | nil => trivial
  | cons g gs ih =>
    refine ⟨?_, ih h.2⟩
    cases gs with
    | nil => exact h.1.before_newline (by simpa using ht) t'
    | cons g' gs =>
      refine h.1.congr ?_
      obtain ⟨c, w, hw⟩ := exists_cons_of_ne_nil h.2.1.ne_nil
      simp [hw]

/-! ### The masked text -/

/-- The masked text of a grain. -/
def maskGrain (g : Grain) : Text :=
  Segment.masked ⟨g.1, 0, g.2⟩

@[simp] theorem maskGrain_code (w : Text) : maskGrain (.code, w) = w := rfl

theorem flatMap_masked_placed (pos : Nat) (gs : List Grain) :
    (placed pos gs).flatMap Segment.masked = gs.flatMap maskGrain := by
  induction gs generalizing pos with
  | nil => rfl
  | cons g gs ih => rw [placed, flatMap_cons, flatMap_cons, ih]; rfl

theorem mask_eq (text : Text) : mask text = (grains text).flatMap maskGrain := by
  rw [mask, flatMap_segments Segment.masked (fun _ => rfl) (fun _ _ _ => rfl),
    flatMap_masked_placed]

def maskText (gs : List Grain) : Text :=
  gs.flatMap maskGrain

@[simp] theorem maskText_nil : maskText [] = [] := rfl

@[simp] theorem maskText_cons (g : Grain) (gs : List Grain) :
    maskText (g :: gs) = maskGrain g ++ maskText gs := rfl

@[simp] theorem maskText_append (gs hs : List Grain) :
    maskText (gs ++ hs) = maskText gs ++ maskText hs :=
  flatMap_append

@[simp] theorem maskText_codeGrains (w : Text) : maskText (codeGrains w) = w := by
  simp [maskText, codeGrains, flatMap_map]

theorem length_blankBetween (h : head.length ≤ s.length) :
    (blankBetween head tail s).length = s.length := by
  simp only [blankBetween, blankOut, slice, length_append, length_map, length_take, length_drop]
  grind

theorem maskGrain_eq (hr : g.1 ≠ .code) :
    maskGrain g = blankBetween g.1.opening g.1.closing g.2 := by
  obtain ⟨region, w⟩ := g
  cases region with
  | code => exact absurd rfl hr
  | _ => rfl

theorem length_maskGrain (h : Stands g t) : (maskGrain g).length = g.2.length := by
  obtain ⟨region, w⟩ := g
  by_cases hr : region = .code
  · rw [hr]
    rfl
  · rw [maskGrain_eq hr]
    exact length_blankBetween h.opening_isPrefix.length_le

theorem length_flatMap_maskGrain (h : Standing gs t) :
    (gs.flatMap maskGrain).length = (grainText gs).length := by
  induction gs with
  | nil => rfl
  | cons g gs ih => simp [length_maskGrain h.1, ih h.2]

theorem mem_blankOut (h : c ∈ blankOut s) : c = ' ' ∨ c = '\n' := by
  obtain ⟨d, -, rfl⟩ := mem_map.mp h
  grind

theorem mem_blankBetween (h : c ∈ blankBetween head tail s) :
    c ∈ head ∨ c ∈ tail ∨ c = ' ' ∨ c = '\n' := by
  simp only [blankBetween, mem_append] at h
  rcases h with h | h | h
  · exact .inl h
  · exact .inr (.inr (mem_blankOut h))
  · grind

/-- What the masked text shows of comments and literals is delimiters and blanks. -/
theorem mem_maskGrain (hr : g.1 ≠ .code) (h : c ∈ maskGrain g) :
    c = '/' ∨ c = '*' ∨ c = '"' ∨ c = '\'' ∨ c = ' ' ∨ c = '\n' := by
  obtain ⟨region, w⟩ := g
  cases region with
  | code => exact absurd rfl hr
  | _ =>
    have hmem := mem_blankBetween h
    simp only [mem_cons, not_mem_nil, or_false, false_or] at hmem
    tauto

/-- The masked text shows slashes of code and comments only. -/
theorem slash_notMem_maskGrain (hcode : g.1 ≠ .code) (hline : g.1 ≠ .lineComment)
    (hblock : g.1 ≠ .blockComment) : '/' ∉ maskGrain g := by
  intro h
  obtain ⟨region, w⟩ := g
  cases region with
  | code => exact hcode rfl
  | lineComment => exact hline rfl
  | blockComment => exact hblock rfl
  | _ => simpa using mem_blankBetween h

theorem maskGrain_block (v : Text) :
    maskGrain (.blockComment, '/' :: '*' :: (v ++ ['*', '/'])) =
      '/' :: '*' :: (blankOut v ++ ['*', '/']) := by
  have hend : endsWith ['*', '/'] ('/' :: '*' :: (v ++ ['*', '/'])) = true :=
    endsWith_iff.mpr ⟨'/' :: '*' :: v, by simp⟩
  simp [maskGrain, Segment.masked, blankBetween, hend, slice]

end DocGraft.Source

/-! ## Gathered grains -/

namespace DocGraft.Source

open List Text

variable {g : Grain} {t w : Text}

/-! ### Joining code -/

/-- Code before runs of text, as one run with the code that they begin with. -/
def consCode (w : Text) : List (Region × Text) → List (Region × Text)
  | (.code, v) :: rest => (.code, w ++ v) :: rest
  | rest => (.code, w) :: rest

/-- Runs of text with neighbouring runs of code joined. -/
def gather : List (Region × Text) → List (Region × Text)
  | [] => []
  | (.code, w) :: rest => consCode w (gather rest)
  | run :: rest => run :: gather rest

/-- How a segment is read, and its text. -/
def reading (segment : Segment) : Region × Text :=
  (segment.region, segment.text)

theorem gather_cons (hg : g.1 ≠ .code) (gs : List Grain) : gather (g :: gs) = g :: gather gs := by
  rw [gather]
  rintro w rfl
  exact hg rfl

theorem consCode_of_head {rs : List (Region × Text)} (h : ∀ r ∈ rs.head?, r.1 ≠ .code) (w : Text) :
    consCode w rs = (.code, w) :: rs := by
  rw [consCode]
  rintro v rest rfl
  exact h _ rfl rfl

/-- Runs of text either begin with code or do not. -/
theorem exists_code_or_head (rs : List (Region × Text)) :
    (∃ v rest, rs = (.code, v) :: rest) ∨ ∀ r ∈ rs.head?, r.1 ≠ .code := by
  by_cases h : ∃ v rest, rs = (.code, v) :: rest
  · exact .inl h
  · refine .inr ?_
    rintro ⟨region, v⟩ hr rfl
    obtain ⟨rest, rfl⟩ := head?_eq_some_iff.mp hr
    exact h ⟨v, rest, rfl⟩

theorem consCode_append (w w' : Text) (rs : List (Region × Text)) :
    consCode w (consCode w' rs) = consCode (w ++ w') rs := by
  rcases exists_code_or_head rs with ⟨v, rest, rfl⟩ | hhead
  · simp [consCode]
  · rw [consCode_of_head hhead, consCode_of_head hhead, consCode]

theorem gather_codeGrains_append (hw : w ≠ []) (gs : List Grain) :
    gather (codeGrains w ++ gs) = consCode w (gather gs) := by
  induction w with
  | nil => exact absurd rfl hw
  | cons c w ih =>
    rw [codeGrains_cons, cons_append, gather]
    cases w with
    | nil => rfl
    | cons d w => grind [consCode_append]

theorem gather_append_cons (hg : g.1 ≠ .code) (gs hs : List Grain) :
    gather (gs ++ g :: hs) = gather gs ++ g :: gather hs := by
  have hcons : ∀ w (rs : List Grain), consCode w (rs ++ g :: gather hs) =
      consCode w rs ++ g :: gather hs := by
    intro w rs
    rcases exists_code_or_head rs with ⟨v, rest, rfl⟩ | hhead
    · rfl
    · rw [consCode_of_head hhead, consCode_of_head, cons_append]
      cases rs with
      | nil => simpa using hg
      | cons r rs => simpa using hhead
  induction gs with
  | nil => exact gather_cons hg hs
  | cons g' gs ih =>
    by_cases hg' : g'.1 = .code
    · obtain ⟨region, w⟩ := g'
      obtain rfl : region = .code := hg'
      rw [cons_append, gather, gather, ih, hcons]
    · simp [gather_cons hg', ih]

@[simp] theorem grainText_gather (gs : List Grain) : grainText (gather gs) = grainText gs := by
  have hcons : ∀ w rs, grainText (consCode w rs) = w ++ grainText rs := by
    intro w rs
    fun_cases consCode w rs
    · simp
    · simp
  induction gs with
  | nil => rfl
  | cons g gs ih =>
    by_cases hg : g.1 = .code
    · obtain ⟨region, w⟩ := g
      obtain rfl : region = .code := hg
      rw [gather, hcons, ih, grainText_cons]
    · simp [gather_cons hg, ih]

@[simp] theorem map_reading_placed (pos : Nat) (rs : List (Region × Text)) :
    (placed pos rs).map reading = rs := by
  induction rs generalizing pos with
  | nil => rfl
  | cons r rs ih => rw [placed, map_cons, ih, reading]

/-! ### Segments -/

/-- No code stands behind code that has been read to its end. -/
theorem codeLength_behind (h : codeLength (w ++ t) = w.length) : codeLength t = 0 := by
  induction w with
  | nil => exact h
  | cons c w ih =>
    have hcode : regionAt [] (c :: (w ++ t)) = .code := by
      by_contra hne
      grind [codeLength_eq_zero hne]
    grind [codeLength_cons hcode]

/-- The first grain behind code that has been read to its end is not code. -/
theorem head?_gather_of_codeLength (h : codeLength t = 0) :
    ∀ r ∈ (gather (grains t)).head?, r.1 ≠ .code := by
  cases t with
  | nil => simp [gather]
  | cons c t =>
    have hregion : regionAt [] (c :: t) ≠ .code := by
      intro hcode
      rw [codeLength_cons hcode] at h
      omega
    obtain ⟨w, u, hsplit, hreads⟩ := exists_reads (cons_ne_nil c t)
    have hstands : Stands (regionAt [] (c :: t), w) u := .word hregion hreads
    rw [hsplit, hstands.grains, gather_cons (g := (regionAt [] (c :: t), w)) hregion]
    simpa [hsplit] using hregion

/-- The segments of a text are its grains in their places, with neighbouring code joined. -/
theorem segments_eq_placed (text : Text) : segments text = placed 0 (gather (grains text)) := by
  have hmain : ∀ pos, segmentsFrom [] pos 0 text = placed pos (gather (grains text)) := by
    induction text using segment_induction with
    | nil => intro pos; rfl
    | cons region w t h ih =>
      intro pos
      rw [h.segmentsFrom, ih]
      by_cases hr : region = .code
      · subst hr
        have hcode := head?_gather_of_codeLength (codeLength_behind h.length_eq)
        rw [h.grains, show Segment.grains ⟨.code, 0, w⟩ = codeGrains w from rfl,
          gather_codeGrains_append h.ne_nil, consCode_of_head hcode, placed]
      · rw [(Stands.word hr h).grains, gather_cons (g := (region, w)) hr, placed]
  rw [segments_eq, hmain]

/-- A comment or literal among the segments of a text is one of its grains. -/
theorem exists_grains_of_mem_segments {text : Text} {segment : Segment}
    (h : segment ∈ segments text)
    (hr : segment.region ≠ .code) :
    ∃ as bs, grains text = as ++ (segment.region, segment.text) :: bs ∧
      segment.start = (grainText as).length := by
  have hsame := flatMap_segments (fun s => if s.region = .code then [] else [s])
    (fun _ => rfl) (fun _ _ _ => rfl) text
  have hmem : segment ∈ (segments text).flatMap fun s => if s.region = .code then [] else [s] :=
    mem_flatMap.mpr ⟨segment, h, by simp [hr]⟩
  rw [hsame] at hmem
  obtain ⟨s, hs, hsegment⟩ := mem_flatMap.mp hmem
  obtain rfl : segment = s := by
    grind
  simpa using mem_placed.mp hs

end DocGraft.Source
