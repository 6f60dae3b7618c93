import Mathlib
import DocGraft.Proofs.TextSearch
import DocGraft.Source.Mask
import DocGraft.Text.Blank

/-!
# Reading a source grain by grain

The smallest runs into which a source can be cut are single characters of code and whole comments
and literals. These grains are read from left to right, and how far one of them goes depends on the
text behind it through the next character only. So the grains of a text can be cut anywhere, and
what follows the cut can be exchanged, as long as it begins alike.
-/

/-! ## How far comments and literals go -/

namespace DocGraft

open List

variable {region : Region}

/-- The delimiter with which a comment or a literal begins. -/
def Region.opening : Region → Text
  | code => []
  | lineComment => ['/', '/']
  | blockComment => ['/', '*']
  | stringLiteral => ['"']
  | charLiteral => ['\'']
  | textBlock => ['"', '"', '"']

/-- The delimiter with which a comment or a literal ends if it is closed. -/
def Region.closing : Region → Text
  | code | lineComment => []
  | blockComment => ['*', '/']
  | stringLiteral => ['"']
  | charLiteral => ['\'']
  | textBlock => ['"', '"', '"']

theorem Region.opening_ne_nil (h : region ≠ .code) : region.opening ≠ [] := by
  cases region <;> simp_all [opening]

/-- Delimiters are not white space. -/
theorem Region.isBlank_of_mem {c : Char} (h : c ∈ region.opening ++ region.closing) :
    Text.isBlank c = false := by
  have hall : ((region.opening ++ region.closing).all fun c => !Text.isBlank c) = true := by
    cases region <;> decide
  simpa using all_eq_true.mp hall c h

namespace Source

open Text

variable {c : Char}

/-! ### Measures -/

/-- Induction along a text in which, if it `escapes`, a backslash takes the next character with
it. -/
theorem escape_induction (escapes : Prop) {P : Text → Prop} (nil : P []) (lone : escapes → P ['\\'])
    (escape : escapes → ∀ c u, P u → P ('\\' :: c :: u))
    (cons : ∀ c u, (escapes → c ≠ '\\') → P u → P (c :: u)) : ∀ u, P u
  | [] => nil
  | c :: u => by
    by_cases hc : escapes ∧ c = '\\'
    · obtain ⟨hescapes, rfl⟩ := hc
      match u with
      | [] => exact lone hescapes
      | d :: u => exact escape hescapes d u (escape_induction escapes nil lone escape cons u)
    · exact cons c u (fun h hback => hc ⟨h, hback⟩)
        (escape_induction escapes nil lone escape cons u)

/-- How far a comment or a literal goes behind its opening: through its closing or, if it is
`bounded`, up to the end of its line. If it `escapes`, a backslash takes the next character with
it. -/
structure Measures (length : Text → Nat) (closing : Text) (escapes bounded : Prop) : Prop where
  nil : length [] = 0
  lone : escapes → length ['\\'] = 1
  escape : escapes → ∀ c s, length ('\\' :: c :: s) = length s + 2
  close : ∀ s, length (closing ++ s) = closing.length
  line : bounded → ∀ s, length ('\n' :: s) = 0
  cons : ∀ c s, (escapes → c ≠ '\\') → ¬ closing <+: c :: s → (bounded → c ≠ '\n') →
    length (c :: s) = length s + 1
  closing_ne : closing ≠ []
  unbroken : '\n' ∉ closing
  single : bounded → closing.length = 1

namespace Measures

variable {length : Text → Nat} {closing : Text} {escapes bounded : Prop}
  (h : Measures length closing escapes bounded) {t u : Text}

include h

theorem append {v : Text} (hv : ∀ c ∈ v, (escapes → c ≠ '\\') ∧ closing.head? ≠ some c ∧
    (bounded → c ≠ '\n')) (t : Text) : length (v ++ t) = v.length + length t := by
  induction v with
  | nil => simp
  | cons c v ih =>
    obtain ⟨⟨hescape, hclose, hline⟩, hv⟩ := forall_mem_cons.mp hv
    have hopen : ¬ closing <+: c :: (v ++ t) := by
      obtain ⟨d, closing, hd⟩ := exists_cons_of_ne_nil h.closing_ne
      rw [hd, cons_prefix_cons]
      rintro ⟨rfl, -⟩
      exact hclose (by rw [hd, head?_cons])
    grind [h.cons c _ hescape hopen hline]

theorem eq_zero {c : Char} {s : Text} (hzero : length (c :: s) = 0) : bounded ∧ c = '\n' := by
  by_contra hline
  by_cases hescape : escapes ∧ c = '\\'
  · obtain ⟨hescapes, rfl⟩ := hescape
    cases s with
    | nil => simp [h.lone hescapes] at hzero
    | cons d s => simp [h.escape hescapes] at hzero
  · by_cases hclose : closing <+: c :: s
    · obtain ⟨t, ht⟩ := hclose
      rw [← ht, h.close] at hzero
      exact h.closing_ne (eq_nil_of_length_eq_zero hzero)
    · rw [h.cons c s (fun h hc => hescape ⟨h, hc⟩) hclose fun hb hc => hline ⟨hb, hc⟩] at hzero
      omega

/-- What is read ends with its closing, and then it does so before any text, or it is cut short by
the end of the text or of its line. -/
theorem ends (hu : length (u ++ t) = u.length) :
    (closing <:+ u ∧ ∀ t', length (u ++ t') = u.length) ∨ t = [] ∨
      bounded ∧ t.head? = some '\n' ∧ ∀ t', length (u ++ '\n' :: t') = u.length := by
  induction u using escape_induction escapes with
  | nil =>
    cases t with
    | nil => exact .inr (.inl rfl)
    | cons c t =>
      obtain ⟨hbounded, rfl⟩ := h.eq_zero hu
      exact .inr (.inr ⟨hbounded, rfl, h.line hbounded⟩)
  | lone hescapes =>
    cases t with
    | nil => exact .inr (.inl rfl)
    | cons c t => simp [h.escape hescapes] at hu
  | escape hescapes c u ih =>
    simp only [cons_append, h.escape hescapes, length_cons, Nat.add_right_cancel_iff] at hu ⊢
    exact (ih hu).imp_left (.imp_left fun hclose => hclose.trans (suffix_append ['\\', c] u))
  | cons c u hescape ih =>
    by_cases hclose : closing <+: c :: (u ++ t)
    · obtain ⟨r, hr⟩ := hclose
      rw [cons_append, ← hr, h.close] at hu
      obtain ⟨rfl, -⟩ := append_inj (hr.trans (cons_append.symm : _ = (c :: u) ++ t)) hu
      exact .inl ⟨suffix_rfl, h.close⟩
    · by_cases hline : bounded ∧ c = '\n'
      · obtain ⟨hbounded, rfl⟩ := hline
        rw [cons_append, h.line hbounded] at hu
        cases hu
      · have hcons : ∀ t', ¬ closing <+: c :: (u ++ t') →
            length (c :: u ++ t') = length (u ++ t') + 1 := fun t' hopen =>
          h.cons c _ hescape hopen fun hbounded hc => hline ⟨hbounded, hc⟩
        rw [hcons t hclose, length_cons, Nat.add_right_cancel_iff] at hu
        have hopen : closing.length ≤ (c :: u).length → ∀ t', ¬ closing <+: c :: (u ++ t') :=
          fun hle t' hpre => hclose ((prefix_of_prefix_length_le hpre
            (prefix_append (c :: u) t') hle).trans (prefix_append (c :: u) t))
        rcases ih hu with ⟨hsuffix, hall⟩ | hnil | ⟨hbounded, hhead, hall⟩
        · have hle := hsuffix.length_le
          refine .inl ⟨hsuffix.trans (suffix_cons c u), fun t' => ?_⟩
          grind
        · exact .inr (.inl hnil)
        · refine .inr (.inr ⟨hbounded, hhead, fun t' => ?_⟩)
          rw [hcons _ (hopen (by simp [h.single hbounded]) _), hall, length_cons]

/-- Only the first character behind it matters. -/
theorem congr {t' : Text} (hu : length (u ++ t) = u.length) (ht : t.head? = t'.head?) :
    length (u ++ t') = u.length := by
  rcases h.ends hu with ⟨-, hall⟩ | rfl | ⟨-, hhead, hall⟩
  · exact hall t'
  · obtain rfl : t' = [] := head?_eq_none_iff.mp ht.symm
    exact hu
  · obtain ⟨s, rfl⟩ := head?_eq_some_iff.mp (ht.symm.trans hhead)
    exact hall s

/-- With text behind it, it could also stand before a line end. -/
theorem before_newline (hu : length (u ++ t) = u.length) (ht : t ≠ []) (t' : Text) :
    length (u ++ '\n' :: t') = u.length := by
  rcases h.ends hu with ⟨-, hall⟩ | hnil | ⟨-, -, hall⟩
  · exact hall _
  · exact absurd hnil ht
  · exact hall t'

/-- What goes on over a line end goes on whatever follows. -/
theorem behind_newline {u t : Text} (hlast : u.getLast? = some '\n')
    (hu : u.length ≤ length (u ++ t)) (y : Text) : length (u ++ y) = u.length + length y := by
  induction u using escape_induction escapes with
  | nil => simp at hlast
  | lone => simp at hlast
  | escape hescapes c u ih =>
    simp only [cons_append, h.escape hescapes, length_cons] at hu ⊢
    cases u with
    | nil => simp [Nat.add_comm]
    | cons d u =>
      grind
  | cons c u hescape ih =>
    have hmem := mem_of_getLast? hlast
    -- The closing has no line end in it, so that it cannot go over the end of the text.
    have hclose : ∀ t', ¬ closing <+: c :: (u ++ t') := by
      intro t' hclose
      rcases prefix_or_prefix_of_prefix hclose (prefix_append (c :: u) t') with
        hpre | hpre
      · obtain ⟨r, hr⟩ := hpre
        rw [← hr, append_assoc, h.close, length_append] at hu
        obtain rfl : r = [] := eq_nil_of_length_eq_zero (by omega)
        rw [← hr, append_nil] at hmem
        exact h.unbroken hmem
      · exact h.unbroken (hpre.subset hmem)
    have hline : bounded → c ≠ '\n' := by
      rintro hbounded rfl
      rw [cons_append, h.line hbounded] at hu
      cases hu
    rw [cons_append, h.cons c _ hescape (hclose _) hline, length_cons] at hu ⊢
    cases u with
    | nil => simp [Nat.add_comm]
    | cons d u =>
      grind

end Measures

/-! ### Comments and literals -/

theorem blockLength_cons (c : Char) (s : Text) :
    blockLength (c :: s) = if c = '*' ∧ s.head? = some '/' then 2 else blockLength s + 1 := by
  rw [blockLength.eq_def]
  split
  · next h => simp at h
  · next t h =>
    obtain ⟨rfl, rfl⟩ := List.cons.inj h
    simp
  · next d t hn h =>
    obtain ⟨rfl, rfl⟩ := List.cons.inj h
    rw [if_neg]
    rintro ⟨rfl, hs⟩
    obtain ⟨t, rfl⟩ := head?_eq_some_iff.mp hs
    exact absurd rfl (hn t rfl)

theorem quotedLength_escape (quote : Char) (c : Char) (s : Text) :
    quotedLength quote ('\\' :: c :: s) = quotedLength quote s + 2 := by
  rw [quotedLength]

theorem quotedLength_cons (quote : Char) (h : c ≠ '\\') (s : Text) :
    quotedLength quote (c :: s) =
      if c = quote then 1 else if c = '\n' then 0 else quotedLength quote s + 1 := by
  rw [quotedLength]
  · simp [h]
  · simp [h]

theorem blockLiteralLength_escape (c : Char) (s : Text) :
    blockLiteralLength ('\\' :: c :: s) = blockLiteralLength s + 2 := by
  rw [blockLiteralLength]

theorem blockLiteralLength_cons (h : c ≠ '\\') (s : Text) :
    blockLiteralLength (c :: s) =
      if c = '"' ∧ s.head? = some '"' ∧ s.tail.head? = some '"' then 3
      else blockLiteralLength s + 1 := by
  rw [blockLiteralLength.eq_def]
  split
  · next h => simp at h
  · next heq => simp [(List.cons.inj heq).1] at h
  · next heq => simp [(List.cons.inj heq).1] at h
  · next heq =>
    obtain ⟨rfl, rfl⟩ := List.cons.inj heq
    simp
  · next d t _ _ hn heq =>
    obtain ⟨rfl, rfl⟩ := List.cons.inj heq
    rw [if_neg]
    rintro ⟨rfl, hs, ht⟩
    obtain ⟨u, rfl⟩ := head?_eq_some_iff.mp hs
    obtain ⟨v, rfl⟩ := head?_eq_some_iff.mp ht
    exact absurd rfl (hn v rfl)

theorem measures_blockLength : Measures blockLength ['*', '/'] False False where
  nil := rfl
  lone := False.elim
  escape := False.elim
  close s := by simp [blockLength]
  line := False.elim
  cons c s _ hopen _ := by
    rw [blockLength_cons, if_neg]
    rintro ⟨rfl, hs⟩
    obtain ⟨t, rfl⟩ := head?_eq_some_iff.mp hs
    exact hopen ⟨t, rfl⟩
  closing_ne := by simp
  unbroken := by simp
  single := False.elim

theorem measures_quotedLength {quote : Char} (hescape : quote ≠ '\\') (hline : quote ≠ '\n') :
    Measures (quotedLength quote) [quote] True True where
  nil := rfl
  lone _ := rfl
  escape _ := quotedLength_escape quote
  close s := by simp [quotedLength_cons quote hescape]
  line _ s := by rw [quotedLength_cons quote (by decide), if_neg hline.symm, if_pos rfl]
  cons c s hback hopen hbreak := by
    rw [quotedLength_cons quote (hback trivial), if_neg, if_neg (hbreak trivial)]
    rintro rfl
    exact hopen (prefix_append [c] s)
  closing_ne := by simp
  unbroken := by simpa using hline.symm
  single _ := rfl

theorem measures_blockLiteralLength :
    Measures blockLiteralLength ['"', '"', '"'] True False where
  nil := rfl
  lone _ := rfl
  escape _ := blockLiteralLength_escape
  close s := by simp [blockLiteralLength]
  line := False.elim
  cons c s hback hopen _ := by
    rw [blockLiteralLength_cons (hback trivial), if_neg]
    rintro ⟨rfl, hs, ht⟩
    obtain ⟨u, rfl⟩ := head?_eq_some_iff.mp hs
    obtain ⟨v, rfl⟩ := head?_eq_some_iff.mp ht
    exact hopen ⟨v, rfl⟩
  closing_ne := by simp
  unbroken := by simp
  single := False.elim

/-- How far text that is read as `region` goes behind its opening. -/
def bodyLength : Region → Text → Nat
  | .code => codeLength
  | .lineComment => run (· ≠ '\n')
  | .blockComment => blockLength
  | .stringLiteral => quotedLength '"'
  | .charLiteral => quotedLength '\''
  | .textBlock => blockLiteralLength

theorem regionLength_opening (region : Region) (s : Text) :
    regionLength region (region.opening ++ s) = region.opening.length + bodyLength region s := by
  cases region with
  | lineComment =>
    simp [regionLength, Region.opening, bodyLength, run]
    omega
  | _ => simp [regionLength, Region.opening, bodyLength, Nat.add_comm]

/-- Block comments and literals are measured up to their closings. -/
theorem measures_bodyLength {region : Region} (h : region.closing ≠ []) :
    Measures (bodyLength region) region.closing (region ≠ .blockComment)
      (region = .stringLiteral ∨ region = .charLiteral) := by
  cases region with
  | code => exact absurd rfl h
  | lineComment => exact absurd rfl h
  | blockComment => simpa [Region.closing, bodyLength] using measures_blockLength
  | stringLiteral | charLiteral =>
    simpa [Region.closing, bodyLength] using measures_quotedLength (by decide) (by decide)
  | textBlock => simpa [Region.closing, bodyLength] using measures_blockLiteralLength

end Source

end DocGraft

/-! ## Reading a source grain by grain -/

namespace DocGraft.Source

open List Text

variable {c : Char} {s : Text}

/-! ### Regions and their lengths -/

theorem regionAt_cons (c : Char) (s : Text) :
    regionAt [] (c :: s) =
      if c = '/' ∧ s.head? = some '*' then .blockComment
      else if c = '/' ∧ s.head? = some '/' then .lineComment
      else if c = '"' then
        if s.head? = some '"' ∧ s.tail.head? = some '"' then .textBlock else .stringLiteral
      else if c = '\'' then .charLiteral
      else .code := by
  rw [regionAt.eq_def]
  split
  · next h => simp_all
  · next h => simp_all
  · next t h =>
    obtain ⟨rfl, rfl⟩ := List.cons.inj h
    have hopen : startsWith ['"', '"'] (s.take 2 ++ []) = true ↔
        s.head? = some '"' ∧ s.tail.head? = some '"' := by
      rw [startsWith_iff]
      rcases s with _ | ⟨d, _ | ⟨e, s⟩⟩
      · simp
      · simp [cons_prefix_cons]
      · grind
    simp only [hopen]
    simp
  · next h => simp_all
  · next h₁ h₂ h₃ h₄ =>
    have ha : ¬ (c = '/' ∧ s.head? = some '*') := by
      rintro ⟨rfl, hs⟩
      obtain ⟨t, rfl⟩ := head?_eq_some_iff.mp hs
      exact h₁ t rfl
    have hb : ¬ (c = '/' ∧ s.head? = some '/') := by
      rintro ⟨rfl, hs⟩
      obtain ⟨t, rfl⟩ := head?_eq_some_iff.mp hs
      exact h₂ t rfl
    have hq : c ≠ '"' := fun hc => h₃ s (by rw [hc])
    have ha' : c ≠ '\'' := fun hc => h₄ s (by rw [hc])
    grind

/-- Code is whatever does not open a comment or a literal. -/
theorem regionAt_eq_code_iff :
    regionAt [] (c :: s) = .code ↔
      c ≠ '"' ∧ c ≠ '\'' ∧ (c = '/' → s.head? ≠ some '*' ∧ s.head? ≠ some '/') := by
  rw [regionAt_cons]
  split_ifs <;> simp_all

theorem codeLength_cons (h : regionAt [] (c :: s) = .code) :
    codeLength (c :: s) = codeLength s + 1 := by
  obtain ⟨hq, ha, hs⟩ := regionAt_eq_code_iff.mp h
  rw [codeLength.eq_def]
  split <;> simp_all

theorem codeLength_eq_zero (h : regionAt [] s ≠ .code) : codeLength s = 0 := by
  cases s with
  | nil => rfl
  | cons c s =>
    grind [regionAt_cons, codeLength.eq_def]

theorem codeLength_le (s : Text) : codeLength s ≤ s.length := by
  fun_induction codeLength s <;> simp_all

theorem blockLength_le (s : Text) : blockLength s ≤ s.length := by
  fun_induction blockLength s <;> simp_all

theorem quotedLength_le (quote : Char) (s : Text) : quotedLength quote s ≤ s.length := by
  fun_induction quotedLength quote s <;> simp_all

theorem blockLiteralLength_le (s : Text) : blockLiteralLength s ≤ s.length := by
  fun_induction blockLiteralLength s <;> simp_all

theorem regionLength_le (region : Region) (s : Text) : regionLength region s ≤ s.length := by
  cases region with
  | code => exact codeLength_le s
  | lineComment => exact (takeWhile_sublist _).length_le
  | blockComment =>
    have h := blockLength_le (s.drop 2)
    grind [regionLength]
  | stringLiteral =>
    have h := quotedLength_le '"' (s.drop 1)
    grind [regionLength]
  | charLiteral =>
    have h := quotedLength_le '\'' (s.drop 1)
    grind [regionLength]
  | textBlock =>
    have h := blockLiteralLength_le (s.drop 3)
    grind [regionLength]

theorem regionLength_pos : 0 < regionLength (regionAt [] (c :: s)) (c :: s) := by
  cases h : regionAt [] (c :: s) with
  | code =>
    rw [regionLength, codeLength_cons h]
    omega
  | lineComment =>
    rw [regionAt_cons] at h
    split_ifs at h with h₁ h₂
    simp [regionLength, run, h₂.1]
  | _ =>
    simp [regionLength]

/-! ### Segments one after the other -/

theorem segmentsFrom_skip (beyond : Text) (pos skip : Nat) (s : Text) :
    segmentsFrom beyond pos skip s = segmentsFrom beyond (pos + skip) 0 (s.drop skip) := by
  induction skip generalizing pos s with
  | zero => rfl
  | succ skip ih =>
    cases s with
    | nil => simp [segmentsFrom]
    | cons c s =>
      rw [segmentsFrom, ih, drop_succ_cons, Nat.add_assoc, Nat.add_comm 1]

/-- The first segment of a text and the segments of the rest. -/
theorem segmentsFrom_cons (pos : Nat) (c : Char) (s : Text) :
    segmentsFrom [] pos 0 (c :: s) =
      ⟨regionAt [] (c :: s), pos,
        (c :: s).take (regionLength (regionAt [] (c :: s)) (c :: s))⟩ ::
      segmentsFrom [] (pos + regionLength (regionAt [] (c :: s)) (c :: s)) 0
        ((c :: s).drop (regionLength (regionAt [] (c :: s)) (c :: s))) := by
  have hpos := regionLength_pos (c := c) (s := s)
  rw [segmentsFrom, segmentsFrom_skip]
  obtain ⟨n, hn⟩ := Nat.exists_eq_succ_of_ne_zero (Nat.pos_iff_ne_zero.mp hpos)
  grind

theorem segments_eq (text : Text) : segments text = segmentsFrom [] 0 0 text := by
  simp [segments, tokenize, slice]

/-- A run of text is the first segment of the text that it makes with what follows. -/
structure Reads (region : Region) (w t : Text) : Prop where
  ne_nil : w ≠ []
  region_eq : regionAt [] (w ++ t) = region
  length_eq : regionLength region (w ++ t) = w.length

theorem exists_reads (h : s ≠ []) : ∃ w t, s = w ++ t ∧ Reads (regionAt [] s) w t := by
  obtain ⟨c, s, rfl⟩ := exists_cons_of_ne_nil h
  set n := regionLength (regionAt [] (c :: s)) (c :: s) with hn
  have hpos : 0 < n := regionLength_pos
  have hle : n ≤ (c :: s).length := regionLength_le _ _
  refine ⟨(c :: s).take n, (c :: s).drop n, (take_append_drop n _).symm, ?_, ?_, ?_⟩
  · intro hnil
    grind [length_nil]
  · rw [take_append_drop]
  · rw [take_append_drop, ← hn, length_take]
    omega

theorem Reads.segmentsFrom {region : Region} {w t : Text} (h : Reads region w t) (pos : Nat) :
    segmentsFrom [] pos 0 (w ++ t) =
      ⟨region, pos, w⟩ :: Source.segmentsFrom [] (pos + w.length) 0 t := by
  obtain ⟨c, w, rfl⟩ := exists_cons_of_ne_nil h.ne_nil
  have hregion := h.region_eq
  have hlength := h.length_eq
  rw [cons_append] at hregion hlength ⊢
  rw [segmentsFrom_cons, hregion, hlength, ← cons_append, take_left, drop_left]

/-- Induction along the segments of a text. -/
theorem segment_induction {P : Text → Prop} (nil : P [])
    (cons : ∀ region w t, Reads region w t → P t → P (w ++ t)) (s : Text) : P s := by
  induction hn : s.length using Nat.strong_induction_on generalizing s with
  | _ n ih =>
    by_cases hs : s = []
    · rwa [hs]
    · obtain ⟨w, t, rfl, h⟩ := exists_reads hs
      have hpos := length_pos_of_ne_nil h.ne_nil
      grind

end DocGraft.Source

/-! ### Grains -/

/-- The grains of a segment: single characters if it is code, and otherwise all of it. -/
def DocGraft.Segment.grains (segment : DocGraft.Segment) :
    List (DocGraft.Region × DocGraft.Text) :=
  match segment.region with
  | .code => segment.text.map fun c => (.code, [c])
  | region => [(region, segment.text)]

namespace DocGraft.Source

open List Text

variable {c : Char} {g : Grain} {gs : List Grain} {region : Region} {t w : Text} {t' : Text}

/-- A single character of code, or a whole comment or literal. -/
abbrev Grain := Region × Text

/-- A grain is read as such before a text. -/
inductive Stands : Grain → Text → Prop
  | code {c : Char} {t : Text} (h : regionAt [] (c :: t) = .code) : Stands (.code, [c]) t
  | word {region : Region} {w t : Text} (hr : region ≠ .code) (h : Reads region w t) :
      Stands (region, w) t

def grainText (gs : List Grain) : Text :=
  gs.flatMap (·.2)

@[simp] theorem grainText_nil : grainText [] = [] := rfl

@[simp] theorem grainText_cons (g : Grain) (gs : List Grain) :
    grainText (g :: gs) = g.2 ++ grainText gs :=
  flatMap_cons

@[simp] theorem grainText_append (gs hs : List Grain) :
    grainText (gs ++ hs) = grainText gs ++ grainText hs :=
  flatMap_append

/-- A list of grains is read as such before a text. -/
def Standing : List Grain → Text → Prop
  | [], _ => True
  | g :: gs, t => Stands g (grainText gs ++ t) ∧ Standing gs t

theorem standing_append {hs : List Grain} :
    Standing (gs ++ hs) t ↔ Standing gs (grainText hs ++ t) ∧ Standing hs t := by
  induction gs with
  | nil => simp [Standing]
  | cons g gs ih => simp [Standing, ih, and_assoc]

/-- The grains of a text. -/
def grains (text : Text) : List Grain :=
  (segments text).flatMap Segment.grains

@[simp] theorem grains_nil : grains [] = [] := rfl

theorem Stands.ne_nil (h : Stands g t) : g.2 ≠ [] := by
  cases h with
  | code h => simp
  | word hr h => exact h.ne_nil

theorem flatMap_grains_segmentsFrom (pos : Nat) (s : Text) :
    (segmentsFrom [] pos 0 s).flatMap Segment.grains = grains s := by
  rw [grains, segments_eq]
  induction s using segment_induction generalizing pos with
  | nil => rfl
  | cons region w t h ih =>
    rw [h.segmentsFrom, h.segmentsFrom, flatMap_cons, flatMap_cons, ih, ih (0 + w.length)]
    rfl

theorem Reads.grains (h : Reads region w t) :
    grains (w ++ t) = Segment.grains ⟨region, 0, w⟩ ++ Source.grains t := by
  rw [Source.grains, segments_eq, h.segmentsFrom, flatMap_cons, flatMap_grains_segmentsFrom]

theorem Reads.cons_code (hc : regionAt [] (c :: (w ++ t)) = .code) (h : Reads .code w t) :
    Reads .code (c :: w) t where
  ne_nil := by simp
  region_eq := hc
  length_eq := by
    have hlen := h.length_eq
    simp only [regionLength] at hlen ⊢
    rw [cons_append, codeLength_cons hc, hlen, length_cons]

theorem grains_cons_code (hc : regionAt [] (c :: t) = .code) :
    grains (c :: t) = (.code, [c]) :: grains t := by
  by_cases ht : t ≠ [] ∧ regionAt [] t = .code
  · obtain ⟨w, u, rfl, h⟩ := exists_reads ht.1
    rw [ht.2] at h
    rw [h.grains, ← cons_append, (h.cons_code hc).grains]
    rfl
  · have hzero : codeLength t = 0 := by
      by_cases hnil : t = []
      · rw [hnil]
        rfl
      · exact codeLength_eq_zero fun h => ht ⟨hnil, h⟩
    have h : Reads .code [c] t :=
      ⟨by simp, hc, by simp [regionLength, codeLength_cons hc, hzero]⟩
    exact h.grains

theorem Stands.grains (h : Stands g t) : grains (g.2 ++ t) = g :: Source.grains t := by
  cases h with
  | code h => exact grains_cons_code h
  | word hr h =>
    rw [h.grains]
    simp only [Segment.grains]
    rfl

/-- Induction along the grains of a text. -/
theorem grain_induction {P : Text → Prop} (nil : P [])
    (cons : ∀ g t, Stands g t → P t → P (g.2 ++ t)) (s : Text) : P s := by
  induction hn : s.length using Nat.strong_induction_on generalizing s with
  | _ n ih =>
    cases s with
    | nil => exact nil
    | cons c s =>
      by_cases hc : regionAt [] (c :: s) = .code
      · exact cons (.code, [c]) s (.code hc) (ih s.length (by simp [← hn]) s rfl)
      · obtain ⟨w, t, hs, h⟩ := exists_reads (cons_ne_nil c s)
        have hpos := length_pos_of_ne_nil h.ne_nil
        rw [hs] at hn ⊢
        rw [length_append] at hn
        exact cons (_, w) t (.word hc h) (ih t.length (by omega) t rfl)

@[simp] theorem grainText_grains (s : Text) : grainText (grains s) = s := by
  induction s using grain_induction with
  | nil => rfl
  | cons g t h ih => rw [h.grains, grainText_cons, ih]

theorem standing_grains (s : Text) : Standing (grains s) [] := by
  induction s using grain_induction with
  | nil => trivial
  | cons g t h ih =>
    rw [h.grains]
    refine ⟨?_, ih⟩
    rwa [grainText_grains, append_nil]

/-- The grains of a text that begins with a list of grains. -/
theorem grains_append (h : Standing gs t) : grains (grainText gs ++ t) = gs ++ grains t := by
  induction gs with
  | nil => rfl
  | cons g gs ih => simp [h.1.grains, ih h.2]

theorem grains_grainText (h : Standing gs []) : grains (grainText gs) = gs := by
  simpa using grains_append h

/-! ### Comments and literals that stand before a text -/

theorem stands_code_iff : Stands (.code, w) t ↔ ∃ c, w = [c] ∧ regionAt [] (c :: t) = .code := by
  constructor
  · intro h
    cases h with
    | code h => exact ⟨_, rfl, h⟩
    | word hr h => exact absurd rfl hr
  · rintro ⟨c, rfl, h⟩
    exact .code h

theorem stands_line_iff :
    Stands (.lineComment, w) t ↔
      ∃ u, w = '/' :: '/' :: u ∧ '\n' ∉ u ∧ ∀ c, t.head? = some c → c = '\n' := by
  have hrun : ∀ u : Text, run (· ≠ '\n') (u ++ t) = u.length ↔
      '\n' ∉ u ∧ ∀ c, t.head? = some c → c = '\n' := by
    intro u
    induction u with
    | nil => cases t <;> simp [run, takeWhile_cons, apply_ite]
    | cons c u ih =>
      by_cases hc : c = '\n'
      · simp [run, hc]
      · simp only [run, cons_append, length_cons, mem_cons, not_or] at ih ⊢
        rw [takeWhile_cons_of_pos (by simpa using hc), length_cons, Nat.add_right_cancel_iff, ih]
        simp [Ne.symm hc]
  constructor
  · intro h
    cases h with
    | word hr h =>
      obtain ⟨c, w, rfl⟩ := exists_cons_of_ne_nil h.ne_nil
      have hat := h.region_eq
      have hlen := h.length_eq
      rw [cons_append, regionAt_cons] at hat
      split_ifs at hat with hblock hopen
      obtain ⟨rfl, hs⟩ := hopen
      have hw := (hrun ('/' :: w)).mp (by simpa [regionLength] using hlen)
      cases w with
      | nil => simpa using hw.2 '/' hs
      | cons d u =>
        obtain rfl : d = '/' := by simpa using hs
        grind
  · rintro ⟨u, rfl, hu, ht⟩
    refine .word (by decide) ⟨by simp, by simp [regionAt], ?_⟩
    exact (hrun ('/' :: '/' :: u)).mpr ⟨by simp [hu], ht⟩

/-- The text of a comment or a literal with a closing begins with its opening. -/
theorem regionAt_eq_iff (hr : region.closing ≠ []) {s : Text} :
    regionAt [] s = region ↔ ∃ v, s = region.opening ++ v ∧ (region = .stringLiteral →
      ¬ (v.head? = some '"' ∧ v.tail.head? = some '"')) := by
  cases s with
  | nil => cases region <;> simp_all [regionAt, Region.opening, Region.closing]
  | cons c s =>
    rw [regionAt_cons]
    constructor
    · rintro rfl
      split_ifs at hr ⊢ with hblock hline hquote hopen hchar
      · obtain ⟨rfl, hs⟩ := hblock
        obtain ⟨v, rfl⟩ := head?_eq_some_iff.mp hs
        exact ⟨v, rfl, by simp⟩
      · exact absurd rfl hr
      · obtain ⟨v, rfl⟩ := head?_eq_some_iff.mp hopen.1
        obtain ⟨v, rfl⟩ := head?_eq_some_iff.mp hopen.2
        exact ⟨v, by rw [hquote]; rfl, by simp⟩
      · exact ⟨s, by rw [hquote]; rfl, fun _ => hopen⟩
      · exact ⟨s, by rw [hchar]; rfl, by simp⟩
      · exact absurd rfl hr
    · rintro ⟨v, hv, hopen⟩
      cases region <;> simp_all [Region.opening, Region.closing]

/-- A block comment or a literal goes as far behind its opening as it is measured. -/
theorem stands_iff (hr : region.closing ≠ []) :
    Stands (region, w) t ↔ ∃ u, w = region.opening ++ u ∧ (region = .stringLiteral →
      ¬ ((u ++ t).head? = some '"' ∧ (u ++ t).tail.head? = some '"')) ∧
        bodyLength region (u ++ t) = u.length := by
  have hcode : region ≠ .code := by rintro rfl; exact hr rfl
  constructor
  · intro h
    cases h with
    | code => exact absurd rfl hcode
    | word _ h =>
      obtain ⟨v, hv, hopen⟩ := (regionAt_eq_iff hr).mp h.region_eq
      have hlen := h.length_eq
      rw [hv, regionLength_opening] at hlen
      obtain ⟨u, rfl⟩ : region.opening <+: w := prefix_of_prefix_length_le
        (hv ▸ prefix_append _ _) (prefix_append w t) (by omega)
      obtain rfl := append_cancel_left ((append_assoc ..).symm.trans hv)
      grind
  · rintro ⟨u, rfl, hopen, hlen⟩
    refine .word hcode ⟨?_, ?_, ?_⟩
    · cases region <;> simp_all [Region.opening]
    · exact (regionAt_eq_iff hr).mpr ⟨u ++ t, append_assoc .., hopen⟩
    · simp [regionLength_opening, hlen]

theorem stands_block_iff :
    Stands (.blockComment, w) t ↔ ∃ u, w = '/' :: '*' :: u ∧ blockLength (u ++ t) = u.length := by
  simpa [Region.opening, bodyLength] using stands_iff
    (show Region.blockComment.closing ≠ [] by decide)

theorem stands_string_iff :
    Stands (.stringLiteral, w) t ↔
      ∃ u, w = '"' :: u ∧ ¬ ((u ++ t).head? = some '"' ∧ (u ++ t).tail.head? = some '"') ∧
        quotedLength '"' (u ++ t) = u.length := by
  simpa [Region.opening, bodyLength] using stands_iff
    (show Region.stringLiteral.closing ≠ [] by decide)

theorem Stands.opening_isPrefix (h : Stands g t) : g.1.opening <+: g.2 := by
  obtain ⟨region, w⟩ := g
  cases region with
  | code => exact nil_prefix
  | lineComment =>
    obtain ⟨u, rfl, -⟩ := stands_line_iff.mp h
    exact ⟨u, rfl⟩
  | _ =>
    obtain ⟨u, rfl, -⟩ := (stands_iff (by decide)).mp h
    exact prefix_append _ u

/-! ### Exchanging what follows -/

/-- Whether a grain is read as such depends on the next character only. -/
theorem Stands.congr (h : Stands g t) (ht : t.head? = t'.head?) : Stands g t' := by
  obtain ⟨region, w⟩ := g
  cases region with
  | code =>
    obtain ⟨c, rfl, hc⟩ := stands_code_iff.mp h
    refine stands_code_iff.mpr ⟨c, rfl, regionAt_eq_code_iff.mpr ?_⟩
    rw [← ht]
    exact regionAt_eq_code_iff.mp hc
  | lineComment =>
    obtain ⟨u, rfl, hu, hend⟩ := stands_line_iff.mp h
    exact stands_line_iff.mpr ⟨u, rfl, hu, ht ▸ hend⟩
  | _ =>
    obtain ⟨u, rfl, hopen, hlen⟩ := (stands_iff (by decide)).mp h
    refine (stands_iff (by decide)).mpr ⟨u, rfl, fun hstring => ?_,
      (measures_bodyLength (by decide)).congr hlen ht⟩
    obtain _ | ⟨d, _ | ⟨e, u⟩⟩ := u
    · -- An opening quote alone is a literal only at the end of its line.
      rintro ⟨hs, -⟩
      rw [nil_append, ← ht] at hs
      obtain ⟨t, rfl⟩ := head?_eq_some_iff.mp hs
      exact absurd ((measures_bodyLength (by decide)).eq_zero hlen).2 (by decide)
    · simpa [ht] using hopen hstring
    · simpa using hopen hstring

/-- Whether a list of grains is read as such depends on the next character only. -/
theorem Standing.congr (h : Standing gs t) (ht : t.head? = t'.head?) : Standing gs t' := by
  induction gs with
  | nil => trivial
  | cons g gs ih =>
    refine ⟨h.1.congr ?_, ih h.2⟩
    grind

/-! ### Texts of code -/

/-- A text of code, one grain for each character. -/
def codeGrains (w : Text) : List Grain :=
  w.map fun c => (.code, [c])

@[simp] theorem codeGrains_nil : codeGrains [] = [] := rfl

@[simp] theorem codeGrains_cons (c : Char) (w : Text) :
    codeGrains (c :: w) = (.code, [c]) :: codeGrains w := rfl

@[simp] theorem codeGrains_append (w w' : Text) :
    codeGrains (w ++ w') = codeGrains w ++ codeGrains w' :=
  map_append

@[simp] theorem grainText_codeGrains (w : Text) : grainText (codeGrains w) = w := by
  simp [codeGrains, grainText, flatMap_map]

/-- A text opens neither comments nor literals. -/
def Bare (w : Text) : Prop :=
  ∀ c ∈ w, c ≠ '/' ∧ c ≠ '"' ∧ c ≠ '\''

theorem Bare.append {w' : Text} (hw : Bare w) (hw' : Bare w') : Bare (w ++ w') := by
  intro c hc
  rcases mem_append.mp hc with hc | hc
  · exact hw c hc
  · exact hw' c hc

theorem bare_singleton (h : c ≠ '/' ∧ c ≠ '"' ∧ c ≠ '\'') : Bare [c] := by
  simpa [Bare] using h

theorem Bare.standing (hw : Bare w) (t : Text) : Standing (codeGrains w) t := by
  induction w with
  | nil => trivial
  | cons c w ih =>
    obtain ⟨hc, hw⟩ := forall_mem_cons.mp hw
    refine ⟨.code (regionAt_eq_code_iff.mpr ⟨hc.2.1, hc.2.2, fun heq => ?_⟩), ih hw⟩
    exact absurd heq hc.1

end DocGraft.Source
