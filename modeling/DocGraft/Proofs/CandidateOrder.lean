import DocGraft.Proofs.PlaceholderRemoval
import DocGraft.Proofs.ScannerRuns

/-!
# The order of candidates

The candidates of a text are documentation comments with the spaces before them on their lines. A
comment ends with a slash, which is no space, so the line of the next candidate begins behind it.
Where code stands between two candidates, the later one does not even begin right behind the other.
-/

namespace DocGraft.Scanner

open List Text Source

variable {a b w : Text} {c : Candidate} {codeBefore : Bool}

/-! ### The lines of comments -/

/-- The line of a documentation comment begins behind every character before the comment other than
a space. -/
theorem lt_lineStart_of_ne_space {c : Char} (hspace : c ≠ ' ') {segment : Segment}
    (hstart : a.length < segment.start) (h : isDocComment (a ++ c :: b) segment) :
    a.length < lineStart (a ++ c :: b) segment.start := by
  by_cases hnewline : c = '\n'
  · subst hnewline
    obtain ⟨k, hk⟩ : ∃ k, segment.start = a.length + (k + 1) :=
      ⟨segment.start - a.length - 1, by omega⟩
    have hlead : lineLead (a ++ '\n' :: b) segment.start =
        (b.take k).reverse.takeWhile (· ≠ '\n') := by
      rw [lineLead, hk, take_length_add_append, take_succ_cons, reverse_append,
        reverse_cons, append_assoc, singleton_append, takeWhile_append]
      split_ifs with hall
      · have hself : (b.take k).reverse.takeWhile (· ≠ '\n') = (b.take k).reverse :=
          ( takeWhile_prefix _).eq_of_length hall
        rw [hself, takeWhile_cons_of_neg (by simp), append_nil]
      · rfl
    have hle : (lineLead (a ++ '\n' :: b) segment.start).length ≤ k := by
      rw [hlead]
      refine (takeWhile_sublist _).length_le.trans ?_
      rw [length_reverse, length_take]
      omega
    rw [lineStart]
    omega
  · exact lt_lineStart hspace hnewline hstart h

/-- What stands on a line before an offset, and before that line. -/
theorem exists_line_lead (p s : Text) :
    ∃ u w, p = u ++ w ∧ AtLineStart u ∧ '\n' ∉ w ∧ lineStart (p ++ s) p.length = u.length ∧
      ∀ c, c ∈ w ↔ c ∈ lineLead (p ++ s) p.length := by
  have hsplit : p = (p.reverse.dropWhile (· ≠ '\n')).reverse ++
      (p.reverse.takeWhile (· ≠ '\n')).reverse := by
    simp [← reverse_append]
  refine ⟨_, _, hsplit, ?_, ?_, ?_, ?_⟩
  · intro c hc
    rw [getLast?_reverse] at hc
    have hnot := head?_dropWhile_not (· ≠ '\n') p.reverse
    grind
  · intro hmem
    have hne := mem_takeWhile_imp (mem_reverse.mp hmem)
    simp at hne
  · grind [lineStart, lineLead_append]
  · intro c
    rw [lineLead_append, mem_reverse]

/-- The line of an offset begins at the beginning of a line, before the offset. -/
theorem atLineStart_take_lineStart (a b : Text) :
    lineStart (a ++ b) a.length ≤ a.length ∧
      AtLineStart ((a ++ b).take (lineStart (a ++ b) a.length)) := by
  obtain ⟨u, w, hsplit, hu, -, hstart, -⟩ := exists_line_lead a b
  have hlength := congrArg List.length hsplit
  rw [length_append] at hlength
  refine ⟨by omega, ?_⟩
  grind

/-! ### Candidates one by one -/

/-- The candidate at the comment `w` between `a` and `b`. -/
def candidateAt (a w b : Text) (codeBefore : Bool) : Candidate where
  start := lineStart (a ++ (w ++ b)) a.length
  commentStop := a.length + w.length
  stop := a.length + w.length + (lineEnd b).length
  codeBefore := codeBefore

theorem candidatesFrom_cons (a b : Text) (g : Grain) (codeBefore : Bool) (rest : List Segment) :
    candidatesFrom (a ++ (g.2 ++ b)) codeBefore (⟨g.1, a.length, g.2⟩ :: rest) =
      if isDocComment (a ++ (g.2 ++ b)) ⟨g.1, a.length, g.2⟩ then
        candidateAt a g.2 b codeBefore :: candidatesFrom (a ++ (g.2 ++ b)) false rest
      else candidatesFrom (a ++ (g.2 ++ b)) (codeBefore || isInk g) rest := by
  have hend : (if ((a ++ (g.2 ++ b)).drop (a.length + g.2.length)).head? =
      some '\n' then 1 else 0) =
      (lineEnd b).length := by
    rw [← append_assoc, ← length_append, drop_left, lineEnd]
    split_ifs <;> rfl
  rw [candidatesFrom]
  split_ifs
  · rw [candidateAt, ← hend]
    rfl
  · rfl

/-- A candidate takes up lines of a text: it begins where a line begins and ends behind that. -/
structure Lines (text : Text) (c : Candidate) : Prop where
  /-- It begins where a line begins. -/
  start : AtLineStart (text.take c.start)
  nonempty : c.start < c.stop
  bounded : c.stop ≤ text.length

theorem lines_candidateAt (hw : w ≠ []) (codeBefore : Bool) :
    Lines (a ++ (w ++ b)) (candidateAt a w b codeBefore) := by
  obtain ⟨hle, hstart⟩ := atLineStart_take_lineStart a (w ++ b)
  have hpos := length_pos_of_ne_nil hw
  have hend : (lineEnd b).length ≤ b.length := by
    obtain ⟨rest, hrest⟩ := exists_lineEnd_append b
    grind
  refine ⟨hstart, ?_, ?_⟩
  · simp only [candidateAt]
    omega
  · grind [candidateAt]

/-- The candidate `d` lies behind the candidate `c`, and not right behind it if there is code
between them. -/
def Follows (c d : Candidate) : Prop :=
  c.stop ≤ d.start ∧ (d.codeBefore = true → c.stop < d.start)

/-- The comment of a candidate ends in the text `a` before `b`; `codeBefore` tells whether something
else than white space follows in `a`. -/
def EndsIn (c : Candidate) (a b : Text) (codeBefore : Bool) : Prop :=
  ∃ u v, a = u ++ '/' :: v ∧ c.stop = u.length + 1 + (lineEnd (v ++ b)).length ∧
    (codeBefore = true → ∃ x ∈ v, isBlank x = false)

theorem EndsIn.append (h : EndsIn c a (w ++ b) codeBefore) {inked : Bool}
    (hinked : inked = true → ∃ x ∈ w, isBlank x = false) :
    EndsIn c (a ++ w) b (codeBefore || inked) := by
  obtain ⟨u, v, rfl, hstop, hcode⟩ := h
  refine ⟨u, v ++ w, by simp, by rw [hstop, append_assoc], fun h => ?_⟩
  rcases Bool.or_eq_true_iff.mp h with h | h
  · obtain ⟨x, hx, hblank⟩ := hcode h
    exact ⟨x, mem_append_left _ hx, hblank⟩
  · grind

/-- The next comment of a text is that of a candidate which lies behind. -/
theorem EndsIn.follows (h : EndsIn c a (w ++ b) codeBefore)
    (hdoc : isDocComment (a ++ (w ++ b)) ⟨.blockComment, a.length, w⟩) :
    Follows c (candidateAt a w b codeBefore) := by
  obtain ⟨u, v, rfl, hstop, hcode⟩ := h
  have hbehind : ∀ s x t, u ++ '/' :: v = s ++ x :: t → x ≠ ' ' →
      s.length < lineStart ((u ++ '/' :: v) ++ (w ++ b)) (u ++ '/' :: v).length := by
    intro s x t hsplit hx
    rw [hsplit, append_assoc, cons_append] at hdoc ⊢
    exact lt_lineStart_of_ne_space hx (by simp) hdoc
  have hslash := hbehind u '/' v rfl (by decide)
  -- A line end right behind the comment belongs to the candidate.
  have hend : (lineEnd (v ++ (w ++ b))).length = 0 ∨
      (lineEnd (v ++ (w ++ b))).length = 1 ∧ ∃ v', v = '\n' :: v' := by
    rw [lineEnd]
    split_ifs with hhead
    · refine .inr ⟨rfl, ?_⟩
      cases v with
      | cons x v' =>
        obtain rfl : x = '\n' := by simpa using hhead
        exact ⟨v', rfl⟩
      | nil =>
        have hopen : startsWith "/**".toList w = true := by
          simp only [isDocComment, Bool.and_eq_true] at hdoc
          exact hdoc.1.2
        obtain ⟨w', rfl⟩ := startsWith_iff.mp hopen
        simp at hhead
    · exact .inl rfl
  constructor
  · simp only [candidateAt]
    rcases hend with hend | ⟨hend, v', rfl⟩
    · omega
    · have hline := hbehind (u ++ ['/']) '\n' v' (by simp) (by decide)
      grind
  · intro hbefore
    obtain ⟨x, hx, hblank⟩ := hcode hbefore
    obtain ⟨v₁, v₂, rfl⟩ := append_of_mem hx
    have hink :=
      hbehind (u ++ '/' :: v₁) x v₂ (by simp) (by rintro rfl; exact absurd hblank (by decide))
    rw [length_append, length_cons] at hink
    simp only [candidateAt]
    rcases hend with hend | ⟨hend, v', hv⟩
    · omega
    · cases v₁ with
      | nil =>
        obtain rfl : x = '\n' := (List.cons.inj hv).1
        exact absurd hblank (by decide)
      | cons y v₁ =>
        rw [length_cons] at hink
        omega

/-! ### All candidates -/

theorem exists_isBlank_of_isInk {g : Grain} (h : isInk g = true) :
    ∃ x ∈ g.2, isBlank x = false := by
  rw [isInk, Bool.and_eq_true, Bool.not_eq_true', Bool.not_eq_true', allBlank, all_eq_false] at h
  obtain ⟨x, hx, hblank⟩ := h.2
  exact ⟨x, hx, by simpa using hblank⟩

/-- The candidates among grains take up lines and follow each other, and the first of them follows
a candidate before them. -/
theorem isChain_candidatesFrom {gs : List Grain} (hgs : Standing gs []) (a : Text)
    (codeBefore : Bool) :
    (candidatesFrom (a ++ grainText gs) codeBefore (placed a.length gs)).IsChain Follows ∧
      (∀ c ∈ candidatesFrom (a ++ grainText gs) codeBefore (placed a.length gs),
        Lines (a ++ grainText gs) c) ∧
      ∀ c, EndsIn c a (grainText gs) codeBefore →
        ∀ d ∈ (candidatesFrom (a ++ grainText gs) codeBefore (placed a.length gs)).head?,
          Follows c d := by
  induction gs generalizing a codeBefore with
  | nil => simp [placed, candidatesFrom]
  | cons g gs ih =>
    obtain ⟨hg, hgs⟩ := hgs
    rw [grainText_cons, placed, candidatesFrom_cons]
    have hassoc : a ++ (g.2 ++ grainText gs) = (a ++ g.2) ++ grainText gs := by simp
    by_cases hdoc : isDocComment (a ++ (g.2 ++ grainText gs)) ⟨g.1, a.length, g.2⟩
    · obtain ⟨hchain, hlines, hfirst⟩ := ih hgs (a ++ g.2) false
      rw [← hassoc, length_append] at hchain hlines hfirst
      obtain ⟨region, w⟩ := g
      obtain rfl : region = .blockComment := by
        simp only [isDocComment, Bool.and_eq_true, decide_eq_true_eq] at hdoc
        exact hdoc.1.1
      rw [if_pos hdoc]
      refine ⟨isChain_cons.mpr ⟨fun d hd => ?_, hchain⟩, ?_, ?_⟩
      · -- There is a further candidate, so that the comment is closed.
        have hne : grainText gs ≠ [] := by
          intro hnil
          cases gs with
          | nil => simp [placed, candidatesFrom] at hd
          | cons g' gs =>
            rw [grainText_cons, append_eq_nil_iff] at hnil
            exact hgs.1.ne_nil hnil.1
        obtain ⟨v, rfl, -⟩ := stands_block_closed (t := grainText gs) (by simpa using hg) hne
        refine hfirst _ ⟨a ++ '/' :: '*' :: (v ++ ['*']), [], by simp, ?_, by simp⟩ d hd
        grind [candidateAt]
      · intro c hc
        rcases mem_cons.mp hc with rfl | hc
        · exact lines_candidateAt hg.ne_nil codeBefore
        · exact hlines c hc
      · rintro c hc d ⟨⟩
        exact hc.follows hdoc
    · obtain ⟨hchain, hlines, hfirst⟩ := ih hgs (a ++ g.2) (codeBefore || isInk g)
      rw [← hassoc, length_append] at hchain hlines hfirst
      rw [if_neg hdoc]
      refine ⟨hchain, hlines, fun c hc => ?_⟩
      exact hfirst c (hc.append exists_isBlank_of_isInk)

/-- The candidates of a text take up lines of it and follow each other. -/
theorem isChain_candidates (text : Text) :
    (candidates text).IsChain Follows ∧ ∀ c ∈ candidates text, Lines text c := by
  obtain ⟨hchain, hlines, -⟩ := isChain_candidatesFrom (standing_grains text) [] false
  grind [grainText_grains, candidates_eq]

end DocGraft.Scanner
