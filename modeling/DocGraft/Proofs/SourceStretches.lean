import DocGraft.Proofs.MaskedScans
import DocGraft.Proofs.ScannerRuns
import DocGraft.Proofs.Transparency

/-!
# Sources by stretches

A stretch of a source is made of whole lines, and the last of them ends with a separator. What the
scans of a source find in a stretch does not depend on the stretches before it, and a placeholder
goes before a stretch or nowhere. So the keywords, the placeholders and the candidates of a source
are those of its stretches, one after the other.
-/

namespace DocGraft.Source

open List Text Scanner

variable {gs : List Grain} {places : List (Nat × Placeholder)}

/-! ### Placeholders in order -/

theorem setPlaceholder_of_lt {place : Nat × Placeholder} (h : ∀ p ∈ places, p.1 < place.1) :
    setPlaceholder place places = places ++ [place] := by
  induction places with
  | nil => rfl
  | cons p places ih =>
    obtain ⟨hp, hplaces⟩ := forall_mem_cons.mp h
    grind [setPlaceholder]

/-- Placeholders that are found in order are kept as they are. -/
theorem foldl_setPlaceholder {found : List (Nat × Placeholder)}
    (h : (places ++ found).Pairwise (·.1 < ·.1)) :
    found.foldl (fun places place => setPlaceholder place places) places = places ++ found := by
  induction found generalizing places with
  | nil => simp
  | cons place found ih =>
    have hlt : ∀ p ∈ places, p.1 < place.1 := fun p hp =>
      (pairwise_append.mp h).2.2 p hp place mem_cons_self
    grind [setPlaceholder_of_lt hlt]

/-- What stands before the first placeholder is kept. -/
theorem insertFrom_append {pos : Nat} {w : Text} (h : ∀ p ∈ places, pos + w.length ≤ p.1)
    (s : Text) :
    insertFrom pos places (w ++ s) = w ++ insertFrom (pos + w.length) places s := by
  cases places with
  | nil => rfl
  | cons place places =>
    obtain ⟨p, placeholder⟩ := place
    have hle := h (p, placeholder) mem_cons_self
    simp only at hle
    obtain ⟨k, rfl⟩ := Nat.exists_eq_add_of_le hle
    have hk : pos + w.length + k - pos = w.length + k := by omega
    simp [insertFrom, hk, take_length_add_append]

/-! ### Breaks -/

/-- Grains end with a line that ends with a separator. -/
def EndsBroken (gs : List Grain) : Prop :=
  ∃ as c, gs = as ++ [(.code, [c]), (.code, ['\n'])] ∧ (c = ';' ∨ c = '{' ∨ c = '}')

/-- Grains end with a line that ends with a separator, or there are none. -/
def AtBreak (gs : List Grain) : Prop :=
  gs = [] ∨ EndsBroken gs

theorem EndsBroken.append_left (h : EndsBroken gs) (pre : List Grain) : EndsBroken (pre ++ gs) := by
  obtain ⟨as, c, rfl, hc⟩ := h
  exact ⟨pre ++ as, c, (append_assoc ..).symm, hc⟩

theorem atLineStart_of_atBreak (h : AtBreak gs) : AtLineStart (grainText gs) := by
  rcases h with rfl | ⟨as, c, rfl, -⟩
  · exact atLineStart_nil
  · have htext : grainText (as ++ [(.code, [c]), (.code, ['\n'])]) =
        (grainText as ++ [c]) ++ ['\n'] := by
      simp
    rw [htext]
    exact atLineStart_concat.mpr rfl

theorem mem_codeOffsets_of_atBreak {text : Text} {pre post : List Grain} (hpre : AtBreak pre)
    (hgrains : grains text = pre ++ post) (hne : (grainText pre).length ≠ 0) :
    (grainText pre).length - 1 ∈ codeOffsets text := by
  rcases hpre with rfl | ⟨as, c, rfl, -⟩
  · exact absurd rfl hne
  · refine mem_codeOffsets.mpr ⟨as ++ [(.code, [c])], '\n', post, by simp [hgrains], ?_⟩
    simp

/-! ### Stretches -/

/-- Grains behind a placeholder, if they need one. -/
def markedGrains (needsMark : Bool) (gs : List Grain) : List Grain :=
  (if needsMark then Placeholder.line.grains else []) ++ gs

/-- Whole lines of a source, and what the scans of a source find in them wherever they stand behind
a break. -/
structure Stretch where
  /-- The grains of the lines. -/
  grains : List Grain
  /-- Whether a placeholder goes before them. -/
  needsMark : Bool
  /-- The offsets of the keywords that declare a type, if the lines begin at `pos`. -/
  keywords : (pos : Nat) → List Nat
  /-- The candidates in the lines with their placeholder, if they begin at `pos`. -/
  candidates : (pos : Nat) → (codeBefore : Bool) → List Candidate
  standing : ∀ t, Standing grains t
  broken : EndsBroken grains
  plain : ∀ g ∈ grains, Plain g
  typeKeywordsFrom_eq : ∀ pos before t, (∀ c ∈ before, isBlank c) →
    typeKeywordsFrom pos 0 before (maskText grains ++ t) =
      keywords pos ++ typeKeywordsFrom (pos + (grainText grains).length) 0 (some '\n') t
  placeholderFor?_eq : ∀ text pre post, AtBreak pre → Source.grains text = pre ++ (grains ++ post) →
    (keywords (grainText pre).length).filterMap
        (placeholderFor? text (mask text) ((segments text).flatMap (marksOf text))) =
      if needsMark then [((grainText pre).length, .line)] else []
  candidatesFrom_eq : ∀ a b codeBefore rest, AtLineStart a →
    candidatesFrom (a ++ (grainText (markedGrains needsMark grains) ++ b)) codeBefore
        (placed a.length (markedGrains needsMark grains) ++ rest) =
      candidates a.length codeBefore ++
        candidatesFrom (a ++ (grainText (markedGrains needsMark grains) ++ b)) true rest

namespace Stretch

def marked (s : Stretch) : List Grain :=
  markedGrains s.needsMark s.grains

theorem standing_marked (s : Stretch) (t : Text) : Standing s.marked t := by
  refine standing_append.mpr ⟨?_, s.standing t⟩
  split_ifs
  · exact standing_placeholder .line _
  · trivial

theorem endsBroken_marked (s : Stretch) : EndsBroken s.marked :=
  s.broken.append_left _

theorem length_pos (s : Stretch) : 0 < (grainText s.grains).length := by
  obtain ⟨as, c, hgrains, -⟩ := s.broken
  simp [hgrains]

end Stretch

/-- The offsets of the keywords in stretches that begin at `pos`. -/
def keywordOffsets : (pos : Nat) → List Stretch → List Nat
  | _, [] => []
  | pos, s :: rest => s.keywords pos ++ keywordOffsets (pos + (grainText s.grains).length) rest

/-- The places before the stretches that need a placeholder, of stretches that begin at `pos`. -/
def markPlaces : (pos : Nat) → List Stretch → List (Nat × Placeholder)
  | _, [] => []
  | pos, s :: rest =>
    (if s.needsMark then [(pos, .line)] else []) ++
      markPlaces (pos + (grainText s.grains).length) rest

/-- The candidates in stretches that begin, with their placeholders, at `pos`. -/
def stretchCandidates : (pos : Nat) → (codeBefore : Bool) → List Stretch → List Candidate
  | _, _, [] => []
  | pos, codeBefore, s :: rest =>
    s.candidates pos codeBefore ++ stretchCandidates (pos + (grainText s.marked).length) true rest

section Stretches

variable (stretches : List Stretch) {post : List Grain} {text : Text}

theorem standing_stretches (t : Text) : Standing (stretches.flatMap Stretch.grains) t := by
  induction stretches with
  | nil => trivial
  | cons s rest ih => exact standing_append.mpr ⟨s.standing _, ih⟩

theorem standing_marked_stretches (t : Text) : Standing (stretches.flatMap Stretch.marked) t := by
  induction stretches with
  | nil => trivial
  | cons s rest ih => exact standing_append.mpr ⟨s.standing_marked _, ih⟩

/-- The keywords in the masked text of stretches. -/
theorem exists_typeKeywordsFrom_stretches (pos : Nat) (before : Option Char)
    (hbefore : ∀ c ∈ before, isBlank c) (t : Text) :
    ∃ b, typeKeywordsFrom pos 0 before (maskText (stretches.flatMap Stretch.grains) ++ t) =
      keywordOffsets pos stretches ++ typeKeywordsFrom
        (pos + (grainText (stretches.flatMap Stretch.grains)).length) 0 b t := by
  induction stretches generalizing pos before with
  | nil => exact ⟨before, rfl⟩
  | cons s rest ih =>
    obtain ⟨b, hb⟩ := ih (pos + (grainText s.grains).length) (some '\n') (by rintro c ⟨⟩; decide)
    refine ⟨b, ?_⟩
    simp [s.typeKeywordsFrom_eq pos before _ hbefore, hb, keywordOffsets, Nat.add_assoc]

theorem filterMap_keywordOffsets (pre : List Grain) (hpre : AtBreak pre)
    (hgrains : grains text = pre ++ (stretches.flatMap Stretch.grains ++ post)) :
    (keywordOffsets (grainText pre).length stretches).filterMap
        (placeholderFor? text (mask text) ((segments text).flatMap (marksOf text))) =
      markPlaces (grainText pre).length stretches := by
  induction stretches generalizing pre with
  | nil => rfl
  | cons s rest ih =>
    rw [flatMap_cons, append_assoc] at hgrains
    have hlater := ih _ (.inr (s.broken.append_left pre)) (hgrains.trans (by simp))
    rw [grainText_append, length_append] at hlater
    rw [keywordOffsets, markPlaces, filterMap_append, hlater,
      s.placeholderFor?_eq text pre _ hpre hgrains]

theorem le_of_mem_markPlaces {pos : Nat} {place : Nat × Placeholder}
    (h : place ∈ markPlaces pos stretches) : pos ≤ place.1 := by
  induction stretches generalizing pos with
  | nil => simp [markPlaces] at h
  | cons s rest ih =>
    rcases mem_append.mp h with h | h
    · grind
    · exact (Nat.le_add_right _ _).trans (ih h)

theorem sorted_markPlaces (pos : Nat) : (markPlaces pos stretches).Pairwise (·.1 < ·.1) := by
  induction stretches generalizing pos with
  | nil => exact .nil
  | cons s rest ih =>
    refine pairwise_append.mpr ⟨?_, ih _, ?_⟩
    · grind
    · intro p hp q hq
      have hle := le_of_mem_markPlaces rest hq
      have hpos := s.length_pos
      grind

theorem insertFrom_markPlaces (pos : Nat) (t : Text) :
    insertFrom pos (markPlaces pos stretches)
        (grainText (stretches.flatMap Stretch.grains) ++ t) =
      grainText (stretches.flatMap Stretch.marked) ++ t := by
  induction stretches generalizing pos with
  | nil => rfl
  | cons s rest ih =>
    have hrest : insertFrom pos (markPlaces (pos + (grainText s.grains).length) rest)
        (grainText s.grains ++ (grainText (rest.flatMap Stretch.grains) ++ t)) =
          grainText s.grains ++ (grainText (rest.flatMap Stretch.marked) ++ t) := by
      rw [insertFrom_append fun p hp => le_of_mem_markPlaces rest hp, ih]
    rw [markPlaces, flatMap_cons, flatMap_cons, grainText_append, grainText_append,
      Stretch.marked, markedGrains, grainText_append]
    simp only [append_assoc]
    split_ifs
    · simp [insertFrom, hrest, grainText_placeholder]
    · exact hrest

theorem unbroken_markPlaces (pre : List Grain) (hpre : AtBreak pre)
    (hgrains : grains text = pre ++ (stretches.flatMap Stretch.grains ++ post)) :
    ∀ place ∈ markPlaces (grainText pre).length stretches, Unbroken text place := by
  induction stretches generalizing pre with
  | nil => simp [markPlaces]
  | cons s rest ih =>
    rw [flatMap_cons, append_assoc] at hgrains
    have hlater := ih _ (.inr (s.broken.append_left pre)) (hgrains.trans (by simp))
    rw [grainText_append, length_append] at hlater
    intro place hplace
    rcases mem_append.mp hplace with hplace | hplace
    · split_ifs at hplace
      · rw [mem_singleton.mp hplace]
        exact fun _ hne => mem_codeOffsets_of_atBreak hpre hgrains hne
      · simp at hplace
    · exact hlater place hplace

theorem candidatesFrom_stretches (pre : List Grain) (hpre : AtBreak pre) (b : Text)
    (codeBefore : Bool) (rest : List Segment) (hne : stretches ≠ [] ∨ codeBefore = true) :
    candidatesFrom (grainText pre ++ (grainText (stretches.flatMap Stretch.marked) ++ b)) codeBefore
        (placed (grainText pre).length (stretches.flatMap Stretch.marked) ++ rest) =
      stretchCandidates (grainText pre).length codeBefore stretches ++
        candidatesFrom (grainText pre ++
          (grainText (stretches.flatMap Stretch.marked) ++ b)) true rest := by
  induction stretches generalizing pre codeBefore with
  | nil =>
    obtain rfl := hne.resolve_left (by simp)
    rfl
  | cons s later ih =>
    have hs := s.candidatesFrom_eq (grainText pre)
      (grainText (later.flatMap Stretch.marked) ++ b) codeBefore
      (placed ((grainText pre).length + (grainText s.marked).length)
        (later.flatMap Stretch.marked) ++ rest) (atLineStart_of_atBreak hpre)
    have hlater := ih _ (.inr (s.endsBroken_marked.append_left pre)) true (.inr rfl)
    rw [grainText_append, append_assoc, length_append] at hlater
    change candidatesFrom (_ ++ (grainText s.marked ++ _)) _ (placed _ s.marked ++ _) =
      _ ++ candidatesFrom (_ ++ (grainText s.marked ++ _)) _ _ at hs
    simp [placed_append, hs, hlater, stretchCandidates]

end Stretches

/-! ### Whole sources -/

section Sources

variable {text : Text} {stretches : List Stretch} {last : List Grain}

/-- The placeholders of a source of stretches, if no type is declared in what follows them. -/
theorem placeholders_stretches
    (hgrains : grains text = stretches.flatMap Stretch.grains ++ last)
    (hlast : ∀ pos before, typeKeywordsFrom pos 0 before (maskText last) = []) :
    placeholders text = markPlaces 0 stretches := by
  have hmask : mask text = maskText (stretches.flatMap Stretch.grains) ++ maskText last := by
    rw [mask_eq, hgrains, ← maskText_append]
    rfl
  obtain ⟨b, hb⟩ := exists_typeKeywordsFrom_stretches stretches 0 none (by simp) (maskText last)
  rw [hlast, append_nil, ← hmask] at hb
  have hfound := filterMap_keywordOffsets stretches [] (.inl rfl) hgrains
  rw [grainText_nil, length_nil] at hfound
  rw [placeholders]
  simp only [typeKeywords, hb, hfound]
  exact foldl_setPlaceholder (sorted_markPlaces stretches 0)

/-- A source of stretches with its placeholders. -/
theorem insertPlaceholders_stretches
    (hgrains : grains text = stretches.flatMap Stretch.grains ++ last)
    (hlast : ∀ pos before, typeKeywordsFrom pos 0 before (maskText last) = []) :
    insertPlaceholders text = grainText (stretches.flatMap Stretch.marked ++ last) := by
  have htext := eq_of_grains_eq hgrains
  rw [insertPlaceholders, placeholders_stretches hgrains hlast]
  conv_lhs => rw [htext]
  rw [insertFrom_markPlaces, grainText_append]

/-- A scanner that replaces nothing gives a source of stretches back. -/
theorem finish_stretches (hgrains : grains text = stretches.flatMap Stretch.grains ++ last)
    (hlast : ∀ pos before, typeKeywordsFrom pos 0 before (maskText last) = [])
    (hplain : ∀ g ∈ last, Plain g) (className : Text) (kind : TypeKind) (n : Nat) :
    (advance^[n] (start text className kind)).finish.1 = text := by
  refine finish_eq_source ?_ ?_ className kind n
  · intro g hg
    rw [hgrains, mem_append, mem_flatMap] at hg
    rcases hg with ⟨s, -, hg⟩ | hg
    · exact s.plain g hg
    · exact hplain g hg
  · rw [placeholders_stretches hgrains hlast]
    exact unbroken_markPlaces stretches [] (.inl rfl) hgrains

end Sources

end DocGraft.Source
