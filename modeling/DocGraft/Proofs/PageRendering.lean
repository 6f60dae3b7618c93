import DocGraft.Docs.Page
import DocGraft.Proofs.CodeText

/-!
# Signatures on pages

A page writes the signature of a method as markup: its tokens, some of them between tags, white
space that may be a reference to a no-break space, and references for angle brackets and ampersands.
In the plain text of such markup tags have become spaces, references are resolved and zero-width
spaces are gone, so it is a spelling of the same tokens. A clause `throws` behind it is cut off,
since the tokens of a declaration do not hold that word. So the page and the source of a method give
one key.

The main results are `Docs.readPlainText_runs`, `Docs.exists_declarationText` and
`Docs.page_key_eq_source_key`.
-/

namespace DocGraft.Docs

open List Text Markup Signature Declaration
open Source

variable {avoided : List Text} {c d : Char} {marks : List Char} {page : List PagePiece}
  {ps : List Piece} {s t : Text}

/-! ### Plain text of markup -/

/-- The characters that a page writes by name. -/
def namedReferences : List (Char × Text) :=
  [('<', "lt".toList), ('>', "gt".toList), ('&', "amp".toList), ('\u00a0', "nbsp".toList)]

/-- A character as a page writes it. -/
def reference (c : Char) : Text :=
  match namedReferences.lookup c with
  | some name => '&' :: (name ++ [';'])
  | none => [c]

/-- A tag, or a text written with references. -/
inductive Run where
  | tag (body : Text) (closed : '>' ∉ body)
  | text (s : Text)

namespace Run

def markup : Run → Text
  | tag body _ => '<' :: (body ++ ['>'])
  | text s => s.flatMap reference

/-- The text for which a run stands: a tag stands for a space. -/
def content : Run → Text
  | tag _ _ => [' ']
  | text s => s

/-- The plain text of a run. -/
def plain (run : Run) : Text :=
  (run.content.map fun c => if c = '\u00a0' then ' ' else c).filter (· ≠ '\u200b')

end Run

/-- A character that is written by name, or stands for itself. -/
theorem reference_cases (c : Char) :
    (∃ name, (c, name) ∈ namedReferences ∧ reference c = '&' :: (name ++ [';'])) ∨
      reference c = [c] ∧ c ≠ '<' ∧ c ≠ '>' ∧ c ≠ '&' := by
  rw [reference]
  cases h : namedReferences.lookup c with
  | some name =>
    obtain ⟨before, behind, hsplit, -⟩ := lookup_eq_some_iff.mp h
    exact .inl ⟨name, by simp [hsplit], rfl⟩
  | none =>
    refine .inr ⟨rfl, ?_, ?_, ?_⟩ <;>
    · rintro rfl
      exact absurd h (by decide)

/-- References hold no angle brackets and no number signs of their own. -/
theorem mem_reference (h : d ∈ reference c) : d ≠ '<' ∧ d ≠ '>' ∧ (d = '#' → c = '#') := by
  have hall : (namedReferences.all fun p => ('&' :: (p.2 ++ [';'])).all fun d =>
      d ≠ '<' && d ≠ '>' && d ≠ '#') = true := by
    decide
  rcases reference_cases c with ⟨name, hmem, href⟩ | ⟨href, hlt, hgt, -⟩
  · grind
  · grind

theorem referenceRule_named {name : Text} (h : (c, name) ∈ namedReferences) (before : Option Char)
    (t : Text) :
    referenceRule before ('&' :: (name ++ [';']) ++ t) =
      some ([c], ('&' :: (name ++ [';'])).length) := by
  have hall : (namedReferences.all fun p => p.2 ≠ [] && p.2.all isNameChar && p.2.length ≤ 32 &&
      nameMeaning p.2 true == [p.1]) = true := by
    decide +kernel
  have hone := all_eq_true.mp hall _ h
  simp only [Bool.and_eq_true, decide_eq_true_eq, beq_iff_eq] at hone
  obtain ⟨⟨⟨hne, hname⟩, hlong⟩, hmeaning⟩ := hone
  have hhash : name.head? ≠ some '#' := by
    intro hhead
    obtain ⟨rest, rfl⟩ := head?_eq_some_iff.mp hhead
    exact absurd (all_eq_true.mp hname '#' mem_cons_self) (by decide)
  have htake : ((name ++ ';' :: t).takeWhile isNameChar).take 32 = name := by
    rw [takeWhile_append_of_pos fun d hd => all_eq_true.mp hname d hd,
      takeWhile_cons_of_neg (by decide), append_nil, take_of_length_le hlong]
  have hreference : reference? (name ++ ';' :: t) = some ([c], name.length + 1) := by
    obtain ⟨d, rest, rfl⟩ := exists_cons_of_ne_nil hne
    have hd : d ≠ '#' := by simpa using hhash
    rw [cons_append] at htake ⊢
    rw [reference?, htake]
    · simp [hmeaning]
    · grind
  simp [referenceRule, hreference]

/-- Text that is written with references is resolved again. -/
theorem unescape_references (s : Text) : unescape (s.flatMap reference) = s := by
  have hmain : ∀ before, substituteFrom referenceRule 0 before (s.flatMap reference) = s := by
    induction s with
    | nil => exact fun _ => rfl
    | cons c s ih =>
      intro before
      rw [flatMap_cons]
      rcases reference_cases c with ⟨name, hmem, href⟩ | ⟨href, -, -, hamp⟩
      · obtain ⟨b, hb⟩ := exists_substituteFrom_of_some (s := s.flatMap reference)
          (cons_ne_nil _ _) (referenceRule_named hmem before _)
        rw [href, hb, ih b]
        rfl
      · have hnone : referenceRule before (c :: s.flatMap reference) = none := by
          rw [referenceRule]
          intro rest heq
          exact hamp (List.cons.inj heq).1
        rw [href, singleton_append, substituteFrom_cons_of_none hnone, ih]
  exact hmain none

theorem overlong?_of_notMem (h : '#' ∉ s) : overlong? s = none := by
  induction s with
  | nil => rfl
  | cons c s ih =>
    rw [mem_cons, not_or] at h
    have hnone : after? ['&', '#'] (c :: s) = none := by
      cases hafter : after? ['&', '#'] (c :: s) with
      | none => rfl
      | some rest =>
        have htext := after?_eq_some_iff.mp hafter
        grind
    rw [overlong?, hnone, ih h.2]

theorem tagRule_of_ne (hc : c ≠ '<') (write : Text → Text) (before : Option Char) (s : Text) :
    tagRule write before (c :: s) = none := by
  rw [tagRule]
  intro rest heq
  exact hc (List.cons.inj heq).1

theorem tagRule_tag {body : Text} (hbody : '>' ∉ body) (out : Text) (before : Option Char)
    (s : Text) :
    tagRule (fun _ => out) before ('<' :: (body ++ ['>']) ++ s) =
      some (out, ('<' :: (body ++ ['>'])).length) := by
  have hrun : run (· ≠ '>') (body ++ '>' :: s) = body.length := by
    rw [run, takeWhile_ne_append_cons hbody]
  have hlong : body.length < (body ++ '>' :: s).length := by simp
  rw [cons_append, append_assoc, singleton_append, tagRule, hrun]
  exact (if_pos hlong).trans (by simp)

/-- In the place of tags there are spaces. -/
theorem substitute_tagRule_runs (runs : List Run) :
    substitute (tagRule fun _ => [' ']) (runs.flatMap Run.markup) =
      (runs.flatMap Run.content).flatMap reference := by
  have hmain : ∀ before, substituteFrom (tagRule fun _ => [' ']) 0 before
      (runs.flatMap Run.markup) = (runs.flatMap Run.content).flatMap reference := by
    induction runs with
    | nil => exact fun _ => rfl
    | cons r runs ih =>
      intro before
      rw [flatMap_cons, flatMap_cons, flatMap_append]
      cases r with
      | tag body closed =>
        obtain ⟨b, hb⟩ := exists_substituteFrom_of_some (s := runs.flatMap Run.markup)
          (cons_ne_nil _ _) (tagRule_tag closed [' '] before _)
        rw [Run.markup, hb, ih b]
        rfl
      | text s =>
        have hplain : ∀ c ∈ s.flatMap reference, ∀ before t,
            tagRule (fun _ => [' ']) before (c :: t) = none := by
          intro c hc
          obtain ⟨d, -, hd⟩ := mem_flatMap.mp hc
          exact tagRule_of_ne (mem_reference hd).1 _
        obtain ⟨b, hb⟩ := exists_substituteFrom_append hplain before (runs.flatMap Run.markup)
        rw [Run.markup, hb, ih b]
        rfl
  exact hmain none

/-- The plain text of markup without references by number is that of its runs. -/
theorem readPlainText_runs {runs : List Run} (h : '#' ∉ runs.flatMap Run.content) :
    readPlainText (runs.flatMap Run.markup) [' '] = .ok (runs.flatMap Run.plain) := by
  have hnumber : '#' ∉ (runs.flatMap Run.content).flatMap reference := by
    intro hmem
    obtain ⟨c, hc, hd⟩ := mem_flatMap.mp hmem
    exact h ((mem_reference hd).2.2 rfl ▸ hc)
  rw [readPlainText, substitute_tagRule_runs, readPlainOf, overlong?_of_notMem hnumber, plainOf,
    unescape_references, map_flatMap, filter_flatMap]
  rfl

/-! ### Signatures without the clause `throws` -/

theorem throwsClauseRule_eq_none
    (h : isBlank c → ∀ d t, s = "throws".toList ++ d :: t → isBlank d = false)
    (before : Option Char) : throwsClauseRule before (c :: s) = none := by
  rw [throwsClauseRule]
  split
  next d t hafter =>
    refine if_neg fun hblank => ?_
    rw [Bool.and_eq_true] at hblank
    have hd := h hblank.1 d t (after?_eq_some_iff.mp hafter)
    exact absurd hblank.2 (by simp [hd])
  · rfl

/-- Code without the word `throws` does not begin a clause. -/
theorem isBlank_of_codeText (h : CodeText marks avoided s) (hmarks : ∀ c ∈ marks, isWord c = false)
    (hthrows : "throws".toList ∈ avoided) (ht : ∀ c ∈ t.head?, isWord c = false) {r : Text}
    (heq : s ++ t = "throws".toList ++ d :: r) : isBlank d = false := by
  by_contra hblank
  have hd : isWord d = false := isWord_of_isBlank (by simpa using hblank)
  cases h with
  | nil =>
    rw [nil_append] at heq
    exact absurd (ht 't' (by rw [heq]; rfl)) (by decide)
  | @word w s hw havoid hend hs =>
    have hnext : ∀ c ∈ (s ++ t).head?, isWord c = false := by
      cases s with
      | nil => exact ht
      | cons c s => exact hend
    rw [append_assoc] at heq
    have hself : ∀ c ∈ "throws".toList, isWord c := isWord_of_mem_reserved (by decide)
    obtain ⟨rfl, -⟩ := eq_of_after?_word hself hw.all hnext (ends_word hd r)
      (after?_eq_some_iff.mpr heq)
    exact havoid hthrows
  | @mark c s hc hs =>
    obtain rfl : c = 't' := (List.cons.inj heq).1
    exact absurd (hmarks _ hc) (by decide)

/-- A clause is not found in code without the word `throws`. -/
theorem exists_substituteFirstFrom?_codeText (h : CodeText marks avoided s)
    (hmarks : ∀ c ∈ marks, isWord c = false) (hthrows : "throws".toList ∈ avoided)
    (ht : ∀ c ∈ t.head?, isWord c = false) (before : Option Char) :
    ∃ b, substituteFirstFrom? throwsClauseRule before (s ++ t) =
      (substituteFirstFrom? throwsClauseRule b t).map (s ++ ·) := by
  induction h generalizing before with
  | nil => exact ⟨before, by simp⟩
  | @word w s hw havoid hend hs ih =>
    have hnone : ∀ c ∈ w, ∀ before t, throwsClauseRule before (c :: t) = none := by
      intro c hc b t
      refine throwsClauseRule_eq_none (fun hblank => ?_) b
      exact absurd (hw.all c hc) (by simp [isWord_of_isBlank hblank])
    obtain ⟨b, hb⟩ := exists_substituteFirstFrom?_append hnone before (s ++ t)
    obtain ⟨b', hb'⟩ := ih b
    refine ⟨b', ?_⟩
    simp [hb, hb', Function.comp_def]
  | @mark c s hc hs ih =>
    have hnone : throwsClauseRule before (c :: (s ++ t)) = none :=
      throwsClauseRule_eq_none
        (fun _ d r heq => isBlank_of_codeText hs hmarks hthrows ht heq) before
    obtain ⟨b, hb⟩ := ih (some c)
    refine ⟨b, ?_⟩
    rw [cons_append, substituteFirstFrom?, hnone, hb, Option.map_map]
    rfl

/-- A clause is found behind white space. -/
theorem substituteFirstFrom?_clause {m : Text} (hm : ∀ c ∈ m, isBlank c) (hc : isBlank c)
    (hd : isBlank d) (t : Text) (before : Option Char) :
    substituteFirstFrom? throwsClauseRule before (m ++ c :: ("throws".toList ++ d :: t)) =
      some m := by
  induction m generalizing before with
  | nil =>
    have hafter : after? "throws".toList ("throws".toList ++ d :: t) = some (d :: t) :=
      after?_append _ _
    rw [nil_append, substituteFirstFrom?, throwsClauseRule, hafter]
    simp [hc, hd]
  | cons e m ih =>
    obtain ⟨he, hm⟩ := forall_mem_cons.mp hm
    have hhead : ∀ b ∈ (m ++ c :: ("throws".toList ++ d :: t)).head?, b ≠ 't' := by
      intro b hb heq
      have hblank : isBlank b := by
        cases m with
        | nil =>
          obtain rfl : c = b := by simpa using hb
          exact hc
        | cons e' m =>
          obtain rfl : e' = b := by simpa using hb
          exact hm e' mem_cons_self
      exact absurd (heq ▸ hblank) (by decide)
    have hnone : throwsClauseRule before (e :: (m ++ c :: ("throws".toList ++ d :: t))) = none := by
      refine throwsClauseRule_eq_none (fun _ d' r heq => ?_) before
      grind
    rw [cons_append, substituteFirstFrom?, hnone, ih hm]
    rfl

/-! ### Pieces of markup -/

/-- A piece of the markup of a signature. -/
inductive PagePiece where
  | blank (c : Char) (mem : c ∈ [' ', '\n'])
  | noBreak
  | zeroWidth
  | tag (body : Text) (closed : '>' ∉ body)
  | token (t : Token)

namespace PagePiece

/-- A piece as a run of markup. -/
def run : PagePiece → Run
  | blank c _ => .text [c]
  | noBreak => .text ['\u00a0']
  | zeroWidth => .text ['\u200b']
  | tag body closed => .tag body closed
  | token t => .text t.text

def space : PagePiece :=
  .blank ' ' (by simp)

/-- The piece of a spelling that is left in the plain text. -/
def piece? : PagePiece → Option Piece
  | blank c mem => some (.gap c (by
      rcases mem_pair.mp mem with rfl | rfl <;> decide))
  | noBreak | tag _ _ => some (.gap ' ' space_mem_gapCharacters)
  | zeroWidth => none
  | token t => some (.item (.token t))

/-- Whether a piece is white space in the plain text. -/
def isSeparator : PagePiece → Bool
  | blank _ _ | noBreak | tag _ _ => true
  | zeroWidth | token _ => false

end PagePiece

def markupOf (page : List PagePiece) : Text :=
  page.flatMap fun piece => piece.run.markup

/-- A clause `throws` on a page, with white space around its keyword. -/
structure ThrowsClause where
  /-- What stands before the keyword. -/
  before : List PagePiece
  /-- What stands right behind it. -/
  behind : List PagePiece
  exceptions : List PagePiece
  before_ne : before ≠ []
  before_blank : ∀ piece ∈ before, piece.isSeparator
  behind_ne : behind ≠ []
  behind_blank : ∀ piece ∈ behind, piece.isSeparator

def ThrowsClause.runs (clause : ThrowsClause) : List Run :=
  clause.before.map PagePiece.run ++ .text "throws".toList ::
    (clause.behind.map PagePiece.run ++ clause.exceptions.map PagePiece.run)

def ThrowsClause.markup (clause : ThrowsClause) : Text :=
  clause.runs.flatMap Run.markup

theorem notMem_special (t : Token) : '#' ∉ t.text ∧ '\u00a0' ∉ t.text ∧ '\u200b' ∉ t.text := by
  have hcode := t.codeText_outside
  exact ⟨hcode.notMem (by decide +kernel) (by decide), hcode.notMem (by decide +kernel) (by decide),
    hcode.notMem (by decide +kernel) (by decide)⟩

namespace PagePiece

theorem notMem_content (piece : PagePiece) : '#' ∉ piece.run.content := by
  cases piece with
  | blank c mem => rcases mem_pair.mp mem with rfl | rfl <;> simp [run, Run.content]
  | noBreak => simp [run, Run.content]
  | zeroWidth => simp [run, Run.content]
  | tag body closed => simp [run, Run.content]
  | token t => exact (notMem_special t).1

/-- The plain text of a piece is that of the piece of a spelling. -/
theorem plain_run (piece : PagePiece) :
    piece.run.plain = (piece.piece?.map Piece.text).getD [] := by
  cases piece with
  | blank c mem => rcases mem_pair.mp mem with rfl | rfl <;> rfl
  | noBreak => rfl
  | zeroWidth => rfl
  | tag body closed => rfl
  | token t =>
    obtain ⟨-, hbreak, hzero⟩ := notMem_special t
    have hmap : (t.text.map fun c => if c = '\u00a0' then ' ' else c) = t.text := by
      conv_rhs => rw [← map_id t.text]
      refine map_congr_left fun c hc => if_neg ?_
      rintro rfl
      exact hbreak hc
    have hfilter : t.text.filter (· ≠ '\u200b') = t.text :=
      filter_eq_self.mpr fun c hc => by grind
    rw [run, Run.plain, Run.content, hmap, hfilter]
    rfl

/-- White space on a page is a character of white space in the plain text. -/
theorem exists_plain_of_isSeparator {piece : PagePiece} (h : piece.isSeparator) :
    ∃ c, ∃ mem : c ∈ gapCharacters, piece.piece? = some (.gap c mem) ∧ piece.run.plain = [c] := by
  cases piece with
  | blank c mem => exact ⟨c, _, rfl, plain_run _⟩
  | noBreak => exact ⟨' ', _, rfl, rfl⟩
  | zeroWidth => cases h
  | tag body closed => exact ⟨' ', _, rfl, rfl⟩
  | token t => cases h

end PagePiece

/-- The pieces of a spelling that are left in the plain text. -/
def piecesOf (page : List PagePiece) : List Piece :=
  page.filterMap PagePiece.piece?

theorem spelling_append (ps qs : List Piece) : spelling (ps ++ qs) = spelling ps ++ spelling qs :=
  flatMap_append

theorem plain_pieces (page : List PagePiece) :
    (page.map PagePiece.run).flatMap Run.plain = spelling (piecesOf page) := by
  induction page with
  | nil => rfl
  | cons piece page ih =>
    rw [map_cons, flatMap_cons, ih, piece.plain_run]
    simp only [piecesOf, filterMap_cons]
    cases piece.piece? with
    | none => rfl
    | some p => rfl

/-- The pieces of a page hold no annotations, so they are code without the word `throws`. -/
theorem codeText_pieces (h : (piecesOf page).IsChain fun p q => p.apart q) :
    CodeText ('@' :: headerMarks) outsideWords (spelling (piecesOf page)) := by
  refine codeText_spelling h (fun c hc => .tail _ (mem_append_left _ hc)) fun i hi => ?_
  obtain ⟨piece, -, hpiece⟩ := mem_filterMap.mp hi
  cases piece with
  | token t =>
    obtain rfl : .token t = i := by simpa [PagePiece.piece?] using hpiece
    exact t.codeText_outside
  | _ => simp [PagePiece.piece?] at hpiece

theorem substituteFirst_codeText (h : CodeText ('@' :: headerMarks) outsideWords s)
    (ht : ∀ c ∈ t.head?, isWord c = false) :
    ∃ b, substituteFirst? throwsClauseRule (s ++ t) =
      (substituteFirstFrom? throwsClauseRule b t).map (s ++ ·) := by
  have hmarks : (('@' :: headerMarks).all fun c => !isWord c) = true := by decide
  exact exists_substituteFirstFrom?_codeText h
    (fun c hc => by simpa using all_eq_true.mp hmarks c hc) (by decide) ht none

/-- Pieces are white space. -/
def Gaps (ps : List Piece) : Prop :=
  ∀ p ∈ ps, ∃ c, ∃ mem : c ∈ gapCharacters, p = .gap c mem

theorem Gaps.isBlank (h : Gaps ps) : ∀ c ∈ spelling ps, isBlank c := by
  intro c hc
  obtain ⟨p, hp, hc⟩ := mem_flatMap.mp hc
  obtain ⟨d, mem, rfl⟩ := h p hp
  rw [Piece.text, mem_singleton] at hc
  exact hc ▸ isBlank_of_mem_gap mem

/-- White space behind a spelling changes neither its items nor what clings together. -/
theorem Gaps.spells_append {pieces : List Piece} (h : Gaps ps) {items : List Item}
    (hspells : Spells pieces items) (hunclung : Unclung pieces) :
    Spells (pieces ++ ps) items ∧ Unclung (pieces ++ ps) := by
  have hitems : ps.filterMap Piece.item? = [] := by
    refine filterMap_eq_nil_iff.mpr fun p hp => ?_
    obtain ⟨c, mem, rfl⟩ := h p hp
    rfl
  have hchain : ∀ {R : Piece → Piece → Prop}, (∀ p c mem, R p (.gap c mem)) →
      pieces.IsChain R → (pieces ++ ps).IsChain R := by
    intro R hR hpieces
    refine isChain_append.mpr ⟨hpieces, ?_, ?_⟩
    · refine (isChain_iff_getElem).mpr fun i hi => ?_
      obtain ⟨c, mem, hp⟩ := h _ (getElem_mem (by omega : i + 1 < ps.length))
      rw [hp]
      exact hR _ c mem
    · intro p hp q hq
      obtain ⟨c, mem, rfl⟩ := h q (mem_of_mem_head? hq)
      exact hR p c mem
  refine ⟨⟨by simp [hitems, hspells.items_eq], ?_⟩, ?_⟩
  · exact hchain (fun p c mem => by cases p <;> rfl) hspells.apart
  · exact hchain (fun p c mem => by rcases p with _ | ⟨_ | _⟩ <;> rfl) hunclung

theorem gaps_of_isSeparator (h : ∀ piece ∈ page, piece.isSeparator) : Gaps (piecesOf page) := by
  intro p hp
  obtain ⟨piece, hmem, hpiece⟩ := mem_filterMap.mp hp
  obtain ⟨c, mem, hgap, -⟩ := PagePiece.exists_plain_of_isSeparator (h piece hmem)
  grind

/-- The plain text of a clause is white space, the keyword between two characters of white space,
and the exceptions. -/
theorem ThrowsClause.exists_plain (clause : ThrowsClause) :
    ∃ (gaps : List Piece) (c d : Char) (t : Text), Gaps gaps ∧ isBlank c ∧ isBlank d ∧
      clause.runs.flatMap Run.plain = spelling gaps ++ c :: ("throws".toList ++ d :: t) := by
  obtain ⟨before, last, hbefore⟩ :=
    (eq_nil_or_concat clause.before).resolve_left clause.before_ne
  obtain ⟨first, behind, hbehind⟩ := exists_cons_of_ne_nil clause.behind_ne
  rw [concat_eq_append] at hbefore
  obtain ⟨c, hc, -, hlast⟩ := PagePiece.exists_plain_of_isSeparator
    (clause.before_blank last (by simp [hbefore]))
  obtain ⟨d, hd, -, hfirst⟩ := PagePiece.exists_plain_of_isSeparator
    (clause.behind_blank first (by simp [hbehind]))
  have hgaps : Gaps (piecesOf before) := gaps_of_isSeparator fun piece hmem =>
    clause.before_blank piece (by simp [hbefore, hmem])
  refine ⟨piecesOf before, c, d, spelling (piecesOf behind) ++
    spelling (piecesOf clause.exceptions),
    hgaps, isBlank_of_mem_gap hc, isBlank_of_mem_gap hd, ?_⟩
  have hword : Run.plain (.text "throws".toList) = "throws".toList := by decide
  rw [ThrowsClause.runs, hbefore, hbehind]
  simp only [map_append, map_cons, map_nil, flatMap_append, flatMap_cons,
    plain_pieces, hlast, hfirst, hword, append_assoc, cons_append, nil_append]

/-- The declaration on a page, with white space behind it, is read without its clause. -/
theorem exists_declarationText (h : (piecesOf page).IsChain fun p q => p.apart q)
    (clause : Option ThrowsClause) :
    ∃ gaps : List Piece, Gaps gaps ∧
      declarationText (markupOf page ++ (clause.map ThrowsClause.markup).getD []) =
        .ok (spelling (piecesOf page ++ gaps)) := by
  have hnumber : ∀ ps : List PagePiece, '#' ∉ (ps.map PagePiece.run).flatMap Run.content := by
    intro ps hmem
    obtain ⟨r, hr, hc⟩ := mem_flatMap.mp hmem
    obtain ⟨piece, -, rfl⟩ := mem_map.mp hr
    exact piece.notMem_content hc
  have hcode := codeText_pieces h
  have hmarkup : markupOf page = (page.map PagePiece.run).flatMap Run.markup := by
    rw [markupOf, flatMap_map]
  cases clause with
  | none =>
    refine ⟨[], by simp [Gaps], ?_⟩
    obtain ⟨b, hb⟩ := substituteFirst_codeText hcode (t := []) (by simp)
    rw [append_nil] at hb
    rw [Option.map_none, Option.getD_none, append_nil, append_nil, declarationText, hmarkup,
      readPlainText_runs (hnumber page), plain_pieces, Except.map, substituteFirst, hb]
    rfl
  | some clause =>
    obtain ⟨gaps, c, d, t, hgaps, hc, hd, hplain⟩ := clause.exists_plain
    refine ⟨gaps, hgaps, ?_⟩
    have hruns : '#' ∉ (page.map PagePiece.run ++ clause.runs).flatMap Run.content := by
      have hword : '#' ∉ (Run.text "throws".toList).content := by decide
      simp only [ThrowsClause.runs, flatMap_append, flatMap_cons, mem_append, not_or]
      grind
    have htail : ∀ e ∈ (spelling gaps ++ c :: ("throws".toList ++ d :: t)).head?,
        isWord e = false := by
      intro e he
      cases hs : spelling gaps with
      | nil =>
        obtain rfl : c = e := by simpa [hs] using he
        exact isWord_of_isBlank hc
      | cons f fs =>
        obtain rfl : f = e := by simpa [hs] using he
        exact isWord_of_isBlank (hgaps.isBlank f (by simp [hs]))
    obtain ⟨b, hb⟩ := substituteFirst_codeText hcode htail
    rw [substituteFirstFrom?_clause hgaps.isBlank hc hd] at hb
    rw [Option.map_some, Option.getD_some, ThrowsClause.markup, hmarkup, ← flatMap_append,
      declarationText, readPlainText_runs hruns, flatMap_append, plain_pieces, hplain,
      Except.map, substituteFirst, hb, spelling_append]
    rfl

/-! ### Keys -/

/-- **Keys of pages and sources.** The markup of a method on the page of a class, with or without a
clause `throws`, has the key that any spelling of the method has in the source. -/
theorem page_key_eq_source_key (m : Method) (owner : QualifiedName) {source : List Piece}
    (hsource : Spells source m.items) (hunclung : Unclung source) {page : List PagePiece}
    (hpage : Spells (piecesOf page) m.unannotated.items) (hunclung' : Unclung (piecesOf page))
    (clause : Option ThrowsClause) :
    ∃ text, declarationText (markupOf page ++ (clause.map ThrowsClause.markup).getD []) = .ok text ∧
      SignatureKey.ofDeclaration owner.text text =
        SignatureKey.ofDeclaration owner.text (spelling source) ∧
      SignatureKey.ofDeclaration owner.text text =
        .ok ((Declaration.method m).key owner.name.text) := by
  obtain ⟨gaps, hgaps, htext⟩ := exists_declarationText hpage.apart clause
  obtain ⟨hspells, hclear⟩ := hgaps.spells_append hpage hunclung'
  have hkey := ofDeclaration_spelling (.method m.unannotated) owner hspells hclear
  have hkey' := ofDeclaration_spelling (.method m) owner hsource hunclung
  grind [key_unannotated]

section Samples

private def typeT : TypeUse where
  name := ⟨[], .ofText "T".toList (by decide)⟩

private def typeVoid : TypeUse where
  name := Name.typeVoid.unqualified

private def typeInt : TypeUse where
  name := Name.typeInt.unqualified

/-- The method `public <T> void m(T[] a, int... a)`. -/
private def genericMethod : Method where
  modifiers := [publicModifier]
  typeParameters := some (.cons (.name typeT.name) rfl .nil)
  returnType := some typeVoid
  name := .lowerM
  parameters := [{ type := { typeT with dimensions := 1 }, name := .lowerA },
    { type := typeInt, variadic := true, name := .lowerA }]

/-- Tokens between tags, each with a reference to a no-break space behind it, and a zero-width space
at the end. -/
private def taggedPage (tokens : List Token) : List PagePiece :=
  tokens.flatMap (fun t =>
    [.tag "b class=x".toList (by decide), .token t, .tag "/b".toList (by decide), .noBreak]) ++
    [.zeroWidth]

/-- A clause `throws` with a line break before it. -/
private def brokenClause : ThrowsClause where
  before := [.tag "br".toList (by decide), .blank '\n' (by simp)]
  behind := [.noBreak]
  exceptions := [.token (.name typeT.name)]
  before_ne := by simp
  before_blank := by simp [PagePiece.isSeparator]
  behind_ne := by simp
  behind_blank := by simp [PagePiece.isSeparator]

/-- A generic method between tags, with a clause `throws`, and its source with white space only
where it is needed. -/
theorem page_key_eq_source_key_generic :
    let source := (Header.tight (.method genericMethod) false (by decide)).pieces
    let page := taggedPage (genericMethod.items.filterMap Item.token?)
    spelling source = "public<T>void m(T[] a,int... a)".toList ∧
      "<b class=x>m</b>&nbsp;<b class=x>(</b>&nbsp;".toList <:+: markupOf page ∧
      "throws&nbsp;".toList <:+: brokenClause.markup ∧
      ∃ text, declarationText (markupOf page ++ brokenClause.markup) = .ok text ∧
        SignatureKey.ofDeclaration "A".toList text =
          SignatureKey.ofDeclaration "A".toList (spelling source) ∧
        SignatureKey.ofDeclaration "A".toList text =
          .ok ⟨"A".toList, "m".toList, "(T[],int[])".toList, false⟩ := by
  intro source page
  have hpage : Spells (piecesOf page) genericMethod.unannotated.items := ⟨rfl, by decide⟩
  have hunclung : Unclung (piecesOf page) := by
    unfold Unclung
    decide
  refine ⟨by decide +kernel, by decide +kernel, by decide +kernel, ?_⟩
  exact page_key_eq_source_key genericMethod Name.upperA.unqualified (Header.spells _)
    (Header.unclung _) hpage hunclung (some brokenClause)

/-- The method `void m(int[] a)`. -/
private def plainArrayMethod : Method where
  returnType := some typeVoid
  name := .lowerM
  parameters := [{ type := { typeInt with dimensions := 1 }, name := .lowerA }]

/-- The source `void m(int[]a)`. -/
private def clungSource : List Piece :=
  .item (.token (.name typeVoid.name)) :: .space ::
    (plainArrayMethod.items.drop 1).map .item

/-- The markup `void m(int[]<b>a</b>)`. -/
private def tokenPage : List PagePiece :=
  [.token (.name typeVoid.name), .space, .token (.name Name.lowerM.unqualified),
    .token (.mark .openParen), .token (.name typeInt.name), .token (.mark .dimension),
    .tag "b".toList (by decide), .token (.name Name.lowerA.unqualified),
      .tag "/b".toList (by decide),
    .token (.mark .closeParen)]

/-- Where the source has no white space between an array dimension and the name of a parameter, and
the page has a tag there, the keys differ. -/
theorem page_key_ne_source_key_clung :
    Spells clungSource plainArrayMethod.items ∧
      Spells (piecesOf tokenPage) plainArrayMethod.items ∧
      spelling clungSource = "void m(int[]a)".toList ∧
      markupOf tokenPage = "void m(int[]<b>a</b>)".toList ∧
      declarationText (markupOf tokenPage) = .ok "void m(int[] a )".toList ∧
      SignatureKey.ofDeclaration "A".toList "void m(int[] a )".toList =
        .ok ⟨"A".toList, "m".toList, "(int[])".toList, false⟩ ∧
      SignatureKey.ofDeclaration "A".toList (spelling clungSource) =
        .ok ⟨"A".toList, "m".toList, "(int[]a)".toList, false⟩ :=
  ⟨⟨rfl, by decide⟩, ⟨rfl, by decide⟩, rfl, by decide +kernel, by decide +kernel, by decide +kernel,
    by decide +kernel⟩

end Samples

end DocGraft.Docs
