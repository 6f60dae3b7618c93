import DocGraft.Proofs.SourcePieces

/-!
# Headers with notes

A note is a comment that documents nothing: a line comment, or a block comment that does not begin
with two stars. Notes may stand between any two tokens or annotations of a declaration. The masked
text shows their delimiters, and a scanner makes spaces of them once it has found where the
declaration ends. Up to then a note can mislead it in two ways: a block comment behind a comma is
taken for the end, and annotations behind a note are not skipped, so that their argument lists can
end the declaration. Without these the declaration is read as if there were spaces for its notes.
-/

namespace DocGraft.Source

open List Text Scanner

variable {s v w : Text}

/-! ### Masked notes -/

theorem maskGrain_line (v : Text) :
    maskGrain (.lineComment, '/' :: '/' :: v) = '/' :: '/' :: blankOut v := by
  simp [maskGrain, Segment.masked, blankBetween, slice]

theorem notMem_blankOut {c : Char} (hspace : c ≠ ' ') (hbreak : c ≠ '\n') : c ∉ blankOut v := by
  intro h
  rcases mem_blankOut h with rfl | rfl
  · exact hspace rfl
  · exact hbreak rfl

theorem commentRule_block (before : Option Char) (v t : Text) :
    commentRule before ('/' :: '*' :: (blankOut v ++ '*' :: '/' :: t)) =
      some ([' '], (blankOut v).length + 4) := by
  have hcut : ∀ w : Text, '*' ∉ w → cut? "*/".toList (w ++ '*' :: '/' :: t) = some (w, t) := by
    intro w hw
    induction w with
    | nil => simp [cut?, after?]
    | cons c w ih =>
      rw [mem_cons, not_or] at hw
      simpa [cut?, after?, hw.1] using ih hw.2
  rw [commentRule, hcut _ (notMem_blankOut (by decide) (by decide))]
  rfl

theorem commentRule_line (before : Option Char) (hv : '\n' ∉ v) (t : Text) :
    commentRule before ('/' :: '/' :: (blankOut v ++ '\n' :: t)) =
      some ([' '], (blankOut v).length + 2) := by
  have hline : '\n' ∉ blankOut v := by
    intro hmem
    obtain ⟨d, hd, hblank⟩ := mem_map.mp hmem
    grind
  rw [commentRule, Text.run, takeWhile_ne_append_cons hline]

/-! ### Commas -/

theorem Uncut.append_of_notMem (hs : Uncut s) (hw : ',' ∉ w) : Uncut (w ++ s) := by
  induction w with
  | nil => exact hs
  | cons d w ih =>
    rw [mem_cons, not_or] at hw
    intro u hu
    rcases suffix_cons_iff.mp hu with heq | hu
    · exact absurd (List.cons.inj heq).1 hw.1
    · exact ih hw.2 u hu

/-- What is read behind a text that ends with a mark begins in the text. -/
theorem startsWith_comment_of_getLast? {u : Text}
    (hchain : u.IsChain fun c d => c = '/' → d ≠ '*' ∧ d ≠ '/') (hlast : u.getLast? = some ')')
    (t : Text) : startsWith "/*".toList (trimStart (u ++ t)) = false := by
  induction u with
  | nil => simp at hlast
  | cons d u ih =>
    rw [cons_append, trimStart]
    by_cases hd : isBlank d
    · have hrest : u.getLast? = some ')' := by
        cases u with
        | nil =>
          obtain rfl : d = ')' := Option.some.inj hlast
          exact absurd hd (by decide)
        | cons e u => rwa [getLast?_cons_cons] at hlast
      rw [dropWhile_cons_of_pos hd]
      exact ih hchain.tail hrest
    · rw [dropWhile_cons_of_neg hd]
      by_cases hslash : d = '/'
      · subst hslash
        cases u with
        | nil => cases hlast
        | cons e u =>
          grind [startsWith, after?]
      · simp [startsWith, after?, Ne.symm hslash]

/-- Behind a text that ends with a mark a comma of the text has no comment. -/
theorem Uncut.append_of_getLast? (hs : Uncut s)
    (hchain : w.IsChain fun c d => c = '/' → d ≠ '*' ∧ d ≠ '/') (hlast : w.getLast? = some ')') :
    Uncut (w ++ s) := by
  induction w with
  | nil => exact hs
  | cons d w ih =>
    intro u hu c t hblank hc
    cases w with
    | nil =>
      obtain rfl : d = ')' := Option.some.inj hlast
      rcases suffix_cons_iff.mp hu with heq | hu
      · grind
      · exact hs u hu c t hblank hc
    | cons e w =>
      rw [getLast?_cons_cons] at hlast
      rcases suffix_cons_iff.mp hu with heq | hu
      · obtain ⟨-, rfl⟩ := List.cons.inj heq
        have h := startsWith_comment_of_getLast? hchain.tail hlast (s ++ c :: t)
        rwa [← append_assoc] at h
      · exact ih hchain.tail hlast u hu c t hblank hc

end DocGraft.Source

namespace DocGraft.Declaration

open List Text Signature Source Scanner TypeTree

variable {c : Char} {d : Declaration} {i : Item} {ps : List NotedPiece} {s : Text}

/-! ### Notes -/

/-- A comment that documents nothing. -/
inductive Note where
  | block (v : Text) (unclosed : ¬ HasClosing (v ++ ['*']))
      (ordinary : v.head?.any (· ≠ '*') = true)
  | line (v : Text) (unbroken : '\n' ∉ v)

namespace Note

def grains : Note → List Grain
  | block v _ _ => [(.blockComment, '/' :: '*' :: (v ++ ['*', '/']))]
  | line v _ => [(.lineComment, '/' :: '/' :: v), (.code, ['\n'])]

/-- The white space that stands for a note in the end. -/
def gaps : Note → List Piece
  | block _ _ _ => [.space]
  | line _ _ => [.space, .gap '\n' newline_mem_gapCharacters]

theorem maskText_block (v : Text) (unclosed : ¬ HasClosing (v ++ ['*']))
    (ordinary : v.head?.any (· ≠ '*') = true) :
    maskText (block v unclosed ordinary).grains = '/' :: '*' :: (blankOut v ++ ['*', '/']) := by
  simp [grains, maskGrain_block]

theorem maskText_line (v : Text) (unbroken : '\n' ∉ v) :
    maskText (line v unbroken).grains = '/' :: '/' :: (blankOut v ++ ['\n']) := by
  simp [grains, maskGrain_line]

theorem exists_maskText (n : Note) : ∃ s, maskText n.grains = '/' :: s := by
  cases n with
  | block v unclosed ordinary => exact ⟨_, maskText_block v unclosed ordinary⟩
  | line v unbroken => exact ⟨_, maskText_line v unbroken⟩

theorem mem_maskMarks (n : Note) : ∀ c ∈ maskText n.grains, c ∈ maskMarks := by
  intro c hc
  cases n with
  | block v unclosed ordinary =>
    rw [grains, maskText_cons, maskText_nil, append_nil] at hc
    exact mem_maskMarks_of_maskGrain (by simp) hc
  | line v unbroken =>
    rw [grains, maskText_cons, maskText_cons, maskText_nil, append_nil] at hc
    rcases mem_append.mp hc with hc | hc
    · exact mem_maskMarks_of_maskGrain (by simp) hc
    · rw [mem_singleton.mp hc]
      decide

/-- A note ends no declaration and is not a part of a word. -/
theorem of_mem_maskText (n : Note) {c : Char} (hc : c ∈ maskText n.grains) :
    isWord c = false ∧ c ∉ declarationEnds ∧ c ≠ ',' := by
  have hall : (maskMarks.all fun c => !isWord c && (c ∉ declarationEnds ∧ c ≠ ',')) = true := by
    decide
  have h := all_eq_true.mp hall c (n.mem_maskMarks c hc)
  simpa using h

theorem standing_grains (n : Note) (t : Text) : Standing n.grains t := by
  cases n with
  | block v unclosed ordinary => exact ⟨stands_block_of_closed unclosed _, trivial⟩
  | line v unbroken =>
    refine ⟨stands_line_iff.mpr ⟨v, rfl, unbroken, ?_⟩, stands_newline t, trivial⟩
    rintro c ⟨⟩
    rfl

theorem undocumented_grains (n : Note) :
    ∀ g ∈ n.grains, g.1 = .blockComment → startsWith "/**".toList g.2 = false := by
  intro g hg hblock
  cases n with
  | block v unclosed ordinary =>
    obtain rfl := mem_singleton.mp hg
    cases v with
    | nil => cases ordinary
    | cons c v =>
      grind [startsWith, after?]
  | line v unbroken =>
    simp only [grains, mem_cons, not_mem_nil, or_false] at hg
    rcases hg with rfl | rfl <;> cases hblock

theorem exists_substituteFrom (n : Note) (before : Option Char) (t : Text) :
    ∃ b, substituteFrom commentRule 0 before (maskText n.grains ++ t) =
      spelling n.gaps ++ substituteFrom commentRule 0 b t := by
  cases n with
  | block v unclosed ordinary =>
    have hrule := commentRule_block before v t
    have hlength : (blankOut v).length + 4 =
        ('/' :: '*' :: (blankOut v ++ ['*', '/'])).length := by
      simp
    rw [hlength] at hrule
    have hspace : spelling (block v unclosed ordinary).gaps = [' '] := rfl
    rw [maskText_block, hspace]
    exact exists_substituteFrom_of_some (cons_ne_nil _ _) (by simpa using hrule)
  | line v unbroken =>
    have hrule := commentRule_line before unbroken t
    have hlength : (blankOut v).length + 2 = ('/' :: '/' :: blankOut v).length := by
      simp
    rw [hlength] at hrule
    obtain ⟨b, hb⟩ := exists_substituteFrom_of_some (cons_ne_nil _ _)
      (show commentRule before (('/' :: '/' :: blankOut v) ++ '\n' :: t) = _ from hrule)
    have hnone : commentRule b ('\n' :: t) = none := rfl
    refine ⟨some '\n', ?_⟩
    rw [maskText_line]
    have htext : '/' :: '/' :: (blankOut v ++ ['\n']) ++ t =
        ('/' :: '/' :: blankOut v) ++ '\n' :: t := by
      simp
    rw [htext, hb, substituteFrom_cons_of_none hnone]
    rfl

end Note

/-! ### Pieces with notes -/

/-- A piece of a declaration, or a note. -/
inductive NotedPiece where
  | piece (p : SourcePiece)
  | note (n : Note)

namespace NotedPiece

/-- Whether this is a note. -/
def isNote : NotedPiece → Bool
  | piece _ => false
  | note _ => true

def grains : NotedPiece → List Grain
  | piece p => p.grains
  | note n => n.grains

/-- What the masked text shows of a piece or a note. -/
def shown (p : NotedPiece) : Text :=
  maskText p.grains

/-- What is read in the end. -/
def read : NotedPiece → List Piece
  | piece p => [p.masked]
  | note n => n.gaps

/-- The annotation or the token. -/
def item? : NotedPiece → Option Item
  | piece p => p.masked.item?
  | note _ => none

/-- Whether this is skipped before a declaration. -/
def isLeading : NotedPiece → Bool
  | piece p => p.masked.isLeading
  | note _ => false

/-- Whether nothing in an argument list ends a declaration. -/
def isUnending : NotedPiece → Bool
  | piece p => p.isUnending
  | note _ => true

/-- Whether this is a comma. -/
def isComma : NotedPiece → Bool
  | piece (.token (.mark m)) => m = .comma
  | _ => false

theorem shown_piece (p : SourcePiece) : (piece p).shown = p.masked.text :=
  p.maskText_grains

theorem standing_grains (p : NotedPiece) (t : Text) : Standing p.grains t := by
  cases p with
  | piece p => exact p.standing_grains t
  | note n => exact n.standing_grains t

theorem undocumented_grains (p : NotedPiece) :
    ∀ g ∈ p.grains, g.1 = .blockComment → startsWith "/**".toList g.2 = false := by
  cases p with
  | piece p =>
    intro g hg hblock
    have h := p.uncommented_grains g hg
    rw [hblock] at h
    cases h
  | note n => exact n.undocumented_grains

theorem filterMap_read (p : NotedPiece) : p.read.filterMap Piece.item? = p.item?.toList := by
  rcases p with p | n
  · rw [read, item?, filterMap_cons]
    cases p.masked.item? <;> rfl
  · cases n <;> rfl

end NotedPiece

def notedGrains (ps : List NotedPiece) : List Grain :=
  ps.flatMap NotedPiece.grains

/-- What the masked text shows of pieces and notes. -/
def shown (ps : List NotedPiece) : Text :=
  ps.flatMap NotedPiece.shown

/-- What is read of pieces and notes in the end. -/
def readPieces (ps : List NotedPiece) : List Piece :=
  ps.flatMap NotedPiece.read

/-- Pieces without their notes. -/
def unnoted (ps : List NotedPiece) : List NotedPiece :=
  ps.filter fun p => !p.isNote

/-- Whether the first thing behind white space is a block comment. -/
def beginsBlock : List NotedPiece → Bool
  | [] => false
  | .piece (.gap _ _) :: ps => beginsBlock ps
  | .note (.block _ _ _) :: _ => true
  | _ => false

/-- Whether no comma has a block comment behind it. -/
def isUncut : List NotedPiece → Bool
  | [] => true
  | p :: ps => !(p.isComma && beginsBlock ps) && isUncut ps

section Lists

variable (ps : List NotedPiece)

theorem shown_cons (p : NotedPiece) : shown (p :: ps) = p.shown ++ shown ps := rfl

theorem maskText_notedGrains : maskText (notedGrains ps) = shown ps := by
  induction ps with
  | nil => rfl
  | cons p ps ih =>
    rw [notedGrains, flatMap_cons, maskText_append, shown_cons, ← ih]
    rfl

theorem standing_notedGrains (t : Text) : Standing (notedGrains ps) t := by
  induction ps with
  | nil => trivial
  | cons p ps ih => exact standing_append.mpr ⟨p.standing_grains _, ih⟩

theorem undocumented_notedGrains :
    ∀ g ∈ notedGrains ps, g.1 = .blockComment → startsWith "/**".toList g.2 = false := by
  intro g hg
  obtain ⟨p, -, hp⟩ := mem_flatMap.mp hg
  exact p.undocumented_grains g hp

theorem filterMap_readPieces : (readPieces ps).filterMap Piece.item? =
    ps.filterMap NotedPiece.item? := by
  induction ps with
  | nil => rfl
  | cons p ps ih =>
    rw [readPieces, flatMap_cons, filterMap_append, p.filterMap_read, ← readPieces, ih,
      filterMap_cons]
    cases p.item? <;> rfl

theorem filterMap_unnoted : (unnoted ps).filterMap NotedPiece.item? =
    ps.filterMap NotedPiece.item? := by
  induction ps with
  | nil => rfl
  | cons p ps ih =>
    cases p with
    | piece p =>
      have hkept : unnoted (.piece p :: ps) = .piece p :: unnoted ps := rfl
      grind
    | note n => exact ih

/-- Notes become white space, and nothing else changes. -/
theorem substitute_shown : substitute commentRule (shown ps) = spelling (readPieces ps) := by
  have hmain : ∀ before, substituteFrom commentRule 0 before (shown ps) =
      spelling (readPieces ps) := by
    induction ps with
    | nil => exact fun _ => rfl
    | cons p ps ih =>
      intro before
      have hread : spelling (readPieces (p :: ps)) = spelling p.read ++ spelling (readPieces ps) :=
        flatMap_append
      rw [shown_cons, hread]
      cases p with
      | note n =>
        obtain ⟨b, hb⟩ := n.exists_substituteFrom before (shown ps)
        exact hb.trans (congrArg _ (ih b))
      | piece p =>
        have huncommented := uncommented_pieces [p]
        have htext : spelling (maskedPieces [p]) = p.masked.text := by
          simp [maskedPieces, spelling]
        rw [htext] at huncommented
        obtain ⟨b, hb⟩ := exists_substituteFrom_uncommented huncommented before (shown ps)
        simp [NotedPiece.read, spelling, NotedPiece.shown_piece, hb, ih]
  exact hmain none

end Lists

/-- What holds around white space holds between pieces with notes, if it holds without the notes. -/
theorem isChain_readPieces {R : Piece → Piece → Prop}
    (hgap : ∀ c mem p, R (.gap c mem) p ∧ R p (.gap c mem))
    (h : (readPieces (unnoted ps)).IsChain R) : (readPieces ps).IsChain R := by
  induction ps with
  | nil => exact .nil
  | cons p ps ih =>
    cases p with
    | note n =>
      have hrest : (readPieces ps).IsChain R := ih h
      have hread : readPieces (.note n :: ps) = n.gaps ++ readPieces ps := rfl
      rw [hread]
      cases n with
      | block v unclosed ordinary =>
        exact isChain_cons.mpr ⟨fun p _ => (hgap _ _ p).1, hrest⟩
      | line v unbroken =>
        exact isChain_cons.mpr ⟨fun p _ => (hgap _ _ p).1,
          isChain_cons.mpr ⟨fun p _ => (hgap _ _ p).1, hrest⟩⟩
    | piece p =>
      have hkept : readPieces (unnoted (.piece p :: ps)) = p.masked :: readPieces (unnoted ps) :=
        rfl
      have hread : readPieces (.piece p :: ps) = p.masked :: readPieces ps := rfl
      rw [hkept, isChain_cons] at h
      rw [hread, isChain_cons]
      refine ⟨fun q hq => ?_, ih h.2⟩
      cases ps with
      | nil => cases hq
      | cons r ps =>
        cases r with
        | piece r => exact h.1 q hq
        | note n =>
          obtain ⟨c, mem, rest, hgaps⟩ : ∃ c mem rest, n.gaps = .gap c mem :: rest := by
            cases n <;> exact ⟨_, _, _, rfl⟩
          have hfirst : readPieces (.note n :: ps) = .gap c mem :: (rest ++ readPieces ps) := by
            simp [readPieces, NotedPiece.read, hgaps]
          rw [hfirst] at hq
          obtain rfl : Piece.gap c mem = q := by simpa using hq
          exact (hgap c mem _).2

theorem unnoted_unnoted (ps : List NotedPiece) : unnoted (unnoted ps) = unnoted ps := by
  simp [unnoted]

theorem unnoted_pieces (ps : List SourcePiece) : unnoted (ps.map .piece) = ps.map .piece := by
  simp [unnoted, NotedPiece.isNote]

theorem readPieces_pieces (ps : List SourcePiece) : readPieces (ps.map .piece) =
    maskedPieces ps := by
  rw [readPieces, flatMap_map, maskedPieces, map_eq_flatMap]
  rfl

theorem shown_pieces (ps : List SourcePiece) : shown (ps.map .piece) =
    spelling (maskedPieces ps) := by
  rw [← maskText_pieceGrains, ← maskText_notedGrains, notedGrains, flatMap_map, pieceGrains]
  rfl

/-- What is shown without notes begins as it does with them, or with a note. -/
theorem head?_shown_of_unnoted (h : ∀ c ∈ (shown (unnoted ps)).head?, isWord c = false) :
    ∀ c ∈ (shown ps).head?, isWord c = false := by
  cases ps with
  | nil => exact h
  | cons p ps =>
    rw [shown_cons]
    cases p with
    | note n =>
      obtain ⟨s, hs⟩ := n.exists_maskText
      rw [NotedPiece.shown, NotedPiece.grains, hs]
      exact ends_word (by decide) _
    | piece p =>
      have hkept : unnoted (.piece p :: ps) = .piece p :: unnoted ps := rfl
      have hne : (NotedPiece.piece p).shown ≠ [] := by
        rw [NotedPiece.shown_piece]
        exact (getLast?_piece p.masked).1
      rw [hkept, shown_cons, head?_append_of_ne_nil _ hne] at h
      rwa [head?_append_of_ne_nil _ hne]

/-! ### Words and marks with notes -/

/-- A word at the end of an item is not continued by what follows. -/
theorem head?_shown_of_apart (hi : i.endsWord)
    (hchain : (Piece.item i :: readPieces ps).IsChain fun p q => p.apart q) :
    ∀ c ∈ (shown ps).head?, isWord c = false := by
  cases ps with
  | nil => simp [shown]
  | cons p ps =>
    rw [shown_cons]
    cases p with
    | note n =>
      obtain ⟨s, hs⟩ := n.exists_maskText
      rw [NotedPiece.shown, NotedPiece.grains, hs]
      exact ends_word (by decide) _
    | piece p =>
      have hread : readPieces (.piece p :: ps) = p.masked :: readPieces ps := rfl
      rw [hread] at hchain
      have htwo : [Piece.item i, p.masked].IsChain fun p q => p.apart q :=
        isChain_pair.mpr (isChain_cons_cons.mp hchain).1
      have hhead := head?_spelling_of_apart hi htwo
      have hspelling : spelling [p.masked] = p.masked.text := by simp [spelling]
      rw [hspelling] at hhead
      rwa [NotedPiece.shown_piece, head?_append_of_ne_nil _ (getLast?_piece p.masked).1]

/-- The marks of a text that end no declaration. -/
def openMarks (s : Text) : List Char :=
  ('@' :: headerMarks) ++ s.filter fun c => !isWord c && c ∉ declarationEnds

theorem of_mem_openMarks (h : c ∈ openMarks s) : isWord c = false ∧ c ∉ declarationEnds := by
  have hbase : (('@' :: headerMarks).all fun c => !isWord c && c ∉ declarationEnds) = true := by
    decide
  rcases mem_append.mp h with hc | hc
  · simpa using all_eq_true.mp hbase c hc
  · simpa using (mem_filter.mp hc).2

/-- Pieces with notes are words and marks that end no declaration, if no argument list ends it. -/
theorem codeText_shown {marks : List Char} (hmarks : ∀ c ∈ '@' :: headerMarks, c ∈ marks)
    (hchain : (readPieces ps).IsChain fun p q => p.apart q) (hunending : ∀ p ∈ ps, p.isUnending)
    (hshown : ∀ c ∈ shown ps, isWord c = false → c ∉ declarationEnds → c ∈ marks) :
    CodeText marks ["throws".toList] (shown ps) := by
  induction ps with
  | nil => exact .nil
  | cons p ps ih =>
    obtain ⟨hp, hps⟩ := forall_mem_cons.mp hunending
    have htail : (readPieces ps).IsChain fun p q => p.apart q :=
      (isChain_append.mp (show (p.read ++ readPieces ps).IsChain _ from hchain)).2.1
    have hrest := ih htail hps fun c hc => hshown c (mem_append_right _ hc)
    rw [shown_cons]
    cases p with
    | note n =>
      refine hrest.marks_append fun c hc => ?_
      obtain ⟨hword, hends, -⟩ := n.of_mem_maskText hc
      exact hshown c (mem_append_left _ hc) hword hends
    | piece p =>
      have hread : readPieces (.piece p :: ps) = p.masked :: readPieces ps := rfl
      rw [hread] at hchain
      cases hmasked : p.masked with
      | gap c mem =>
        rw [NotedPiece.shown_piece, hmasked]
        exact .mark (hmarks c (mem_cons_of_mem _ (mem_append_left _ mem))) hrest
      | item i =>
        have hitem : CodeText marks ["throws".toList] i.text := by
          refine codeText_piece hmarks hp hmasked fun c hc => hshown c (mem_append_left _ ?_)
          rw [NotedPiece.shown_piece, hmasked]
          exact hc
        rw [hmasked] at hchain
        rw [NotedPiece.shown_piece, hmasked]
        refine hitem.append hrest ?_
        by_cases hend : i.endsWord
        · exact .inl (head?_shown_of_apart hend hchain)
        · exact .inr (Item.getLast_of_not_endsWord (by simpa using hend))

theorem codeText_openMarks (hchain : (readPieces ps).IsChain fun p q => p.apart q)
    (hunending : ∀ p ∈ ps, p.isUnending) (hs : ∀ c ∈ shown ps, c ∈ s) :
    CodeText (openMarks s) ["throws".toList] (shown ps) :=
  codeText_shown (fun _ hc => mem_append_left _ hc) hchain hunending fun c hc hword hends =>
    mem_append_right _ (mem_filter.mpr ⟨hs c hc, by simp [hword, hends]⟩)

/-- Only one token has a comma. -/
theorem Token.comma_notMem {t : Declaration.Token} (h : t ≠ .mark .comma) : ',' ∉ t.text := by
  have hname : ∀ n : Name, ',' ∉ n.text := fun n => n.isName.toIsWord.notMem (by decide)
  cases t with
  | name q =>
    intro hmem
    rcases mem_append.mp hmem with hmem | hmem
    · obtain ⟨n, -, hn⟩ := mem_flatMap.mp hmem
      rcases mem_append.mp hn with hn | hn
      · exact hname n hn
      · grind
    · exact hname q.name hmem
  | arrayName n =>
    intro hmem
    rcases mem_append.mp hmem with hmem | hmem
    · exact hname n hmem
    · exact absurd hmem (by decide)
  | keyword word mem =>
    have hall : (keywords.all fun word => ',' ∉ word) = true := by decide
    grind [Token.text]
  | mark m =>
    cases m with
    | comma => exact absurd rfl h
    | _ => decide

/-- Where no block comment begins, none is found behind white space. -/
theorem startsWith_trimStart_shown (h : beginsBlock ps = false) (hblank : isBlank c = false)
    (hc : c ≠ '/') (t : Text) :
    startsWith "/*".toList (trimStart (shown ps ++ c :: t)) = false := by
  have hfirst : ∀ {d : Char} (s : Text), isBlank d = false → d ≠ '/' →
      startsWith "/*".toList (trimStart (d :: s)) = false := by
    intro d s hd hne
    rw [trimStart, dropWhile_cons_of_neg (by simp [hd])]
    simp [startsWith, after?, Ne.symm hne]
  fun_induction beginsBlock ps with
  | case1 => exact hfirst t hblank hc
  | case2 d mem ps ih =>
    rw [shown_cons, NotedPiece.shown_piece, append_assoc]
    have hskip : trimStart ((SourcePiece.gap d mem).masked.text ++ (shown ps ++ c :: t)) =
        trimStart (shown ps ++ c :: t) := by
      simp [SourcePiece.masked, Piece.text, trimStart, dropWhile_cons_of_pos (isBlank_of_mem_gap
        mem)]
    rw [hskip]
    exact ih h
  | case3 v unclosed ordinary ps => cases h
  | case4 ps hnil hgap hblock =>
    cases ps with
    | nil => exact absurd rfl hnil
    | cons p ps =>
      rw [shown_cons, append_assoc]
      rcases p with (⟨d, mem⟩ | a | u) | (⟨v, unclosed, ordinary⟩ | ⟨v, unbroken⟩)
      · exact absurd rfl (hgap d mem ps)
      · rw [NotedPiece.shown_piece]
        exact hfirst _ (by decide) (by decide)
      · obtain ⟨d, v, hv, hd, -⟩ := exists_cons_token u
        have hne : d ≠ '/' := by
          rintro rfl
          exact ((SourcePiece.bare_token u) '/' (by rw [hv]; exact mem_cons_self)).1 rfl
        have hshown : (NotedPiece.piece (.token u)).shown = d :: v := by
          rw [NotedPiece.shown_piece, ← hv]
          rfl
        rw [hshown]
        exact hfirst _ hd hne
      · grind
      · have hslash : isBlank '/' = false := by decide
        rw [NotedPiece.shown, NotedPiece.grains, Note.maskText_line, trimStart, cons_append,
          dropWhile_cons_of_neg (by simp [hslash])]
        simp [startsWith, after?]

/-- No comma of a declaration has a block comment behind it. -/
theorem uncut_shown (h : isUncut ps) : Uncut (shown ps) := by
  induction ps with
  | nil =>
    intro u hu
    exact absurd (suffix_nil.mp hu) (cons_ne_nil _ _)
  | cons p ps ih =>
    simp only [isUncut, Bool.and_eq_true, Bool.not_eq_true', Bool.and_eq_false_imp] at h
    have hrest := ih h.2
    have hname : ∀ q : QualifiedName, ',' ∉ q.text := fun q =>
      Token.comma_notMem (t := .name q) (by simp)
    rw [shown_cons]
    match p with
    | .note n =>
      exact hrest.append_of_notMem fun hmem => (n.of_mem_maskText hmem).2.2 rfl
    | .piece (.gap c mem) =>
      rw [NotedPiece.shown_piece]
      refine hrest.append_of_notMem fun hmem => ?_
      obtain rfl : ',' = c := by simpa [SourcePiece.masked, Piece.text] using hmem
      exact absurd mem (by decide)
    | .piece (.token t) =>
      by_cases ht : t = .mark .comma
      · subst ht
        have hbegins : beginsBlock ps = false := h.1 rfl
        intro u hu c t hblank hc
        rcases suffix_cons_iff.mp hu with heq | hu
        · obtain ⟨-, rfl⟩ := List.cons.inj heq
          exact startsWith_trimStart_shown hbegins hblank hc t
        · exact hrest u hu c t hblank hc
      · rw [NotedPiece.shown_piece]
        exact hrest.append_of_notMem (Token.comma_notMem ht)
    | .piece (.annotationUse a) =>
      rw [NotedPiece.shown_piece]
      have hchain := (uncommented_pieces [.annotationUse a]).chain
      have htext : spelling (maskedPieces [.annotationUse a]) =
          (SourcePiece.annotationUse a).masked.text := by
        simp [maskedPieces, spelling]
      rw [htext] at hchain
      obtain ⟨name, gap, blank, arguments, hgap⟩ := a
      cases arguments with
      | none =>
        refine hrest.append_of_notMem ?_
        simp [SourcePiece.masked, Piece.text, Item.text, AnnotationUse.text,
          SourceAnnotation.masked, hgap rfl, hname]
      | some arguments =>
        refine hrest.append_of_getLast? hchain ?_
        have hsplit :
            (SourcePiece.annotationUse ⟨name, gap, blank, some arguments, hgap⟩).masked.text =
            ('@' :: (name.text ++ gap)) ++ arguments.masked.text := by
          simp [SourcePiece.masked, Piece.text, Item.text, AnnotationUse.text,
            SourceAnnotation.masked]
        have hne : arguments.masked.text ≠ [] := cons_ne_nil _ _
        rw [hsplit, getLast?_append_of_ne_nil _ hne, SourcePiece.getLast?_arguments]

theorem isUncut_of_append {qs : List NotedPiece} (h : isUncut (ps ++ qs)) : isUncut ps := by
  have hbegins : ∀ ps : List NotedPiece, beginsBlock ps → beginsBlock (ps ++ qs) := by
    intro ps hps
    fun_induction beginsBlock ps with
    | case1 => cases hps
    | case2 c mem ps ih => exact ih hps
    | case3 v unclosed ordinary ps => rfl
    | case4 ps hnil hgap hblock => cases hps
  induction ps with
  | nil => rfl
  | cons p ps ih =>
    simp only [cons_append, isUncut, Bool.and_eq_true, Bool.not_eq_true',
      Bool.and_eq_false_imp] at h ⊢
    refine ⟨fun hp => ?_, ih h.2⟩
    by_contra hps
    have hblock := hbegins ps (by simpa using hps)
    rw [h.1 hp] at hblock
    cases hblock

/-- A declaration with notes is not ended in them. -/
theorem unended_shown (hchain : (readPieces ps).IsChain fun p q => p.apart q)
    (hunending : ∀ p ∈ ps, p.isUnending) (huncut : isUncut ps) : Unended (shown ps) :=
  (codeText_openMarks hchain hunending fun _ hc => hc).unended
    (all_eq_true.mpr fun c hc => by simpa using of_mem_openMarks hc) (mem_singleton_self _)
    (uncut_shown huncut)

/-! ### Declarations without their first annotations -/

/-- A declaration without its first modifiers. -/
def dropModifiers (n : Nat) : Declaration → Declaration
  | method m => method { m with modifiers := m.modifiers.drop n }
  | field f => field { f with modifiers := f.modifiers.drop n }
  | type h => type { h with modifiers := h.modifiers.drop n }

theorem key_dropModifiers (n : Nat) (d : Declaration) (owner : Text) :
    (d.dropModifiers n).key owner = d.key owner := by
  cases d <;> rfl

/-- The modifiers of a declaration stand before its first other token. -/
theorem exists_items_eq (d : Declaration) : ∃ (ms : List Modifier) (t : Declaration.Token)
    (rest : List Item), (Item.token t).isFresh ∧
      ∀ n, (d.dropModifiers n).items = (ms.drop n).map Modifier.item ++ .token t :: rest := by
  cases d with
  | method m =>
    obtain ⟨t, ts, hts⟩ := exists_cons_of_ne_nil (show m.tokens ≠ [] by simp [Method.tokens])
    refine ⟨m.modifiers, t, ts.map .token ++
      (parameterItems m.parameters ++ [.token (.mark .closeParen)]), ?_, fun n => ?_⟩
    · cases htype : m.typeParameters <;> cases hreturn : m.returnType <;>
        simp [Method.tokens, bracketed, htype, hreturn, TypeUse.tokens] at hts <;>
        obtain ⟨rfl, -⟩ := hts <;> rfl
    · have htokens : ∀ ms, ({ m with modifiers := ms } : Method).tokens = t :: ts := fun _ => hts
      simp only [dropModifiers, items, Method.items, htokens]
      rfl
  | field f =>
    obtain ⟨t, ts, hts⟩ := exists_cons_of_ne_nil (show f.tokens ≠ [] by simp [Field.tokens])
    refine ⟨f.modifiers, t, ts.map .token, ?_, fun n => ?_⟩
    · simp [Field.tokens, TypeUse.tokens] at hts
      obtain ⟨rfl, -⟩ := hts
      rfl
    · have htokens : ∀ ms, ({ f with modifiers := ms } : Field).tokens = t :: ts := fun _ => hts
      simp only [dropModifiers, items, Field.items, htokens]
      rfl
  | type h => exact ⟨h.modifiers, h.opening, h.tokens.tail.map .token, rfl, fun n => rfl⟩

theorem items_dropModifiers {as bs : List Item} (h : d.items = as ++ bs)
    (has : ∀ i ∈ as, i.token? = none) : (d.dropModifiers as.length).items = bs := by
  obtain ⟨ms, t, rest, -, hitems⟩ := exists_items_eq d
  have hall := hitems 0
  have hsame : d.dropModifiers 0 = d := by cases d <;> rfl
  rw [hsame, drop_zero, h] at hall
  rw [hitems]
  rcases append_eq_append_iff.mp hall with ⟨cs, hms, hbs⟩ | ⟨cs, has', hrest⟩
  · simp [hms, hbs]
  · -- A token is not among the annotations.
    cases cs with
    | nil =>
      grind
    | cons i cs =>
      have hi : i = .token t := (List.cons.inj hrest).1.symm
      have hnone := has i (by rw [has']; simp)
      rw [hi] at hnone
      cases hnone

/-- What a declaration begins with can stand behind annotations. -/
theorem isFresh_of_head? (h : d.items.head? = some i) : i.isFresh := by
  obtain ⟨ms, t, rest, hfresh, hitems⟩ := exists_items_eq d
  have hall := hitems 0
  have hsame : d.dropModifiers 0 = d := by cases d <;> rfl
  rw [hsame, drop_zero] at hall
  rw [hall] at h
  cases ms with
  | nil =>
    obtain rfl : Item.token t = i := by simpa using h
    exact hfresh
  | cons m ms =>
    obtain rfl : m.item = i := by simpa using h
    exact m.isFresh_item

/-- A text that ends a declaration before it. Exceptions end that of a method. -/
def EndedBy : Declaration → Text → Prop
  | method _, after => EndsDeclaration after
  | _, after => ∃ c t, after = c :: t ∧ c ∈ declarationEnds

/-! ### Headers with notes -/

theorem spaced_none : ∀ ps ∈ (none : Option (List NotedPiece)),
    ∀ c ∈ (shown (unnoted ps)).head?, isWord c = false := by
  simp

/-- A spelling of a declaration with notes in it. -/
structure NotedHeader (d : Declaration) where
  pieces : List NotedPiece
  /-- Without the notes the pieces spell the declaration. -/
  spells : Spells (readPieces (unnoted pieces)) d.items
  /-- No two of them cling to each other. -/
  unclung : Unclung (readPieces (unnoted pieces))
  exceptions : Option (List NotedPiece)
  spaced : ∀ ps ∈ exceptions, ∀ c ∈ (shown (unnoted ps)).head?, isWord c = false
  thrown : exceptions.isSome → ∃ m, d = .method m

namespace NotedHeader

variable {d : Declaration} (header : NotedHeader d) {after : Text}

/-- The grains of the exceptions with the keyword before them. -/
def tail : List Grain :=
  header.exceptions.elim [] fun ps => codeGrains "throws".toList ++ notedGrains ps

def grains : List Grain :=
  notedGrains header.pieces ++ header.tail

def text : Text :=
  grainText header.grains

/-- The header without its notes. -/
def bare : NotedHeader d where
  pieces := unnoted header.pieces
  spells := by
    rw [unnoted_unnoted]
    exact header.spells
  unclung := by
    rw [unnoted_unnoted]
    exact header.unclung
  exceptions := header.exceptions.map unnoted
  spaced := by
    intro ps hps
    obtain ⟨qs, hqs, rfl⟩ := Option.mem_map.mp hps
    rw [unnoted_unnoted]
    exact header.spaced qs hqs
  thrown := by
    rw [Option.isSome_map]
    exact header.thrown

theorem standing_grains (t : Text) : Standing header.grains t := by
  refine standing_append.mpr ⟨standing_notedGrains _ _, ?_⟩
  rw [tail]
  cases header.exceptions with
  | none => trivial
  | some ps =>
    have hbare : Bare "throws".toList := by simp [Bare]
    exact standing_append.mpr ⟨hbare.standing _, standing_notedGrains ps t⟩

theorem undocumented_grains :
    ∀ g ∈ header.grains, g.1 = .blockComment → startsWith "/**".toList g.2 = false := by
  intro g hg
  rcases mem_append.mp hg with hg | hg
  · exact undocumented_notedGrains _ g hg
  · rw [tail] at hg
    cases hexceptions : header.exceptions with
    | none => simp [hexceptions] at hg
    | some ps =>
      rw [hexceptions, Option.elim_some, mem_append] at hg
      rcases hg with hg | hg
      · exact fun hblock => absurd hblock (ne_of_mem_codeGrains g hg)
      · exact undocumented_notedGrains _ g hg

/-- A header is ended by its exceptions, or by a mark. -/
theorem endedBy (h : ∃ c t, after = c :: t ∧ c ∈ declarationEnds) :
    d.EndedBy (maskText header.tail ++ after) := by
  obtain ⟨c, t, rfl, hc⟩ := h
  have hthrown := header.thrown
  rw [tail]
  cases hexceptions : header.exceptions with
  | none =>
    cases d with
    | method m => exact endsDeclaration_mark hc t
    | field f => exact ⟨c, t, rfl, hc⟩
    | type h => exact ⟨c, t, rfl, hc⟩
  | some ps =>
    obtain ⟨m, rfl⟩ := hthrown (by rw [hexceptions]; rfl)
    rw [Option.elim_some, maskText_append, maskText_codeGrains, append_assoc, maskText_notedGrains]
    refine endsDeclaration_throws fun e he => ?_
    rw [List.head?_append] at he
    rcases Option.or_eq_some_iff.mp he with he | ⟨-, he⟩
    · exact head?_shown_of_unnoted (header.spaced ps hexceptions) e he
    · obtain rfl : c = e := by simpa using he
      exact (of_mem_declarationEnds hc).1

/-- The annotations and the white space before the first token or note. -/
def lead : List NotedPiece :=
  header.pieces.takeWhile NotedPiece.isLeading

/-- What follows from the first token or note on. -/
def core : List NotedPiece :=
  header.pieces.dropWhile NotedPiece.isLeading

/-- Whether no argument list behind the first token or note and no comment behind a comma ends the
declaration. -/
def isReadable : Bool :=
  header.core.all NotedPiece.isUnending && isUncut header.core

theorem lead_append_core : header.lead ++ header.core = header.pieces :=
  takeWhile_append_dropWhile

theorem readPieces_eq : readPieces header.pieces = readPieces header.lead ++
    readPieces header.core := by
  rw [readPieces, ← header.lead_append_core, flatMap_append]
  rfl

theorem spells_readPieces : Spells (readPieces header.pieces) d.items := by
  refine ⟨?_, isChain_readPieces (fun c mem p => ⟨rfl, ?_⟩) header.spells.apart⟩
  · rw [← header.spells.items_eq, filterMap_readPieces, filterMap_readPieces, filterMap_unnoted]
  · cases p <;> rfl

theorem unclung_readPieces : Unclung (readPieces header.pieces) := by
  refine isChain_readPieces (fun c mem p => ⟨rfl, ?_⟩) header.unclung
  rcases p with ⟨d, mem'⟩ | ⟨a | t⟩ <;> rfl

theorem apart : (readPieces header.lead ++ readPieces header.core).IsChain fun p q =>
    p.apart q := by
  rw [← header.readPieces_eq]
  exact header.spells_readPieces.apart

/-- Before the first token or note there is no note. -/
theorem shown_lead : shown header.lead = spelling (readPieces header.lead) := by
  have hmain : ∀ ps : List NotedPiece, (∀ p ∈ ps, p.isLeading) → shown ps =
      spelling (readPieces ps) := by
    intro ps hps
    induction ps with
    | nil => rfl
    | cons p ps ih =>
      obtain ⟨hp, hrest⟩ := forall_mem_cons.mp hps
      cases p with
      | note n => cases hp
      | piece p =>
        rw [shown_cons, ih hrest, NotedPiece.shown_piece]
        rfl
  exact hmain _ fun p hp => mem_takeWhile_imp hp

theorem isLeading_of_mem_lead : ∀ p ∈ readPieces header.lead, p.isLeading := by
  intro p hp
  obtain ⟨q, hq, hp⟩ := mem_flatMap.mp hp
  have hleading : q.isLeading = true := mem_takeWhile_imp hq
  cases q with
  | note n => cases hleading
  | piece q =>
    rw [mem_singleton.mp hp]
    exact hleading

/-- The number of annotations before the first token or note. -/
def leadAnnotations : Nat :=
  ((readPieces header.lead).filterMap Piece.item?).length

/-- What follows from the first token or note on spells the declaration without the annotations
before. -/
theorem items_core : (readPieces header.core).filterMap Piece.item? =
    (d.dropModifiers header.leadAnnotations).items := by
  have hitems := header.spells_readPieces.items_eq
  rw [header.readPieces_eq, filterMap_append] at hitems
  refine (items_dropModifiers hitems.symm fun i hi => ?_).symm
  obtain ⟨p, hp, hpi⟩ := mem_filterMap.mp hi
  have hleading := header.isLeading_of_mem_lead p hp
  rcases p with ⟨c, mem⟩ | ⟨a | t⟩
  · cases hpi
  · obtain rfl := Option.some.inj hpi
    rfl
  · cases hleading

/-- From the first token or note on there is a token, which is a note or the first item. -/
theorem exists_core : (∃ n rest, header.core = .note n :: rest) ∨
    ∃ t rest, header.core = .piece (.token t) :: rest ∧ (Item.token t).isFresh := by
  cases hcore : header.core with
  | nil =>
    have hitems := header.items_core
    rw [hcore] at hitems
    exact absurd hitems.symm (items_ne_nil _)
  | cons p rest =>
    have hp : p.isLeading = false := by
      have hnot := head?_dropWhile_not NotedPiece.isLeading header.pieces
      rw [← core, hcore] at hnot
      simpa using hnot
    match p with
    | .note n => exact .inl ⟨n, rest, rfl⟩
    | .piece (.gap c mem) => cases hp
    | .piece (.annotationUse a) => cases hp
    | .piece (.token t) =>
      refine .inr ⟨t, rest, rfl, isFresh_of_head? (d := d.dropModifiers header.leadAnnotations) ?_⟩
      rw [← header.items_core, hcore]
      rfl

/-- Annotations are passed over up to the first token or note. -/
theorem precede (hafter : d.EndedBy after) :
    Precede (readPieces header.lead) (shown header.core ++ after) := by
  have hlead := header.isLeading_of_mem_lead
  rcases header.exists_core with ⟨n, rest, hcore⟩ | ⟨t, rest, hcore, hfresh⟩
  · obtain ⟨s, hs⟩ := n.exists_maskText
    have hshown : shown header.core ++ after = '/' :: (s ++ (shown rest ++ after)) := by
      rw [hcore, shown_cons, NotedPiece.shown, NotedPiece.grains, hs, append_assoc]
      rfl
    rw [hshown]
    refine ⟨hlead, ⟨'/', _, rfl, by decide, by decide⟩, annotationName?_of_ne (by decide) _, ?_⟩
    rintro a - - c ⟨⟩
    decide
  · have hchain := header.apart
    have hread : readPieces header.core = .item (.token t) :: readPieces rest := by
      rw [hcore]
      rfl
    rw [hread] at hchain
    have hshown : shown header.core ++ after = t.text ++ (shown rest ++ after) := by
      rw [hcore, shown_cons, NotedPiece.shown_piece, append_assoc]
      rfl
    rw [hshown]
    have hfirst : (readPieces header.lead ++ [Piece.item (.token t)]).IsChain fun p q =>
        p.apart q :=
      hchain.prefix ⟨readPieces rest, by simp⟩
    refine precede_token hlead hfresh hfirst ?_
    by_cases hmember : t.isMember
    · obtain ⟨c, v, hv, -, hat⟩ := exists_cons_token t
      rw [hv]
      exact annotationName?_of_ne (hat hmember) _
    · -- Only a type has a keyword that says so, and a mark ends it.
      obtain ⟨c, u, rfl, hc⟩ : ∃ c u, after = c :: u ∧ c ∈ declarationEnds := by
        have hmem : Item.token t ∈ (d.dropModifiers header.leadAnnotations).items := by
          rw [← header.items_core, hread]
          exact mem_cons_self
        cases d with
        | method m => exact absurd (Method.isMember_of_mem hmem) hmember
        | field f => exact absurd (Field.isMember_of_mem hmem) hmember
        | type h => exact hafter
      have hhead : ∀ e ∈ (shown rest ++ c :: u).head?, isWord e = false := by
        have hrest := head?_shown_of_apart (i := .token t) ?_ (isChain_append.mp hchain).2.1
        · cases hs : shown rest with
          | nil => exact ends_word (of_mem_declarationEnds hc).1 u
          | cons e s =>
            rw [hs] at hrest
            exact hrest
        · cases t <;> first | rfl | exact absurd rfl hmember
      obtain ⟨e, s, hs⟩ : ∃ e s, shown rest ++ c :: u = e :: s :=
        exists_cons_of_ne_nil (by simp)
      rw [hs] at hhead ⊢
      cases t with
      | keyword word mem =>
        have hword : word ∈ typeWords := by simpa [Token.isMember] using hmember
        exact annotationName?_type hword (hhead e rfl) s
      | _ => exact absurd rfl hmember

theorem exists_item_core : ∃ i, Piece.item i ∈ readPieces header.core := by
  obtain ⟨i, hi⟩ := exists_mem_of_ne_nil _ (items_ne_nil (d.dropModifiers header.leadAnnotations))
  rw [← header.items_core] at hi
  obtain ⟨p, hp, hpi⟩ := mem_filterMap.mp hi
  cases p with
  | gap c mem => cases hpi
  | item j => exact ⟨j, hp⟩

theorem not_allBlank_core : ¬ allBlank (spelling (readPieces header.core)) = true := by
  obtain ⟨i, hi⟩ := header.exists_item_core
  obtain ⟨c, s, hs, hc⟩ : ∃ c s, i.text = c :: s ∧ isBlank c = false := by
    cases i with
    | annotationUse a => exact ⟨'@', _, rfl, by decide⟩
    | token t =>
      obtain ⟨c, v, hv, hc, -⟩ := exists_cons_token t
      exact ⟨c, v, hv, hc⟩
  intro hblank
  have hmem : c ∈ spelling (readPieces header.core) :=
    mem_flatMap.mpr ⟨_, hi, by rw [Piece.text, hs]; exact mem_cons_self⟩
  have h := all_eq_true.mp hblank c hmem
  rw [hc] at h
  cases h

theorem text_ne_nil : header.text ≠ [] := by
  intro h
  have hpieces : grainText (notedGrains header.pieces) = [] := by
    rw [text, grains, grainText_append] at h
    exact (append_eq_nil_iff.mp h).1
  have hshown : shown header.pieces = [] := by
    rw [← maskText_notedGrains, ← length_eq_zero_iff,
      length_maskText (standing_notedGrains header.pieces []), hpieces, length_nil]
  rw [← header.lead_append_core, shown, flatMap_append, append_eq_nil_iff] at hshown
  refine header.not_allBlank_core ?_
  rw [← substitute_shown, shown, hshown.2]
  rfl

/-- A method ends with its closing parenthesis, behind which there are only white space and
notes. -/
theorem exists_close_core {m : Method} {ps : List NotedPiece}
    (h : (readPieces ps).filterMap Piece.item? = m.items) :
    ∃ front back, ps = front ++ .piece (.token (.mark .closeParen)) :: back ∧
      ∀ c ∈ shown back, isWord c = false ∧ c ∉ declarationEnds ∧ c ≠ ',' := by
  rw [filterMap_readPieces, Method.items, ← append_assoc, ← append_assoc] at h
  obtain ⟨front, qs, hps, -, hqs⟩ := filterMap_eq_append_iff.mp h
  obtain ⟨between, p, back, rfl, -, hp, hback⟩ := filterMap_eq_cons_iff.mp hqs
  obtain rfl : p = .piece (.token (.mark .closeParen)) := by
    rcases p with (⟨c, mem⟩ | a | t) | n
    · cases hp
    · cases hp
    · obtain rfl : t = .mark .closeParen := by
        simpa [NotedPiece.item?, SourcePiece.masked, Piece.item?] using hp
      rfl
    · cases hp
  refine ⟨front ++ between, back, by rw [hps, append_assoc], fun c hc => ?_⟩
  obtain ⟨q, hq, hcq⟩ := mem_flatMap.mp hc
  have hnone := filterMap_eq_nil_iff.mp hback q hq
  rcases q with (⟨d, mem⟩ | a | t) | n
  · have hall : (gapCharacters.all fun c => !isWord c && (c ∉ declarationEnds ∧ c ≠ ',')) =
        true := by
      decide
    obtain rfl : c = d := by simpa [NotedPiece.shown_piece, SourcePiece.masked,
      Piece.text] using hcq
    simpa using all_eq_true.mp hall c mem
  · cases hnone
  · cases hnone
  · exact n.of_mem_maskText hcq

variable {header}

/-- A declaration ends behind the header. -/
theorem declarationLength?_core (h : header.isReadable) (hafter : d.EndedBy after)
    (before : Option Char) :
    declarationLength? before (shown header.core ++ after) = some (shown header.core).length := by
  obtain ⟨hunending, huncut⟩ := Bool.and_eq_true_iff.mp h
  have hunending := all_eq_true.mp hunending
  have hchain := (isChain_append.mp header.apart).2.1
  have hmark : (∃ c t, after = c :: t ∧ c ∈ declarationEnds) →
      declarationLength? before (shown header.core ++ after) =
        some (shown header.core).length := by
    rintro ⟨c, t, rfl, hc⟩
    exact (unended_shown hchain hunending huncut).declarationLength? hc before t
  cases d with
  | method m =>
    obtain ⟨front, back, hcore, hback⟩ := exists_close_core header.items_core
    rw [hcore] at hchain hunending huncut
    have hfront : Unended (shown front) := by
      refine unended_shown ?_ (fun p hp => hunending p (mem_append_left _ hp))
        (isUncut_of_append huncut)
      rw [readPieces, flatMap_append] at hchain
      exact (isChain_append.mp hchain).1
    have hshown : shown header.core = shown front ++ ')' :: shown back := by
      rw [hcore, shown, flatMap_append, flatMap_cons, NotedPiece.shown_piece]
      rfl
    rw [hshown]
    exact declarationLength?_close hfront hback hafter before
  | field f => exact hmark hafter
  | type t => exact hmark hafter

theorem readAs (h : header.isReadable) (hafter : d.EndedBy after) {kind : TypeKind}
    (hkind : kind ≠ .annotationType) :
    ReadAs kind (shown header.lead) (shown header.core) after
      (spelling (readPieces header.core)) := by
  refine ⟨?_, declarationLength?_core h hafter, ?_, header.not_allBlank_core⟩
  · rw [header.shown_lead]
    exact (header.precede hafter).annotationsLength (w := []) (by simp)
  · rw [substitute_shown, reading_of_ne hkind]

/-- The key of a declaration with notes is that of its tokens. -/
theorem ofDeclaration_core (owner : QualifiedName) :
    SignatureKey.ofDeclaration owner.text (spelling (readPieces header.core)) =
      .ok (d.key owner.name.text) := by
  rw [← key_dropModifiers header.leadAnnotations]
  refine ofDeclaration_spelling _ owner ⟨header.items_core, (isChain_append.mp header.apart).2.1⟩ ?_
  have hunclung := header.unclung_readPieces
  rw [header.readPieces_eq] at hunclung
  exact (isChain_append.mp hunclung).2.1

theorem brace_notMem_core (h : header.isReadable) {c : Char} (hc : c = '{' ∨ c = '}') :
    c ∉ shown header.core := by
  have hunending := all_eq_true.mp (Bool.and_eq_true_iff.mp h).1
  have hcode := codeText_openMarks (isChain_append.mp header.apart).2.1 hunending
    (s := shown header.core) fun _ hc => hc
  have hends : c ∈ declarationEnds ∧ isWord c = false := by
    rcases hc with rfl | rfl <;> decide
  exact hcode.notMem hends.2 fun hmem => (of_mem_openMarks hmem).2 hends.1

theorem isUncut_unnoted (ps : List NotedPiece) : isUncut (unnoted ps) = true := by
  have hbegins : ∀ ps : List NotedPiece, beginsBlock (unnoted ps) = false := by
    intro ps
    induction ps with
    | nil => rfl
    | cons p ps ih =>
      match p with
      | .note n => exact ih
      | .piece (.gap c mem) => exact ih
      | .piece (.token t) => rfl
      | .piece (.annotationUse a) => rfl
  induction ps with
  | nil => rfl
  | cons p ps ih =>
    cases p with
    | note n => exact ih
    | piece p =>
      have hkept : unnoted (.piece p :: ps) = .piece p :: unnoted ps := rfl
      rw [hkept, isUncut, hbegins ps, ih, Bool.and_false]
      rfl

/-- Without notes the first token comes no earlier. -/
theorem mem_core_of_mem_bare {p : NotedPiece} (h : p ∈ header.bare.core) : p ∈ header.core := by
  have hmain : ∀ ps : List NotedPiece, p ∈ (unnoted ps).dropWhile NotedPiece.isLeading →
      p ∈ ps.dropWhile NotedPiece.isLeading := by
    intro ps
    induction ps with
    | nil => exact id
    | cons q ps ih =>
      intro hp
      cases q with
      | note n =>
        have hmem : p ∈ unnoted ps := (dropWhile_sublist _).subset hp
        exact mem_cons_of_mem _ (mem_filter.mp hmem).1
      | piece q =>
        have hkept : unnoted (.piece q :: ps) = .piece q :: unnoted ps := rfl
        rw [hkept] at hp
        by_cases hq : (NotedPiece.piece q).isLeading
        · grind [dropWhile_cons_of_pos hq]
        · rw [dropWhile_cons_of_neg hq, ← hkept] at hp
          rw [dropWhile_cons_of_neg hq]
          exact (mem_filter.mp hp).1
  exact hmain header.pieces h

/-- Without its notes a header can be read all the more. -/
theorem isReadable_bare (h : header.isReadable) : header.bare.isReadable := by
  obtain ⟨hunending, -⟩ := Bool.and_eq_true_iff.mp h
  refine Bool.and_eq_true_iff.mpr ⟨all_eq_true.mpr fun p hp => ?_, ?_⟩
  · exact all_eq_true.mp hunending p (mem_core_of_mem_bare hp)
  · have hcore : header.bare.core = unnoted header.bare.core := by
      refine (filter_eq_self.mpr fun p hp => ?_).symm
      exact (mem_filter.mp ((dropWhile_sublist _).subset hp)).2
    rw [hcore]
    exact isUncut_unnoted _

theorem length_bare_le : header.bare.text.length ≤ header.text.length := by
  have hpieces : ∀ ps, (notedGrains (unnoted ps)).Sublist (notedGrains ps) := fun ps =>
    filter_sublist.flatMap NotedPiece.grains
  have hgrains : header.bare.grains.Sublist header.grains := by
    refine (hpieces _).append ?_
    have hexceptions : header.bare.exceptions = header.exceptions.map unnoted := rfl
    rw [tail, tail, hexceptions]
    cases header.exceptions with
    | none => exact .slnil
    | some ps => grind
  exact (hgrains.flatMap Prod.snd).length_le

end NotedHeader

end DocGraft.Declaration
