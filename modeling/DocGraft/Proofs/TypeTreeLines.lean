import DocGraft.Proofs.SourceStretches
import DocGraft.Proofs.TypeTree

/-!
# Lines of a tree of types

The keywords of the types in the source of a tree stand on the lines on which types begin. What
precedes such a line is a documentation comment, the separator at the end of another line, or
nothing. So a type gets a placeholder if it has no comment, and the placeholder stands right before
the line on which the type begins. The candidate of a line is its comment or its placeholder.
-/

namespace DocGraft.Source

open List Text

variable {c : Char} {text w : Text}

/-! ### What precedes a declaration -/

/-- What is met first on the way back from behind the grains at the beginning of a text. -/
def precedent (text : Text) (gs : List Grain) : Precedent :=
  precedentFrom 0 ((placed 0 gs).flatMap (marksOf text)).reverse

theorem precedent_code (text : Text) (gs : List Grain) (hopen : c ≠ '(') (hclose : c ≠ ')') :
    precedent text (gs ++ [(.code, [c])]) =
      if c = ';' ∨ c = '{' ∨ c = '}' then .code (grainText gs).length else precedent text gs := by
  have hmarks : (placed 0 (gs ++ [(.code, [c])])).flatMap (marksOf text) =
      (placed 0 gs).flatMap (marksOf text) ++ [.code (grainText gs).length c] := by
    simp [placed_append, placed, marksOf, codeMarks]
  rw [precedent, hmarks, reverse_append, reverse_singleton, singleton_append,
    precedentFrom, if_neg hclose, if_neg hopen]
  simp only [and_true]
  rfl

/-- Code without separators and parentheses is passed over. -/
theorem precedent_append (text : Text) (gs : List Grain)
    (h : ∀ c ∈ w, c ∉ [';', '{', '}', '(', ')']) :
    precedent text (gs ++ codeGrains w) = precedent text gs := by
  induction w using List.reverseRecOn with
  | nil => rw [codeGrains_nil, append_nil]
  | append_singleton w c ih =>
    have hc := h c (by simp)
    simp only [mem_cons, not_mem_nil, or_false, not_or] at hc
    have hw : ∀ c ∈ w, c ∉ [';', '{', '}', '(', ')'] := fun c hc => h c (mem_append_left _ hc)
    rw [codeGrains_append, ← append_assoc, codeGrains_cons, codeGrains_nil,
      precedent_code _ _ hc.2.2.2.1 hc.2.2.2.2, if_neg (by tauto), ih hw]

theorem precedent_comment {gs : List Grain} (hend : endsWith ['*', '/'] w) (hlong : 4 ≤ w.length)
    (hdoc : isDocComment text ⟨.blockComment, (grainText gs).length, w⟩) (hbanner : ¬ isBanner w) :
    precedent text (gs ++ [(.blockComment, w)]) = .documentation := by
  have hmarks : (placed 0 (gs ++ [(.blockComment, w)])).flatMap (marksOf text) =
      (placed 0 gs).flatMap (marksOf text) ++ [.comment (grainText gs).length true] := by
    simp [placed_append, placed, marksOf, hend, hlong, hdoc, hbanner]
  rw [precedent, hmarks, reverse_append, reverse_singleton, singleton_append,
    precedentFrom, if_pos rfl]

/-- The placeholder for a keyword is found from what precedes the keyword. -/
theorem placeholderFor?_eq {as bs : List Grain} (h : grains text = as ++ (.code, [c]) :: bs) :
    placeholderFor? text (mask text) ((segments text).flatMap (marksOf text))
        (grainText as).length =
      match precedent text as with
      | .documentation => none
      | .beginning => some (0, .line)
      | .code offset => some (placeAfter text (mask text) offset (grainText as).length) := by
  rw [placeholderFor?, takeWhile_marks h]
  rfl

end DocGraft.Source

namespace DocGraft.TypeTree

open List Text Source Signature Scanner Declaration

variable {a b text : Text} {before : Option Char} {c : Char} {h : TypeHeader} {pre : List Grain}
  {post : List Grain}

/-! ### Keywords -/

theorem mem_maskMarks_of_spaces {n : Nat} (h : c ∈ spaces n) : c ∈ maskMarks := by
  rw [eq_of_mem_replicate h]
  decide

/-- What the masked text shows of the line of a comment. -/
theorem mem_maskMarks_of_comment {comment : Option (Nat × Text)}
    (h : c ∈ maskText (commentGrains comment)) : c ∈ maskMarks := by
  cases comment with
  | none => simp [commentGrains] at h
  | some comment =>
    obtain ⟨n, v⟩ := comment
    simp only [commentGrains, maskText_append, maskText_codeGrains, maskText_cons, maskText_nil,
      maskGrain_code, append_nil, mem_append, mem_singleton] at h
    rcases h with h | h | rfl
    · exact mem_maskMarks_of_spaces h
    · exact mem_maskMarks_of_maskGrain (by simp) h
    · decide

theorem keyless_mark (hword : isWord c = false) (hat : c ≠ '@') : Keyless [c] :=
  keyless_nil.mark hword hat

/-- The scans of a source take a member for what it is: its declaration declares no type. -/
theorem codeText_head (member : Leaf) : CodeText headerMarks foreignWords member.head := by
  cases member with
  | field f header value => exact header.codeText_member fun _ ht => Field.isMember_of_mem ht
  | method m header body => exact header.codeText_member fun _ ht => Method.isMember_of_mem ht

theorem keyless_package (q : QualifiedName) : Keyless (packageHead q ++ [';']) :=
  (codeText_package q).keyless_append (by decide) (by decide) (keyless_mark (by decide) (by decide))
    (.inl (ends_word (by decide) _))

/-- What follows a declaration begins with a mark that ends it. -/
theorem exists_maskText_tail (member : Leaf) :
    ∃ c t, maskText member.tailGrains = c :: t ∧ c ∈ declarationEnds := by
  match member with
  | .field _ _ none => exact ⟨';', [], rfl, by decide⟩
  | .field _ _ (some value) => exact ⟨'=', _, rfl, by decide⟩
  | .method _ _ body => exact ⟨'{', _, rfl, by decide⟩

theorem Leaf.inert (member : Leaf) : Inert (codeGrains member.head ++ member.tailGrains) := by
  obtain ⟨c, u, hu, hc⟩ := exists_maskText_tail member
  refine member.inert_tailGrains.codeText (codeText_head member) (by decide) (by decide) (.inl ?_)
  rw [hu]
  exact ends_word (of_mem_declarationEnds hc).1 u

/-- What stands on a line before its item, without placeholders. -/
def Line.leadGrains (line : Line) : List Grain :=
  commentGrains (line.comment? false) ++ codeGrains (spaces line.indent)

theorem grains_eq_leadGrains (line : Line) :
    line.grains false = line.leadGrains ++ (line.itemGrains ++ codeGrains ['\n']) := by
  rw [Line.grains, Line.leadGrains, append_assoc]

theorem standing_leadGrains (line : Line) (t : Text) : Standing line.leadGrains t :=
  standing_append.mpr ⟨standing_commentGrains _, (bare_spaces _).standing t⟩

theorem length_maskText {gs : List Grain} {t : Text} (h : Standing gs t) :
    (maskText gs).length = (grainText gs).length :=
  length_flatMap_maskGrain h

/-- The offset of the keyword that a line has, if it begins at `pos` and a type begins on it. -/
def Line.keywords (pos : Nat) (line : Line) : List Nat :=
  match line with
  | opening _ _ header => [pos + ((grainText line.leadGrains).length + header.lead.length)]
  | _ => []

theorem marks_leadGrains (line : Line) :
    ∀ c ∈ maskText line.leadGrains, isWord c = false ∧ c ≠ '@' := by
  intro c hc
  rw [Line.leadGrains, maskText_append, maskText_codeGrains, mem_append] at hc
  rcases hc with hc | hc
  · exact isWord_of_mem_maskMarks (mem_maskMarks_of_comment hc)
  · exact isWord_of_mem_maskMarks (mem_maskMarks_of_spaces hc)

/-- Before the item of a line stands a space or a line end. -/
theorem getLast?_leadGrains (line : Line) (hbefore : ∀ c ∈ before, isBlank c) :
    ∀ c ∈ (before.toList ++ maskText line.leadGrains).getLast?, isBlank c := by
  rw [Line.leadGrains, maskText_append, maskText_codeGrains]
  cases line.indent with
  | zero =>
    cases line.comment? false with
    | none =>
      have hlast : before.toList.getLast? = before := by cases before <;> rfl
      simpa [spaces, commentGrains, hlast] using hbefore
    | some comment =>
      have hlast :
          (before.toList ++ (maskText (commentGrains (some comment)) ++ spaces 0)).getLast? =
          some '\n' := by
        simp [commentGrains, spaces]
      rw [hlast]
      rintro c ⟨⟩
      decide
  | succ n =>
    have hlast : (before.toList ++ (maskText (commentGrains (line.comment? false)) ++
        spaces (n + 1))).getLast? = some ' ' := by
      simp [spaces, replicate_succ', ← append_assoc]
    rw [hlast]
    rintro c ⟨⟩
    decide

theorem not_at_of_mem_gap (h : c ∈ gapCharacters) : c ≠ '@' := by
  rintro rfl
  exact absurd h (by decide)

/-- The modifiers before the keyword of a type are passed over. -/
theorem exists_typeKeywordsFrom_lead (header : Header (.type h)) (pos : Nat)
    (hbefore : ∀ c ∈ before, isBlank c) (t : Text) :
    ∃ b : Option Char, (∀ c ∈ b, isBlank c) ∧
      typeKeywordsFrom pos 0 before (header.lead ++ t) =
        typeKeywordsFrom (pos + header.lead.length) 0 b t := by
  obtain ⟨-, -, -, -, hlead, -⟩ := header.exists_keyword
  rcases hlead with hnil | ⟨m, g, hlead, hg, hm⟩
  · exact ⟨before, hbefore, by rw [hnil]; rfl⟩
  · have hkeyless : Keyless m := hm.keyless (by decide) (by decide)
    obtain ⟨b, hb⟩ := hkeyless pos before (g :: t) (ends_word (isWord_of_mem_gap hg) t)
    refine ⟨some g, fun c hc => ?_, ?_⟩
    · rw [← Option.some.inj hc]
      exact isBlank_of_mem_gap hg
    · have hmark := typeKeyword?_mark (isWord_of_mem_gap hg) (not_at_of_mem_gap hg) b t
      rw [hlead, append_assoc, singleton_append, hb, typeKeywordsFrom_of_none hmark,
        length_append, length_singleton, Nat.add_assoc]

/-- The keyword in the header of a type is the only one in it. -/
theorem typeKeywordsFrom_header (header : Header (.type h)) (pos : Nat)
    (hbefore : ∀ c ∈ before, isBlank c) (t : Text) :
    typeKeywordsFrom pos 0 before ((header.text ++ ['{']) ++ '\n' :: t) =
      (pos + header.lead.length) ::
        typeKeywordsFrom (pos + (header.text.length + 2)) 0 (some '\n') t := by
  obtain ⟨c, rest, htext, hc, -, hrest⟩ := header.exists_keyword
  have hkeyless : Keyless (c :: (rest ++ ['{'])) := by
    have hcode : CodeText ('{' :: headerMarks) foreignWords (rest ++ ['{']) :=
      (hrest.mono (fun c hc => mem_cons_of_mem _ hc) fun _ hw => hw).append
        (.mark mem_cons_self .nil) (.inl (ends_word (by decide) _))
    exact (hcode.keyless (by decide) (by decide)).mark (isWord_of_mem_gap hc) (not_at_of_mem_gap hc)
  obtain ⟨b, hb, hlead⟩ := exists_typeKeywordsFrom_lead header pos hbefore
    (h.keyword ++ c :: ((rest ++ ['{']) ++ '\n' :: t))
  obtain ⟨b', hkeyword⟩ := exists_typeKeywordsFrom_keyword h.mem (pos + header.lead.length) hb
    (isBlank_of_mem_gap hc) ((rest ++ ['{']) ++ '\n' :: t)
  have hsplit : (header.text ++ ['{']) ++ '\n' :: t =
      header.lead ++ (h.keyword ++ c :: ((rest ++ ['{']) ++ '\n' :: t)) := by
    simp [htext]
  rw [hsplit, hlead, hkeyword, ← cons_append, hkeyless.typeKeywordsFrom_line, htext]
  congr 2
  simp only [length_cons, length_append, length_nil]
  omega

theorem typeKeywordsFrom_line (line : Line) (pos : Nat) (hbefore : ∀ c ∈ before, isBlank c)
    (t : Text) :
    typeKeywordsFrom pos 0 before (maskText (line.grains false) ++ t) =
      line.keywords pos ++ typeKeywordsFrom (pos + line.text.length) 0 (some '\n') t := by
  have hlead := length_maskText (standing_leadGrains line [])
  have hitem := length_maskText (standing_itemGrains line [])
  have hlen : line.text.length = (grainText line.leadGrains).length +
      ((maskText line.itemGrains).length + 1) := by
    rw [← grainText_grains_line, grains_eq_leadGrains, hitem]
    simp
  have htext : maskText (line.grains false) ++ t =
      maskText line.leadGrains ++ (maskText line.itemGrains ++ '\n' :: t) := by
    rw [grains_eq_leadGrains]
    simp
  rw [htext, typeKeywordsFrom_marks (marks_leadGrains line), hlead, hlen, ← Nat.add_assoc]
  cases line with
  | package q =>
    have hkeyless : Keyless (maskText (Line.package q).itemGrains) := by
      rw [Line.itemGrains, maskText_codeGrains]
      exact keyless_package q
    rw [hkeyless.typeKeywordsFrom_line]
    rfl
  | leaf doc indent member =>
    have hkeyless : Keyless (maskText (Line.leaf doc indent member).itemGrains) :=
      member.inert.keyless
    rw [hkeyless.typeKeywordsFrom_line]
    rfl
  | closing indent =>
    have hkeyless : Keyless (maskText (Line.closing indent).itemGrains) :=
      keyless_mark (by decide) (by decide)
    rw [hkeyless.typeKeywordsFrom_line]
    rfl
  | opening doc indent header =>
    have hshape : maskText (Line.opening doc indent header).itemGrains = header.text ++ ['{'] :=
      maskText_codeGrains _
    rw [hshape, typeKeywordsFrom_header header _ (getLast?_leadGrains _ hbefore), Line.keywords,
      singleton_append, length_append, length_singleton, Nat.add_assoc pos]

/-! ### What precedes a type -/

/-- Every line ends with a separator. -/
theorem exists_itemGrains_eq (line : Line) :
    ∃ as c, line.itemGrains = as ++ [(.code, [c])] ∧ (c = ';' ∨ c = '{' ∨ c = '}') := by
  match line with
  | .package q => exact ⟨codeGrains (packageHead q), ';', codeGrains_append _ _, by simp⟩
  | .leaf _ _ (.field f header none) =>
    exact ⟨codeGrains (Leaf.field f header none).head, ';', rfl, by simp⟩
  | .leaf _ _ (.field f header (some value)) =>
    exact ⟨codeGrains (Leaf.field f header (some value)).head ++ (codeGrains ['='] ++ value.grains),
      ';', by simp [Line.itemGrains, Leaf.tailGrains], by simp⟩
  | .leaf _ _ (.method m header body) =>
    exact ⟨codeGrains (Leaf.method m header body).head ++ (codeGrains ['{'] ++ body.grains), '}',
      by simp [Line.itemGrains, Leaf.tailGrains], by simp⟩
  | .opening _ _ header => exact ⟨codeGrains header.text, '{', codeGrains_append _ _, by simp⟩
  | .closing _ => exact ⟨[], '}', rfl, by simp⟩

theorem lead_spaces (ha : AtLineStart a) (n : Nat) :
    (a ++ spaces n).reverse.takeWhile (· ≠ '\n') = spaces n := by
  have hreverse : (a ++ spaces n).reverse = spaces n ++ a.reverse := by
    simp [spaces]
  have hspaces : ∀ c ∈ spaces n, (c ≠ '\n' : Bool) := by
    intro c hc
    rw [eq_of_mem_replicate hc]
    decide
  rw [hreverse, takeWhile_append_of_pos hspaces, lead_eq_nil ha, append_nil]

/-- A comment at the beginning of a line is a documentation comment. -/
theorem isDocComment_docComment (ha : AtLineStart a) (n : Nat) (v b : Text) :
    isDocComment ((a ++ spaces n) ++ (docComment v ++ b))
      ⟨.blockComment, (a ++ spaces n).length, docComment v⟩ = true := by
  have hopen : startsWith "/**".toList (docComment v) = true :=
    startsWith_iff.mpr ⟨' ' :: (v ++ " */".toList), by simp [docComment]⟩
  have hall : (spaces n).all (· = ' ') = true := by
    simp [spaces]
  simp only [isDocComment, lineLead_append, lead_spaces ha, hall, hopen]
  rfl

theorem trim_comment {w e : Text} (hw : ∀ c ∈ w, isBlank c) (u : Text) (he : ∀ c ∈ e, isBlank c) :
    trim (w ++ ('/' :: (u ++ '/' :: e))) = '/' :: (u ++ ['/']) := by
  have hstart : (w ++ ('/' :: (u ++ '/' :: e))).dropWhile isBlank = ('/' :: u) ++ '/' :: e := by
    rw [dropWhile_append_of_pos hw]
    exact dropWhile_cons_of_neg (by decide)
  rw [trim, trimBoth, hstart, trimEnd_append_cons _ (by decide) he]
  simp

/-- A comment that says something is no banner, also with white space around it. -/
theorem isBanner_docComment (n : Nat) (v : Text) (hb : ∀ c ∈ b, isBlank c) :
    isBanner (spaces n ++ (docComment v ++ b)) = false := by
  have hspaces : ∀ c ∈ spaces n, isBlank c := by
    intro c hc
    rw [eq_of_mem_replicate hc]
    decide
  have htrim := trim_comment hspaces ("** ".toList ++ (v ++ [' ', '*'])) hb
  have htext : spaces n ++ (docComment v ++ b) =
      spaces n ++ ('/' :: ("** ".toList ++ (v ++ [' ', '*']) ++ '/' :: b)) := by
    simp [docComment]
  rw [isBanner, htext, htrim]
  simp

/-- What precedes the item of a line on which a type begins. -/
theorem precedent_leadGrains (hpre : AtBreak pre) (line : Line)
    (htext : text = grainText (pre ++ line.leadGrains) ++ b) :
    precedent text (pre ++ line.leadGrains) =
      if line.doc?.isSome then .documentation
      else if pre = [] then .beginning else .code ((grainText pre).length - 2) := by
  have hblank : precedent text (pre ++ line.leadGrains) =
      precedent text (pre ++ commentGrains (line.comment? false)) := by
    rw [Line.leadGrains, ← append_assoc]
    refine precedent_append text _ fun c hc => ?_
    rw [eq_of_mem_replicate hc]
    decide
  rw [hblank]
  cases hdoc : line.doc? with
  | some doc =>
    have hcomment : line.comment? false = some (doc.indent, doc.text) := by
      simp [Line.comment?, hdoc]
    have hsplit : pre ++ commentGrains (some (doc.indent, doc.text)) =
        ((pre ++ codeGrains (spaces doc.indent)) ++ [(.blockComment, docComment doc.text)]) ++
          [(.code, ['\n'])] := by
      simp [commentGrains]
    rw [hcomment, hsplit, precedent_code _ _ (by decide) (by decide), if_neg (by decide)]
    refine precedent_comment ?_ ?_ ?_ ?_
    · exact endsWith_iff.mpr ⟨"/** ".toList ++ (doc.text ++ [' ']), by simp [docComment]⟩
    · simp [docComment]
    · have h := isDocComment_docComment (atLineStart_of_atBreak hpre) doc.indent doc.text
        ('\n' :: (spaces line.indent ++ b))
      rw [htext, Line.leadGrains, hcomment]
      simpa [commentGrains] using h
    · have h := isBanner_docComment 0 doc.text (b := []) (by simp)
      simpa [spaces] using h
  | none =>
    have hcomment : line.comment? false = none := by
      simp [Line.comment?, hdoc]
    rw [hcomment, commentGrains, append_nil]
    rcases hpre with rfl | ⟨as, c, rfl, hc⟩
    · rfl
    · have hsplit : as ++ [(.code, [c]), (.code, ['\n'])] =
          (as ++ [(.code, [c])]) ++ [((.code, ['\n']) : Grain)] := by
        simp
      have hparen : c ≠ '(' ∧ c ≠ ')' := by
        rcases hc with rfl | rfl | rfl <;> decide
      rw [hsplit, precedent_code _ _ (by decide) (by decide), if_neg (by decide),
        precedent_code _ _ hparen.1 hparen.2, if_pos hc]
      simp

/-- A placeholder on a line of its own goes right behind a line that ends with a separator. -/
theorem placeAfter_atBreak {masked : Text} (hpre : AtBreak pre) (hne : pre ≠ []) {lead : Text}
    (htext : text = grainText pre ++ (lead ++ b)) :
    placeAfter text masked ((grainText pre).length - 2) ((grainText pre).length + lead.length) =
      ((grainText pre).length, .line) := by
  obtain ⟨as, c, rfl, -⟩ := hpre.resolve_left hne
  have hlen : (grainText (as ++ [(.code, [c]), (.code, ['\n'])])).length =
      (grainText as).length + 2 := by
    simp
  have hslice : slice text ((grainText as).length + 1) ((grainText as).length + 2 + lead.length) =
      '\n' :: lead := by
    refine slice_eq_of_append (a := grainText as ++ [c]) (c := b) ?_ ?_ ?_
    · simp [htext]
    · simp
    · simp only [length_cons]
      omega
  rw [hlen, Nat.add_sub_cancel, placeAfter, hslice]
  rfl

/-- Nothing before the keyword of a type separates it from what precedes its header. -/
theorem separators_lead (header : Header (.type h)) :
    ∀ c ∈ header.lead, c ∉ [';', '{', '}', '(', ')'] := by
  obtain ⟨-, -, -, -, hlead, -⟩ := header.exists_keyword
  have hgaps : (modifierMarks.all fun c => c ∉ [';', '{', '}', '(', ')']) = true := by decide
  have hmarks : ∀ c ∈ modifierMarks, c ∉ [';', '{', '}', '(', ')'] := fun c hc => by
    simpa using all_eq_true.mp hgaps c hc
  intro c hc
  rcases hlead with hnil | ⟨m, g, hlead, hg, hm⟩
  · simp [hnil] at hc
  · rw [hlead, mem_append, mem_singleton] at hc
    rcases hc with hc | rfl
    · rcases hm.mem c hc with hword | hmark
      · have hall : ([';', '{', '}', '(', ')'].all fun c => !isWord c) = true := by decide
        intro hmem
        have hnot := all_eq_true.mp hall c hmem
        simp [hword] at hnot
      · exact hmarks c hmark
    · exact hmarks c (mem_cons_of_mem _ hg)

/-- A type gets a placeholder if it has no comment, before the line on which it begins. -/
theorem placeholderFor?_opening (hpre : AtBreak pre) (doc : Option DocLine) (indent : Nat)
    (header : Header (.type h))
    (hgrains : Source.grains text = pre ++ ((Line.opening doc indent header).grains false ++
      post)) :
    placeholderFor? text (mask text) ((segments text).flatMap (marksOf text))
        ((grainText pre).length + ((grainText (Line.opening doc indent header).leadGrains).length +
          header.lead.length)) =
      if doc.isSome then none else some ((grainText pre).length, .line) := by
  obtain ⟨d, rest, hheader, -⟩ := header.exists_keyword
  obtain ⟨c, v, hkeyword⟩ := exists_cons_of_ne_nil (of_mem_typeWords h.mem).1
  have hsplit : grains text =
      ((pre ++ (Line.opening doc indent header).leadGrains) ++ codeGrains header.lead) ++
        (.code, [c]) :: (codeGrains (v ++ d :: (rest ++ ['{', '\n'])) ++ post) := by
    rw [hgrains, grains_eq_leadGrains, Line.itemGrains, hheader, hkeyword]
    simp
  have htext := eq_of_grains_eq hsplit
  have hprecedent := precedent_leadGrains hpre (Line.opening doc indent header)
    (htext.trans (by rw [grainText_append, append_assoc]))
  have hplace := placeholderFor?_eq hsplit
  rw [precedent_append text _ (separators_lead header), hprecedent] at hplace
  simp only [grainText_append, grainText_codeGrains, length_append, Nat.add_assoc] at hplace
  rw [hplace]
  cases doc with
  | some doc => rfl
  | none =>
    by_cases hnil : pre = []
    · simp [Line.doc?, hnil]
    · simp only [grainText_append, grainText_codeGrains, append_assoc] at htext
      rw [← append_assoc _ header.lead] at htext
      simp only [Line.doc?, Option.isSome_none, Bool.false_eq_true, if_false, if_neg hnil]
      rw [← length_append, placeAfter_atBreak hpre hnil htext]

/-! ### Placeholders and comments -/

theorem doc?_eq_none {line : Line} (h : line.needsMark = true) : line.doc? = none := by
  cases line with
  | package q => rfl
  | leaf doc indent member => simp [Line.needsMark] at h
  | closing indent => rfl
  | opening doc indent header =>
    cases doc with
    | none => rfl
    | some doc => simp [Line.needsMark] at h

/-- A placeholder comes before the rest of its line. -/
theorem grains_marked (line : Line) :
    line.grains true = (if line.needsMark then Placeholder.line.grains else []) ++
      line.grains false := by
  by_cases hmark : line.needsMark
  · have hcomment : line.comment? false = none := by simp [Line.comment?, doc?_eq_none hmark]
    have hbody : Placeholder.line.body = docComment "javadoc-merge placeholder".toList := by
      decide
    rw [if_pos hmark, Line.grains, Line.grains, hcomment, Line.comment?]
    simp only [hmark, Bool.and_self, if_true, commentGrains, nil_append, Placeholder.grains, hbody]
    rfl
  · simp [Line.grains, Line.comment?, hmark]

/-- There are no comments in what stands on a line. -/
theorem ne_blockComment_of_mem_itemGrains {line : Line} :
    ∀ g ∈ line.itemGrains, g.1 ≠ .blockComment := by
  match line with
  | .package _ | .opening _ _ _ | .closing _ => exact ne_of_mem_codeGrains
  | .leaf _ _ member => exact member.inert.ne_blockComment

theorem plain_codeGrains (w : Text) : ∀ g ∈ codeGrains w, Scanner.Plain g := by
  intro g hg hblock
  obtain ⟨c, -, rfl⟩ := mem_map.mp hg
  simp at hblock

theorem not_word_infix_docComment {v : Text} (h : ¬ Placeholder.word <:+: v) :
    ¬ Placeholder.word <:+: docComment v := by
  intro hword
  have hout : ∀ w : Text, (w.all (· ∉ Placeholder.word)) = true → ∀ c ∈ w, c ∉ Placeholder.word :=
    fun w hw c hc => by simpa using all_eq_true.mp hw c hc
  exact h (infix_of_infix_append_right (by decide) (hout _ (by decide))
    (infix_of_infix_append_left (by decide) (hout _ (by decide)) hword))

theorem plain_commentGrains (doc : DocLine) :
    ∀ g ∈ commentGrains (some (doc.indent, doc.text)), Scanner.Plain g := by
  intro g hg
  rcases mem_append.mp hg with hg | hg
  · exact plain_codeGrains _ g hg
  · rcases mem_cons.mp hg with rfl | hg
    · exact fun _ => not_word_infix_docComment doc.unmarked
    · exact plain_codeGrains ['\n'] g hg

/-- No comment of a line is taken for a placeholder. -/
theorem plain_line (line : Line) : ∀ g ∈ line.grains false, Scanner.Plain g := by
  have hitem : ∀ g ∈ line.itemGrains, Scanner.Plain g := fun g hg hblock =>
    absurd hblock (ne_blockComment_of_mem_itemGrains g hg)
  have hcomment : ∀ g ∈ commentGrains (line.comment? false), Scanner.Plain g := by
    intro g hg
    cases hdoc : line.doc? with
    | none => simp [Line.comment?, hdoc, commentGrains] at hg
    | some doc =>
      have hsome : line.comment? false = some (doc.indent, doc.text) := by
        simp [Line.comment?, hdoc]
      exact plain_commentGrains doc g (hsome ▸ hg)
  intro g hg
  rw [Line.grains, mem_append, mem_append, mem_append] at hg
  rcases hg with hg | hg | hg | hg
  · exact hcomment g hg
  · exact plain_codeGrains _ g hg
  · exact hitem g hg
  · exact plain_codeGrains _ g hg

/-! ### Candidates -/

/-- The candidate of the line of a comment that begins at `pos`, with the number of spaces before
the comment and what it says. -/
def commentCandidate (pos : Nat) (codeBefore : Bool) (comment : Nat × Text) : Candidate where
  start := pos
  commentStop := pos + (comment.1 + (docComment comment.2).length)
  stop := pos + (comment.1 + (docComment comment.2).length) + 1
  codeBefore := codeBefore

/-- The candidate before a line that begins at `pos`. -/
def Line.candidates (pos : Nat) (codeBefore : Bool) (line : Line) : List Candidate :=
  (line.comment? true).toList.map (commentCandidate pos codeBefore)

theorem isInk_itemGrains (line : Line) :
    (∀ g ∈ line.itemGrains, g.1 ≠ .blockComment) ∧ line.itemGrains.any isInk = true := by
  refine ⟨ne_blockComment_of_mem_itemGrains, ?_⟩
  · obtain ⟨as, c, hitem, hc⟩ := exists_itemGrains_eq line
    have hink : isInk (.code, [c]) = true := by
      rcases hc with rfl | rfl | rfl <;> decide
    rw [hitem, any_append, any_cons, hink]
    simp

theorem any_isInk_spaces (n : Nat) : (codeGrains (spaces n)).any isInk = false := by
  have hblank : allBlank (spaces n) = true := by
    rw [allBlank, all_eq_true]
    intro c hc
    rw [eq_of_mem_replicate hc]
    decide
  rw [any_isInk_codeGrains, hblank]
  rfl

theorem lineStart_spaces (ha : AtLineStart a) (n : Nat) (b : Text) :
    lineStart ((a ++ spaces n) ++ b) (a ++ spaces n).length = a.length := by
  rw [lineStart, lineLead_append, lead_spaces ha, length_append, Nat.add_sub_cancel]

/-- The candidate of the line of a comment. -/
theorem candidatesFrom_comment (ha : AtLineStart a) (n : Nat) (v b : Text) (codeBefore : Bool)
    (rest : List Segment) :
    candidatesFrom (a ++ (commentLine n v ++ b)) codeBefore
        (placed a.length (commentGrains (some (n, v))) ++ rest) =
      commentCandidate a.length codeBefore (n, v) ::
        candidatesFrom (a ++ (commentLine n v ++ b)) false rest := by
  have htext : a ++ (commentLine n v ++ b) = (a ++ spaces n) ++ (docComment v ++ '\n' :: b) := by
    simp [commentLine]
  have hdoc := isDocComment_docComment ha n v ('\n' :: b)
  have hstart := lineStart_spaces ha n (docComment v ++ '\n' :: b)
  have hdrop : ((a ++ spaces n) ++ (docComment v ++ '\n' :: b)).drop
      ((a ++ spaces n).length + (docComment v).length) = '\n' :: b := by
    rw [← append_assoc, ← length_append, drop_left]
  have hlen : (a ++ spaces n).length = a.length + n := by
    simp [spaces]
  have hsegments : placed a.length (commentGrains (some (n, v))) ++ rest =
      placed a.length (codeGrains (spaces n)) ++
        (⟨.blockComment, (a ++ spaces n).length, docComment v⟩ ::
          (placed ((a ++ spaces n).length + (docComment v).length) (codeGrains ['\n']) ++
            rest)) := by
    simp [commentGrains, placed_append, placed]
  rw [hsegments, htext, candidatesFrom_of_ne _ ne_of_mem_codeGrains, any_isInk_spaces,
    Bool.or_false, candidatesFrom, if_pos hdoc, candidatesFrom_of_ne _ ne_of_mem_codeGrains,
    any_isInk_codeGrains]
  simp only [hstart, Segment.stop, hdrop, head?_cons, if_true, commentCandidate]
  rw [hlen, Nat.add_assoc a.length]
  rfl

/-- The candidate of a comment, if there is one, and code behind it. -/
theorem candidatesFrom_item (comment : Option (Nat × Text)) (ha : comment.isSome → AtLineStart a)
    {own : List Grain} (hne : ∀ g ∈ own, g.1 ≠ .blockComment) (hink : own.any isInk = true)
    (b : Text) (codeBefore : Bool) (rest : List Segment) :
    candidatesFrom (a ++ (grainText (commentGrains comment ++ own) ++ b)) codeBefore
        (placed a.length (commentGrains comment ++ own) ++ rest) =
      comment.toList.map (commentCandidate a.length codeBefore) ++
        candidatesFrom (a ++ (grainText (commentGrains comment ++ own) ++ b)) true rest := by
  have hown : ∀ text pos codeBefore, candidatesFrom text codeBefore (placed pos own ++ rest) =
      candidatesFrom text true rest := by
    intro text pos codeBefore
    rw [candidatesFrom_of_ne text hne, hink, Bool.or_true]
  rw [placed_append, append_assoc]
  cases comment with
  | none => exact hown _ _ _
  | some comment =>
    obtain ⟨n, v⟩ := comment
    rw [grainText_append, grainText_commentGrains, append_assoc]
    simp only [Option.elim_some]
    rw [candidatesFrom_comment (ha rfl), hown]
    rfl

/-- The candidate of a line, and code behind it. -/
theorem candidatesFrom_line (ha : AtLineStart a) (line : Line) (b : Text) (codeBefore : Bool)
    (rest : List Segment) :
    candidatesFrom (a ++ (grainText (line.grains true) ++ b)) codeBefore
        (placed a.length (line.grains true) ++ rest) =
      line.candidates a.length codeBefore ++
        candidatesFrom (a ++ (grainText (line.grains true) ++ b)) true rest := by
  refine candidatesFrom_item (line.comment? true) (fun _ => ha) (fun g hg => ?_) ?_ b
    codeBefore rest
  · rw [mem_append, mem_append] at hg
    rcases hg with hg | hg | hg
    · exact ne_of_mem_codeGrains g hg
    · exact (isInk_itemGrains line).1 g hg
    · exact ne_of_mem_codeGrains g hg
  · rw [any_append, any_append, (isInk_itemGrains line).2, Bool.true_or, Bool.or_true]

/-! ### Lines as stretches -/

theorem endsBroken_line (line : Line) : EndsBroken (line.grains false) := by
  obtain ⟨as, c, hitem, hc⟩ := exists_itemGrains_eq line
  refine ⟨commentGrains (line.comment? false) ++ (codeGrains (spaces line.indent) ++ as), c, ?_, hc⟩
  simp [Line.grains, hitem]

/-- The keyword of a line needs the placeholder of the line. -/
theorem filterMap_keywords (line : Line) (hpre : AtBreak pre)
    (hgrains : Source.grains text = pre ++ (line.grains false ++ post)) :
    (line.keywords (grainText pre).length).filterMap
        (placeholderFor? text (mask text) ((segments text).flatMap (marksOf text))) =
      if line.needsMark then [((grainText pre).length, .line)] else [] := by
  cases line with
  | package q => rfl
  | leaf doc indent member => rfl
  | closing indent => rfl
  | opening doc indent header =>
    have hplace := placeholderFor?_opening hpre doc indent header hgrains
    cases doc with
    | none => simp [Line.keywords, hplace, Line.needsMark]
    | some doc => simp [Line.keywords, hplace, Line.needsMark]

/-- A line with the comment before it is a stretch. -/
def Line.stretch (line : Line) : Stretch where
  grains := line.grains false
  needsMark := line.needsMark
  keywords := fun pos => line.keywords pos
  candidates := fun pos codeBefore => line.candidates pos codeBefore
  standing := standing_grains_line false line
  broken := endsBroken_line line
  plain := plain_line line
  typeKeywordsFrom_eq := fun pos before t hbefore => by
    rw [typeKeywordsFrom_line line pos hbefore, grainText_grains_line]
  placeholderFor?_eq := fun _ _ _ hpre hgrains => filterMap_keywords line hpre hgrains
  candidatesFrom_eq := fun _ b codeBefore rest ha => by
    have h := candidatesFrom_line ha line b codeBefore rest
    rwa [grains_marked] at h

theorem marked_stretch (line : Line) : line.stretch.marked = line.grains true :=
  (grains_marked line).symm

end DocGraft.TypeTree
