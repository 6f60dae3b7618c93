import DocGraft.Proofs.ScopeResolution
import DocGraft.Proofs.DocumentedPassages

/-!
# Constants of enumerations

The constants of an enumeration stand in a list with commas between them, each with or without a
comment, an argument list and a body. A scanner reads the constant behind a comment as a
declaration. A comma ends the declaration only before another comment, and an argument list belongs
to it. So a documented constant has its own key if it has no argument list and what follows it is
its body, the end of the list or a documented constant.

The main results are `TypeTree.keyed_entries` and `TypeTree.run_visits_constants`.
-/

namespace DocGraft.Declaration

open Text Signature

/-! ### Names by themselves -/

/-- Pieces of white space. -/
def gapPieces : (gap : Text) → (∀ c ∈ gap, c ∈ gapCharacters) → List Piece
  | [], _ => []
  | c :: gap, h =>
    .gap c (h c List.mem_cons_self) :: gapPieces gap fun d hd => h d (List.mem_cons_of_mem c hd)

theorem spelling_gapPieces (gap : Text) (h : ∀ c ∈ gap, c ∈ gapCharacters) :
    spelling (gapPieces gap h) = gap := by
  induction gap with
  | nil => rfl
  | cons c gap ih => rw [gapPieces, spelling_cons, ih, Piece.text, List.singleton_append]

theorem filterMap_gapPieces (gap : Text) (h : ∀ c ∈ gap, c ∈ gapCharacters) :
    (gapPieces gap h).filterMap Piece.item? = [] := by
  induction gap with
  | nil => rfl
  | cons c gap ih => exact ih _

/-- White space behind an item holds no two items together. -/
theorem isChain_gapPieces {R : Piece → Piece → Prop} (hR : ∀ p c mem, R p (.gap c mem)) (p : Piece)
    (gap : Text) (h : ∀ c ∈ gap, c ∈ gapCharacters) : (p :: gapPieces gap h).IsChain R := by
  induction gap generalizing p with
  | nil => exact .singleton p
  | cons c gap ih => exact List.isChain_cons_cons.mpr ⟨hR p c _, ih _ _⟩

/-- **The key of a name by itself.** -/
theorem Name.ofDeclaration (n : Name) (owner : QualifiedName) {gap : Text}
    (hgap : ∀ c ∈ gap, c ∈ gapCharacters) :
    SignatureKey.ofDeclaration owner.text (n.text ++ gap) =
      .ok { owner := owner.name.text, member := n.text } := by
  have hspells : Spells (.item (.token (.name n.unqualified)) :: gapPieces gap hgap)
      [.token (.name n.unqualified)] := by
    refine ⟨?_, isChain_gapPieces (fun p c mem => ?_) _ gap hgap⟩
    · exact congrArg (_ :: ·) (filterMap_gapPieces gap hgap)
    · cases p <;> rfl
  have hunclung : Unclung (.item (.token (.name n.unqualified)) :: gapPieces gap hgap) := by
    refine isChain_gapPieces (fun p c mem => ?_) _ gap hgap
    cases p with
    | gap d mem => rfl
    | item i => cases i <;> rfl
  have htext : spelling (.item (.token (.name n.unqualified)) :: gapPieces gap hgap) =
      n.text ++ gap := by
    rw [spelling_cons, spelling_gapPieces, Piece.text, Item.text, Token.text, n.text_unqualified]
  have hremains : Remains [.name n.unqualified] [] :=
    ⟨by simpa using n.isSettled.1, by simpa using n.isSettled.2.1, .inl rfl⟩
  have hreduces : Reduces [.name n.unqualified] ([.name n.unqualified] ++ []) :=
    Reduces.name n.unqualified
  obtain ⟨line, hline, htokens, hreduce⟩ :=
    exists_line [] hspells hunclung (.singleton _) hreduces hremains
  rw [← List.nil_append [Token.name n.unqualified]] at htokens
  obtain ⟨lead, rfl, hlead⟩ := exists_concat_of_map hline htokens rfl
  obtain rfl := List.map_eq_nil_iff.mp hlead
  have hmem : ∀ p ∈ [(true, Token.name n.unqualified)], p.2.isSettled ∧ p.2.isLoose = false := by
    simpa using ⟨n.isSettled, rfl⟩
  rw [List.nil_append] at hreduce hline
  rw [reduceParameters_of_notMem (paren_notMem_lineText fun p hp => (hmem p hp).2),
    htext] at hreduce
  have hlast : lastMember? (lineText [(true, Token.name n.unqualified)]) = some n.text := by
    have hsingle : lineText [(true, Token.name n.unqualified)] =
        ' ' :: (n.text ++ ([] ++ [' '])) := by
      simp [lineText, Token.text, n.text_unqualified]
    rw [hsingle]
    exact lastMember?_name n.isName.toIsWord (.inl rfl)
  rw [ofDeclaration_of_reduce hreduce hlast,
    declaredType?_lineText_eq_none hline fun p hp => (hmem p hp).1.2.2,
    (compact_word n.isName.toIsWord).1, (compact_word n.isName.toIsWord).2]
  rfl

end DocGraft.Declaration

namespace DocGraft.TypeTree

open List Text Source Signature Scanner Declaration

/-! ### Constants -/

/-- White space. -/
structure Gap where
  text : Text
  blank : ∀ c ∈ text, c ∈ gapCharacters

/-- No white space. -/
def Gap.none : Gap where
  text := []
  blank := nil_subset_gapCharacters

/-- Code in brackets with white space before it. -/
structure Attachment (opening closing : Char) where
  gap : Gap
  block : CodeBlock opening closing

def Attachment.grains {opening closing : Char} (a : Attachment opening closing) : List Grain :=
  codeGrains (a.gap.text ++ [opening]) ++ (a.block.grains ++ codeGrains [closing])

/-- A constant of an enumeration. -/
structure Constant where
  doc : Option DocLine
  lead : Gap
  name : Name
  arguments : Option (Attachment '(' ')')
  body : Option (Attachment '{' '}')
  gap : Gap

namespace Constant

def restGrains (c : Constant) : List Grain :=
  (c.arguments.map Attachment.grains).getD [] ++ (c.body.map Attachment.grains).getD []

def grains (c : Constant) : List Grain :=
  codeGrains (c.lead.text ++ c.name.text) ++ c.restGrains

end Constant

theorem Gap.idle (gap : Gap) : ∀ c ∈ gap.text, isIdle c := fun c hc =>
  isIdle_of_mem_gap (gap.blank c hc)

namespace Attachment

variable {opening closing : Char}

theorem inert_grains (a : Attachment opening closing) : Inert a.grains := by
  have hgap := a.block.inert.marks a.gap.idle
  simpa [grains] using hgap

theorem head?_maskText (h : isWord opening = false) (a : Attachment opening closing) (t : Text) :
    ∀ c ∈ (maskText a.grains ++ t).head?, isWord c = false := by
  have hmask : maskText a.grains ++ t =
      a.gap.text ++ opening :: (maskText a.block.grains ++ closing :: t) := by
    simp [grains]
  rw [hmask]
  cases hgap : a.gap.text with
  | nil => exact ends_word h _
  | cons d gap =>
    exact ends_word (of_isIdle (a.gap.idle d (by rw [hgap]; exact mem_cons_self))).1.1 _

end Attachment

namespace Constant

theorem any_isInk_grains (c : Constant) : c.grains.any isInk = true := by
  obtain ⟨d, v, hv, hd⟩ := c.name.isName.toIsWord.exists_cons
  have hink : (codeGrains c.name.text).any isInk = true := by
    rw [any_isInk_codeGrains, hv, allBlank, all_cons, isBlank_of_isWord hd]
    rfl
  simp [grains, hink]

/-- What follows the name of a constant does not go on with it, and the scans pass over it. -/
theorem inert_rest (c : Constant) : Inert c.restGrains ∧
    ∀ d ∈ (maskText c.restGrains).head?, isWord d = false := by
  have hpart : ∀ {opening closing : Char}, isWord opening = false →
      ∀ a : Option (Attachment opening closing), Inert ((a.map Attachment.grains).getD []) ∧
        ∀ hs, (∀ d ∈ (maskText hs).head?, isWord d = false) →
          ∀ d ∈ (maskText ((a.map Attachment.grains).getD [] ++ hs)).head?, isWord d = false := by
    intro opening closing h a
    cases a with
    | none => exact ⟨inert_nil, fun _ hhead => hhead⟩
    | some a =>
      refine ⟨a.inert_grains, fun hs _ => ?_⟩
      rw [Option.map_some, Option.getD_some, maskText_append]
      exact a.head?_maskText h _
  obtain ⟨harguments, hhead⟩ := hpart (by decide) c.arguments
  obtain ⟨hbody, hhead'⟩ := hpart (by decide) c.body
  have hend := hhead' [] (by simp)
  rw [append_nil] at hend
  exact ⟨harguments.append hbody hend, hhead _ hend⟩

theorem inert_grains (c : Constant) : Inert c.grains := by
  obtain ⟨hrest, hhead⟩ := c.inert_rest
  have hname :=
    (hrest.codeText c.name.codeText (by decide) (by decide) (.inl hhead)).marks c.lead.idle
  simpa [grains] using hname

end Constant

/-! ### Lists of constants -/

/-- What follows a constant. -/
inductive Separator where
  | comma (gap : Gap)
  | semicolon
  | brace

def Separator.text : Separator → Text
  | comma gap => ',' :: gap.text
  | semicolon => [';', '\n']
  | brace => []

theorem Separator.mem_trailMarks (separator : Separator) :
    ∀ c ∈ separator.text, c ∈ trailMarks := by
  cases separator with
  | comma gap =>
    intro c hc
    rcases mem_cons.mp hc with rfl | hc
    · decide
    · exact mem_append_right _ (gap.blank c hc)
  | semicolon => simpa [text] using by decide
  | brace => simp [text]

/-- A constant and what follows it as a passage of documented code. -/
def Constant.passage (c : Constant) (separator : Separator) : Passage where
  doc := c.doc
  code := c.grains
  trail := c.gap.text ++ separator.text
  key := fun owner => { owner, member := c.name.text }
  standing := c.inert_grains.standing
  uncommented := c.inert_grains.uncommented
  inked := c.any_isInk_grains
  keyless := c.inert_grains.keyless
  balanced := c.inert_grains.balanced
  marks := fun d hd => by
    rcases mem_append.mp hd with hd | hd
    · exact mem_append_right _ (c.gap.blank d hd)
    · exact separator.mem_trailMarks d hd

/-- The list of the constants of an enumeration. -/
structure Constants where
  /-- The constants before the last one, each with the white space behind its comma. -/
  front : List (Constant × Gap)
  last : Constant
  lines : (front ++ [(last, Gap.none)]).IsChain fun p q =>
    q.1.doc.isSome → p.2.text.getLast? = some '\n'

namespace Constants

def all (cs : Constants) : List Constant :=
  cs.front.map Prod.fst ++ [cs.last]

/-- Documented constants are told apart from what follows: they have no argument list, and they have
a body, are the last or have a documented constant behind them. -/
structure Apart (cs : Constants) : Prop where
  arguments : ∀ c ∈ cs.all, c.doc.isSome → c.arguments.isNone
  next : cs.all.IsChain fun c d => c.doc.isSome → c.body.isSome ∨ d.doc.isSome

/-- The constants with what follows each of them. -/
def entries (cs : Constants) (separator : Separator) : List (Constant × Separator) :=
  cs.front.map (fun p => (p.1, .comma p.2)) ++ [(cs.last, separator)]

/-- The passages of a list that ends with a separator. -/
def passages (cs : Constants) (separator : Separator) : List Passage :=
  (cs.entries separator).map fun e => e.1.passage e.2

end Constants

/-! ### Declarations of constants -/

/-- What ends a declaration before anything: a mark at its beginning. -/
structure Ends (c : Char) (t : Text) : Prop where
  mark : isWord c = false ∧ isBlank c = false ∧ c ≠ '/'
  length : ∀ post before, declarationLength? before (c :: (t ++ post)) = some 0

theorem ends_of_mem {c : Char} (hc : c ∈ declarationEnds) (t : Text) : Ends c t := by
  refine ⟨of_mem_declarationEnds hc, fun post before => ?_⟩
  simp only [declarationEnds, mem_cons, not_mem_nil, or_false] at hc
  rw [declarationLength?, if_pos]
  rcases hc with rfl | rfl | rfl | rfl <;> simp

/-- A comma before a comment ends a declaration. -/
theorem ends_comma (gap : Gap) (doc : DocLine) (own : List Grain) :
    Ends ',' (gap.text ++ maskText (commentGrains (some (doc.indent, doc.text)) ++ own)) := by
  refine ⟨by decide, fun post before => ?_⟩
  have hbody : docComment doc.text =
      '/' :: '*' :: (('*' :: ' ' :: (doc.text ++ [' '])) ++ ['*', '/']) := by
    simp [docComment]
  have hblock := maskGrain_block ('*' :: ' ' :: (doc.text ++ [' ']))
  rw [← hbody] at hblock
  obtain ⟨u, hu⟩ :
      ∃ u, (gap.text ++ maskText (commentGrains (some (doc.indent, doc.text)) ++ own)) ++
      post = (gap.text ++ spaces doc.indent) ++ '/' :: '*' :: u := by
    refine ⟨blankOut ('*' :: ' ' :: (doc.text ++ [' '])) ++ '*' :: '/' :: '\n' ::
      (maskText own ++ post), ?_⟩
    simp [commentGrains, hblock]
  have hblank : ∀ c ∈ gap.text ++ spaces doc.indent, isBlank c := by
    intro c hc
    rcases mem_append.mp hc with hc | hc
    · exact isBlank_of_mem_gap (gap.blank c hc)
    · rw [eq_of_mem_replicate hc]
      decide
  have hcomment : startsWith "/*".toList (trimStart ((gap.text ++ maskText (commentGrains
      (some (doc.indent, doc.text)) ++ own)) ++ post)) = true := by
    rw [hu, trimStart, dropWhile_append_of_pos hblank, dropWhile_cons_of_neg (by decide)]
    simp [startsWith, after?]
  rw [declarationLength?, hcomment]
  simp

variable {kind : TypeKind}

/-- A name is declared before what ends a declaration. -/
theorem declares_name (hkind : kind ≠ .annotationType) {owner : Text} (howner : IsName owner)
    (lead gap : Gap) (name : Name)
    {c : Char} {t : Text} (hends : Ends c t) {gs : List Grain}
    (hgs : maskText gs = lead.text ++ (name.text ++ (gap.text ++ c :: t))) :
    Declares kind owner { owner, member := name.text } gs := by
  refine ⟨rfl, fun post =>
    ⟨'\n' :: lead.text, name.text ++ gap.text, c :: (t ++ post), _, Declared.readAs ?_
      (reading_of_ne hkind _), ?_, ?_⟩⟩
  · have hcode : CodeText gapCharacters foreignWords (name.text ++ gap.text) := by
      have hmarks : CodeText gapCharacters foreignWords (gap.text ++ []) :=
        .marks_append gap.blank .nil
      rw [append_nil] at hmarks
      refine .word name.isName.toIsWord name.isName.not_foreign (fun d hd => ?_) hmarks
      exact isWord_of_mem_gap (gap.blank d (mem_of_head? hd))
    have huncommented : Uncommented (name.text ++ gap.text) :=
      uncommented_of_notMem (hcode.notMem (by decide) (by decide))
    have hunended := hcode.unended (by decide) (by decide) huncommented.uncut
    obtain ⟨d, v, hv, hd⟩ := name.isName.toIsWord.exists_cons
    have hblank := isBlank_of_isWord hd
    refine ⟨?_, fun before => ?_, unmatched_commentRule huncommented, ?_⟩
    · have hlead : ∀ e ∈ '\n' :: lead.text, isBlank e := by
        intro e he
        rcases mem_cons.mp he with rfl | he
        · decide
        · exact isBlank_of_mem_gap (lead.blank e he)
      have hat : d ≠ '@' := by
        rintro rfl
        exact absurd hd (by decide)
      rw [hv]
      exact annotationsLength_blank hlead hblank (annotationName?_of_ne hat _)
    · obtain ⟨b, hb⟩ := hunended before c (t ++ post) hends.mark.1 hends.mark.2.1 hends.mark.2.2
      rw [hb, hends.length, Option.map_some, Nat.zero_add]
    · rw [hv]
      exact not_allBlank_cons hblank _
  · rw [hgs]
    simp
  · exact name.ofDeclaration (Name.unqualified ⟨owner, howner⟩) gap.blank

/-- A constant without arguments is declared before its body or before what ends a declaration. -/
theorem declares_constant (hkind : kind ≠ .annotationType) {owner : Text} (howner : IsName owner)
    {c : Constant}
    (harguments : c.arguments.isNone) (separator : Separator) {gs : List Grain}
    (hafter : c.body.isSome ∨ ∃ d t, separator.text ++ maskText gs = d :: t ∧ Ends d t) :
    Declares kind owner ((c.passage separator).key owner) ((c.passage separator).own ++ gs) := by
  have hnone : c.arguments = none := Option.isNone_iff_eq_none.mp harguments
  cases hbody : c.body with
  | some a =>
    refine declares_name hkind howner c.lead a.gap c.name (c := '{')
      (t := maskText a.block.grains ++ '}' :: (c.gap.text ++ (separator.text ++ maskText gs)))
      (ends_of_mem (by decide) _) ?_
    simp [Passage.own, Constant.passage, Constant.grains, Constant.restGrains, hnone, hbody,
      Attachment.grains]
  | none =>
    obtain ⟨d, t, htext, hends⟩ := hafter.resolve_left (by simp [hbody])
    refine declares_name hkind howner c.lead c.gap c.name hends ?_
    simp [Passage.own, Constant.passage, Constant.grains, Constant.restGrains, hnone,
      hbody, ← htext]

/-- Documented constants that are told apart are declared under their names. -/
theorem keyed_entries (hkind : kind ≠ .annotationType) {owner : Text} (howner : IsName owner)
    {separator : Separator}
    {tail : List Grain} (hend : ∃ d t, separator.text ++ maskText tail = d :: t ∧ Ends d t)
    {front : List (Constant × Gap)} {last : Constant}
    (harguments : ∀ c ∈ front.map Prod.fst ++ [last], c.doc.isSome → c.arguments.isNone)
    (hnext : (front.map Prod.fst ++ [last]).IsChain fun c d =>
      c.doc.isSome → c.body.isSome ∨ d.doc.isSome) :
    Keyed kind owner tail ((front.map (fun p => (p.1, Separator.comma p.2)) ++
      [(last, separator)]).map
      fun e => e.1.passage e.2) := by
  induction front with
  | nil =>
    refine ⟨fun hdoc => ?_, trivial⟩
    exact declares_constant hkind howner (harguments last (by simp) hdoc) separator (.inr hend)
  | cons p front ih =>
    obtain ⟨c, gap⟩ := p
    rw [map_cons, cons_append, map_cons]
    refine ⟨fun hdoc => ?_, ih (fun d hd => harguments d (mem_cons_of_mem _ hd)) hnext.tail⟩
    refine declares_constant hkind howner (harguments c (by simp) hdoc) (.comma gap) ?_
    -- The next constant is the last one or another one before it.
    obtain ⟨e, es, hes, hfollows⟩ : ∃ (e : Constant × Separator) (es : List (Constant × Separator)),
        front.map (fun p => (p.1, Separator.comma p.2)) ++ [(last, separator)] = e :: es ∧
          (c.doc.isSome → c.body.isSome ∨ e.1.doc.isSome) := by
      cases front with
      | nil => grind
      | cons q front => grind
    refine (hfollows hdoc).imp_right fun hdoc' => ?_
    obtain ⟨doc, hsome⟩ := Option.isSome_iff_exists.mp hdoc'
    refine ⟨',', _, ?_, ends_comma gap doc ((e.1.passage e.2).own ++
      (passageGrains (es.map fun e => e.1.passage e.2) ++ tail))⟩
    rw [hes]
    simp [Separator.text, passageGrains_cons, Passage.grains, Passage.comment?,
      Constant.passage, hsome]

namespace Constants

/-- The passages of a list stand on their lines. -/
theorem isChain_passages (cs : Constants) (separator : Separator) :
    (cs.passages separator).IsChain Passage.Precedes := by
  obtain ⟨front, last, hlines⟩ := cs
  have hprecedes : ∀ (c : Constant) (gap : Gap) (e : Constant × Separator),
      (e.1.doc.isSome → gap.text.getLast? = some '\n') →
      (c.passage (.comma gap)).Precedes (e.1.passage e.2) := by
    refine fun c gap e hgap => ⟨by simp [Constant.passage, Separator.text], fun hdoc => ?_⟩
    have hlast := hgap hdoc
    have hne : gap.text ≠ [] := by
      intro hnil
      simp [hnil] at hlast
    have htrail : (c.passage (.comma gap)).trail = (c.gap.text ++ [',']) ++ gap.text := by
      simp [Constant.passage, Separator.text]
    grind
  rw [passages, entries]
  induction front with
  | nil => exact .singleton _
  | cons p front ih =>
    have hrest := ih hlines.tail
    cases front with
    | nil =>
      refine isChain_cons_cons.mpr ⟨hprecedes p.1 p.2 (last, separator) ?_, hrest⟩
      exact (isChain_cons_cons.mp hlines).1
    | cons q front =>
      refine isChain_cons_cons.mpr ⟨hprecedes p.1 p.2 (q.1, .comma q.2) ?_, hrest⟩
      exact (isChain_cons_cons.mp hlines).1

theorem passages_eq (cs : Constants) (separator : Separator) :
    cs.passages separator =
      cs.front.map (fun p => p.1.passage (.comma p.2)) ++ [cs.last.passage separator] := by
  simp [passages, entries]

theorem keyed (hkind : kind ≠ .annotationType) (cs : Constants) (hcs : cs.Apart) {owner : Text}
    (howner : IsName owner)
    {separator : Separator} {tail : List Grain}
    (hend : ∃ d t, separator.text ++ maskText tail = d :: t ∧ Ends d t) :
    Keyed kind owner tail (cs.passages separator) :=
  keyed_entries hkind howner hend hcs.arguments hcs.next

end Constants

/-! ### Enumerations -/

/-- A member of a type that can be an enumeration. -/
inductive EnumLine where
  | leaf (line : LeafLine)
  | constants (cs : Constants)

/-- The end of the body of a type that can be an enumeration. -/
inductive EnumEnding where
  | closing (closing : Closing)
  | constants (cs : Constants)

instance : Form EnumLine where
  text
    | .leaf line => Form.text line
    | .constants cs => grainText (passageGrains (cs.passages .semicolon))
  documented owner
    | .leaf line => Form.documented owner line
    | .constants cs => passageKeys owner (cs.passages .semicolon)

instance : Form EnumEnding where
  text
    | .closing closing => Form.text closing
    | .constants cs => grainText (passageGrains (cs.passages .brace)) ++ ['}']
  documented owner
    | .closing closing => Form.documented owner closing
    | .constants cs => passageKeys owner (cs.passages .brace)

/-- Documented constants are told apart from what follows. -/
def EnumLine.Apart : EnumLine → Prop
  | leaf _ => True
  | constants cs => cs.Apart

@[inherit_doc EnumLine.Apart]
def EnumEnding.Apart : EnumEnding → Prop
  | closing _ => True
  | constants cs => cs.Apart

theorem isMember_enumLine (hkind : kind ≠ .annotationType) {line : EnumLine} (h : line.Apart) :
    IsMember kind line := by
  cases line with
  | leaf line =>
    have hline : IsMember kind line := isMember_leafLine (reading_of_ne hkind _)
    exact hline
  | constants cs =>
    have hbroken : EndsBroken (passageGrains (cs.passages .semicolon)) := by
      rw [cs.passages_eq]
      refine ⟨passageGrains (cs.front.map fun p => p.1.passage (.comma p.2)) ++
        (commentGrains (cs.last.passage .semicolon).comment? ++
          (cs.last.grains ++ codeGrains cs.last.gap.text)), ';', ?_, .inl rfl⟩
      simp [passageGrains, Passage.grains, Passage.own, Constant.passage, Separator.text]
    have hlast : (cs.passages .semicolon).getLast? = some (cs.last.passage .semicolon) := by
      rw [cs.passages_eq, getLast?_concat]
    have hbreak : (cs.last.passage .semicolon).trail.getLast? = some '\n' := by
      simp [Constant.passage, Separator.text]
    have hend : ∃ d t, Separator.semicolon.text ++ maskText [] = d :: t ∧ Ends d t :=
      ⟨';', ['\n'], rfl, ends_of_mem (by decide) _⟩
    exact ⟨.ofPassages _ (cs.isChain_passages _) hbroken hlast hbreak fun owner howner =>
      cs.keyed hkind h howner hend, rfl, fun _ _ => rfl⟩

theorem isEnding_enumEnding (hkind : kind ≠ .annotationType) {ending : EnumEnding}
    (h : ending.Apart) : IsEnding kind ending := by
  cases ending with
  | closing closing => exact isEnding_closing closing
  | constants cs =>
    have hne : cs.passages .brace ≠ [] := by
      rw [cs.passages_eq]
      simp
    have hend : ∃ d t, Separator.brace.text ++ maskText (codeGrains ['}']) = d :: t ∧ Ends d t :=
      ⟨'}', [], rfl, ends_of_mem (by decide) _⟩
    refine ⟨.ofPassages _ (cs.isChain_passages _) hne fun owner howner =>
      cs.keyed hkind h howner hend,
      ?_, fun _ _ => rfl⟩
    simp [Ending.grains, Ending.ofPassages, Form.text]

/-- A run over a source with enumerations visits every documented constant that is told apart from
what follows with its own name in the key, besides the documented types and members, and gives the
source back. -/
theorem run_visits_constants (unit : SourceUnit EnumLine EnumEnding) (qualifiers : List Name)
    (synthesize : CommentSpan → LocalizedComment → Synthesis) {kind : TypeKind}
    (hkind : kind ≠ .annotationType) (hmembers : ∀ line ∈ unit.body.members, line.Apart)
    (hendings : ∀ ending ∈ unit.body.endings, ending.Apart) :
    (run synthesize (fun _ => none)
        (start unit.text (QualifiedName.text ⟨qualifiers, unit.type.name⟩) kind)).visited =
        unit.documented ∧
      (run synthesize (fun _ => none) (start unit.text
        (QualifiedName.text ⟨qualifiers, unit.type.name⟩) kind)).scanner.finish.1 = unit.text := by
  have hsound : unit.Sound kind := .of_ne hkind
    (fun line hline => isMember_enumLine hkind (hmembers line hline))
    fun ending hending => isEnding_enumEnding hkind (hendings ending hending)
  exact hsound.run_visits qualifiers synthesize

/-! ### Nested enumerations -/

private def gapOf (s : Text) (h : s.all (· ∈ gapCharacters)) : Gap where
  text := s
  blank := fun c hc => of_decide_eq_true (all_eq_true.mp h c hc)

/-- A constant behind `n` spaces, on a line of its own behind a comment if there is one. -/
private def constantOf (doc : Option DocLine) (n : Nat) (name : Name)
    (arguments : Option (Attachment '(' ')')) (body : Option (Attachment '{' '}')) (gap : Gap) :
    Constant where
  doc := doc
  lead := ⟨spaces n, fun c hc => by rw [eq_of_mem_replicate hc]; decide⟩
  name := name
  arguments := arguments
  body := body
  gap := gap

private def lineEnd : Gap :=
  gapOf ['\n'] (by decide)

/-- The body `{x}`. -/
private def wordBody : CodeBlock '{' '}' where
  grains := codeGrains "x".toList
  inert := (inert_word (.of_all (by decide)) (by decide)).braces

/-- The argument list `(1)`. -/
private def numberList : CodeBlock '(' ')' where
  grains := codeGrains "1".toList
  inert := by
    have hclosing : Inert (codeGrains [')']) := inert_marks (by simpa using by decide)
    have hnumber : Inert (codeGrains "1".toList) := inert_word (.of_all (by decide)) (by decide)
    exact (hnumber.append hclosing (ends_word (by decide) _)).marks (by simpa using by decide)

/-- Two documented constants, and a third one with an argument. -/
private def firstConstants : Constants where
  front := [(constantOf (some (.ofText 1 "a".toList (by decide))) 1 .upperA none none
      .none, lineEnd),
    (constantOf (some (.ofText 1 "b".toList (by decide))) 1 .upperB none
      (some ⟨gapOf [' '] (by decide), wordBody⟩) .none,
      gapOf [' '] (by decide))]
  last := constantOf none 0 .upperC (some ⟨.none, numberList⟩) none .none
  lines := by decide

private def secondConstants : Constants where
  front := [(constantOf none 2 (.ofText "P".toList (by decide)) none none .none, lineEnd)]
  last := constantOf (some (.ofText 2 "q".toList (by decide))) 2 (.ofText "Q".toList (by decide))
    none none lineEnd
  lines := by decide

private def enumHeader (name : Name) : TypeHeader where
  keyword := "enum".toList
  mem := by decide
  name := name

/-- An enumeration with a semicolon behind its constants, in which another one stands without. -/
private def enumUnit : SourceUnit EnumLine EnumEnding where
  package := none
  doc := none
  indent := 0
  type := enumHeader (.ofText "E".toList (by decide))
  header := .tight _ true (by decide)
  body := .member (.constants firstConstants)
    (.type none 1 (enumHeader (.ofText "F".toList (by decide))) (.tight _ true (by decide))
      (by decide)
      (.close (.constants secondConstants)) (.close (.closing ⟨0⟩)))
  lastBreak := true

set_option maxRecDepth 4000 in
theorem run_visits_constants_nested :
    TypeKind.enumType ≠ .annotationType ∧ (∀ line ∈ enumUnit.body.members, line.Apart) ∧
      (∀ ending ∈ enumUnit.body.endings, ending.Apart) ∧
      enumUnit.text =
        ("enum E \x7b\n /** a */\n A,\n /** b */\n B \x7bx\x7d, C(1);\n enum F \x7b\n" ++
        "  P,\n  /** q */\n  Q\n\x7d\n\x7d\n").toList ∧
      (run (Comment.synthesize {}) (fun _ => none)
          (start enumUnit.text "E".toList .enumType)).visited =
        [(⟨"E".toList, "A".toList, [], false⟩, " /** a */\n".toList),
          (⟨"E".toList, "B".toList, [], false⟩, " /** b */\n".toList),
          (⟨"F".toList, "Q".toList, [], false⟩, "  /** q */\n".toList)] ∧
      (run (Comment.synthesize {}) (fun _ => none)
        (start enumUnit.text "E".toList .enumType)).scanner.finish.1 = enumUnit.text := by
  have hkind : TypeKind.enumType ≠ .annotationType := by decide
  have hmembers : ∀ line ∈ enumUnit.body.members, line.Apart := by
    intro line hline
    obtain rfl := List.mem_singleton.mp hline
    exact ⟨by decide, by decide⟩
  have hendings : ∀ ending ∈ enumUnit.body.endings, ending.Apart := by
    intro ending hending
    rcases List.mem_cons.mp hending with rfl | hending
    · exact ⟨by decide, by decide⟩
    · obtain rfl := List.mem_singleton.mp hending
      trivial
  exact ⟨hkind, hmembers, hendings, by decide +kernel,
    run_visits_constants enumUnit [] (Comment.synthesize {}) hkind hmembers hendings⟩

/-! ### A documented constant before one without a comment -/

private def mixedConstants : Constants where
  front := [(constantOf (some (.ofText 1 "a".toList (by decide))) 1 .upperA none none
    .none, gapOf [' '] (by decide))]
  last := constantOf none 0 .upperB none none .none
  lines := by decide

private def mixedUnit : SourceUnit EnumLine EnumEnding where
  package := none
  doc := none
  indent := 0
  type := enumHeader (.ofText "E".toList (by decide))
  header := .tight _ true (by decide)
  body := .member (.constants mixedConstants) (.close (.closing ⟨0⟩))
  lastBreak := true

/-- A comma before a constant without a comment does not end the declaration, so that the key is
that of the constant behind the comma. -/
theorem run_visits_constants_mixed :
    mixedUnit.text = "enum E \x7b\n /** a */\n A, B;\n\x7d\n".toList ∧
      mixedUnit.documented = [(⟨"E".toList, "A".toList, [], false⟩, " /** a */\n".toList)] ∧
      (run (Comment.synthesize {}) (fun _ => none)
          (start mixedUnit.text "E".toList .enumType)).visited =
        [(⟨"E".toList, "B".toList, [], false⟩, " /** a */\n".toList)] :=
  ⟨by decide +kernel, by decide +kernel, by decide +kernel⟩

end DocGraft.TypeTree
