import DocGraft.Proofs.DocumentedPassages
import DocGraft.Proofs.NotedHeaders

/-!
# Keys without regard to annotations

The keys that a scanner finds for the methods of a source are those that it finds without the
annotations of the methods, if nothing in the argument lists of annotations ends a declaration.
Annotations before the first token of a method may have any arguments. An argument list behind the
first token, with `=` in it, makes the name before the `=` be taken for the name of a field.

The main result is `TypeTree.run_visits_annotated`.
-/

/-! ## Annotated methods -/

namespace DocGraft.TypeTree

open List Text Source Signature Scanner Declaration

/-- What follows the parameters of a method. -/
structure MethodTail where
  exceptions : List QualifiedName
  body : Option (CodeBlock '{' '}')

namespace MethodTail

/-- The exceptions of a method, behind the keyword and with commas between them. -/
def throwsText : List QualifiedName → Text
  | [] => []
  | q :: qs => "throws".toList ++ ' ' :: (q.text ++ (qs.flatMap fun q => ',' :: ' ' :: q.text))

def grains (tail : MethodTail) : List Grain :=
  codeGrains (throwsText tail.exceptions) ++ bodyGrains tail.body

/-- The words that have a meaning to the scans of a source but for the one before exceptions. -/
def keyWords : List Text :=
  foreignWords.filter (· ≠ "throws".toList)

theorem codeText_throwsText (qs : List QualifiedName) :
    CodeText headerMarks keyWords (throwsText qs) := by
  have hname : ∀ q : QualifiedName, CodeText headerMarks keyWords q.text := fun q =>
    q.codeText.mono (fun c hc => hc) fun w hw => (mem_filter.mp hw).1
  have hrest : ∀ qs : List QualifiedName,
      CodeText headerMarks keyWords (qs.flatMap fun q => ',' :: ' ' :: q.text) := by
    intro qs
    induction qs with
    | nil => exact .nil
    | cons q qs ih =>
      rw [flatMap_cons]
      refine .mark (by decide) (.mark (by decide) ((hname q).append ih (.inl ?_)))
      cases qs with
      | nil => simp
      | cons q' qs => exact ends_word (by decide) _
  cases qs with
  | nil => exact .nil
  | cons q qs =>
    refine .word (.of_all (by decide)) (by decide) (ends_word (by decide) _)
      (.mark (by decide) ((hname q).append (hrest qs) (.inl ?_)))
    cases qs with
    | nil => simp
    | cons q' qs => exact ends_word (by decide) _

theorem endsDeclaration (tail : MethodTail) (t : Text) :
    EndsDeclaration (maskText tail.grains ++ t) := by
  obtain ⟨c, u, hu, hc⟩ := exists_maskText_bodyGrains tail.body
  rw [grains, maskText_append, maskText_codeGrains, hu]
  cases tail.exceptions with
  | nil => exact endsDeclaration_mark hc _
  | cons q qs =>
    have hspace : isWord ' ' = false := by decide
    have h := endsDeclaration_throws (ends_word hspace
      ((q.text ++ qs.flatMap fun q => ',' :: ' ' :: q.text) ++ (c :: u ++ t)))
    simpa [throwsText] using h

theorem inert (tail : MethodTail) : Inert tail.grains := by
  obtain ⟨c, u, hu, hc⟩ := exists_maskText_bodyGrains tail.body
  refine (inert_bodyGrains tail.body).codeText (codeText_throwsText tail.exceptions) (by decide)
    (by decide) (.inl ?_)
  rw [hu]
  exact ends_word (of_mem_declarationEnds hc).1 u

/-- What follows the parameters of a method ends with a separator. -/
theorem exists_grains_eq (tail : MethodTail) :
    ∃ as c, tail.grains = as ++ [(.code, [c])] ∧ (c = ';' ∨ c = '}') := by
  obtain ⟨as, c, hbody, hc⟩ := exists_bodyGrains_eq tail.body
  exact ⟨codeGrains (throwsText tail.exceptions) ++ as, c,
    by rw [grains, hbody, append_assoc], hc⟩

end MethodTail

/-- A method with its annotations as it stands in a source. -/
structure AnnotatedMethod where
  method : Method
  pieces : List SourcePiece
  spells : Spells (maskedPieces pieces) (Declaration.method method).items
  unclung : Unclung (maskedPieces pieces)
  tail : MethodTail

namespace AnnotatedMethod

def grains (m : AnnotatedMethod) : List Grain :=
  pieceGrains m.pieces ++ m.tail.grains

/-- The annotations and the white space before the first token. -/
def lead (m : AnnotatedMethod) : List SourcePiece :=
  m.pieces.takeWhile fun p => p.masked.isLeading

/-- The pieces from the first token on. -/
def core (m : AnnotatedMethod) : List SourcePiece :=
  m.pieces.dropWhile fun p => p.masked.isLeading

/-- Nothing in the argument lists behind the first token ends a declaration. -/
def Unending (m : AnnotatedMethod) : Prop :=
  m.core.all SourcePiece.isUnending = true

theorem lead_append_core (m : AnnotatedMethod) :
    maskedPieces m.pieces = maskedPieces m.lead ++ maskedPieces m.core := by
  simp [maskedPieces, ← map_append, lead, core]

def header (m : AnnotatedMethod) : NotedHeader (.method m.method) where
  pieces := m.pieces.map .piece
  spells := by
    rw [unnoted_pieces, readPieces_pieces]
    exact m.spells
  unclung := by
    rw [unnoted_pieces, readPieces_pieces]
    exact m.unclung
  exceptions := none
  spaced := spaced_none
  thrown := by simp

theorem lead_header (m : AnnotatedMethod) : m.header.lead = m.lead.map .piece :=
  takeWhile_map

theorem core_header (m : AnnotatedMethod) : m.header.core = m.core.map .piece :=
  dropWhile_map

theorem isMember_of_mem (m : AnnotatedMethod) {t : Declaration.Token} (h : .token t ∈ m.pieces) :
    t.isMember := by
  refine Method.isMember_of_mem (m := m.method) ?_
  have hitems : (maskedPieces m.pieces).filterMap Piece.item? = m.method.items := m.spells.items_eq
  rw [← hitems, mem_filterMap]
  exact ⟨.item (.token t), mem_map.mpr ⟨.token t, h, rfl⟩, rfl⟩

theorem maskText_grains (m : AnnotatedMethod) :
    maskText m.grains = spelling (maskedPieces m.pieces) ++ maskText m.tail.grains := by
  rw [grains, maskText_append, maskText_pieceGrains]

theorem keyless_grains (m : AnnotatedMethod) : Keyless (maskText m.grains) := by
  rw [maskText_grains]
  refine keyless_pieces m.spells.apart (fun t => m.isMember_of_mem) m.tail.inert.keyless
    fun i hi hword => ?_
  -- The last item is the closing parenthesis.
  obtain ⟨pieces, hpieces⟩ := getLast?_eq_some_iff.mp hi
  have hitems : (maskedPieces m.pieces).filterMap Piece.item? = m.method.items := m.spells.items_eq
  rw [hpieces, filterMap_append, Method.items, ← append_assoc, ← append_assoc] at hitems
  obtain rfl : i = .token (.mark .closeParen) := (List.cons.inj (append_inj' hitems rfl).2).1
  cases hword

theorem inert_grains (m : AnnotatedMethod) : Inert m.grains where
  standing t := standing_append.mpr ⟨standing_pieceGrains _ _, m.tail.inert.standing t⟩
  uncommented g hg :=
    (mem_append.mp hg).elim (uncommented_pieceGrains _ g) (m.tail.inert.uncommented g)
  keyless := m.keyless_grains
  balanced := by
    rw [maskText_grains]
    exact (balanced_pieces m.pieces).append m.tail.inert.balanced

theorem any_isInk_grains (m : AnnotatedMethod) : m.grains.any isInk = true := by
  obtain ⟨as, c, htail, hc⟩ := m.tail.exists_grains_eq
  have hink : isInk (.code, [c]) = true := by
    rcases hc with rfl | rfl <;> decide
  simp [grains, htail, hink]

end AnnotatedMethod

/-- A method is read as a declaration behind the annotations before its first token, and has the key
that its tokens give it. -/
theorem declared_annotated {m : AnnotatedMethod} (hm : m.Unending) {w : Text}
    (hw : ∀ c ∈ w, isBlank c) {after : Text} (hafter : EndsDeclaration after) :
    Declared (w ++ spelling (maskedPieces m.lead)) (spelling (maskedPieces m.core)) after := by
  have hreadable : m.header.isReadable := by
    rw [NotedHeader.isReadable, m.core_header, ← unnoted_pieces m.core, NotedHeader.isUncut_unnoted,
      unnoted_pieces, all_map, Bool.and_true]
    exact hm
  have hlength := NotedHeader.declarationLength?_core hreadable hafter
  have hlead := (m.header.precede hafter).annotationsLength hw
  have hblank := m.header.not_allBlank_core
  rw [m.core_header, shown_pieces] at hlength
  rw [m.lead_header, m.core_header, shown_pieces, readPieces_pieces] at hlead
  rw [m.core_header, readPieces_pieces] at hblank
  exact ⟨hlead, hlength, unmatched_commentRule (uncommented_pieces m.core), hblank⟩

/-- The annotations of a method do not count in its key. -/
theorem ofDeclaration_annotated (m : AnnotatedMethod) {owner : Text} (howner : IsName owner) :
    SignatureKey.ofDeclaration owner (spelling (maskedPieces m.core)) =
      .ok ((Declaration.method m.method).key owner) := by
  have h := m.header.ofDeclaration_core (Name.unqualified ⟨owner, howner⟩)
  rwa [m.core_header, readPieces_pieces] at h

end DocGraft.TypeTree

/-! ## Keys without regard to annotations -/

namespace DocGraft.Declaration

open List

/-! ### Methods without annotations -/

theorem Method.isSome_token?_of_mem_unannotated {m : Method} {i : Item}
    (h : i ∈ m.unannotated.items) : i.token?.isSome := by
  rw [Method.items, mem_append, mem_append, mem_append] at h
  rcases h with h | h | h | h
  · obtain ⟨modifier, hmodifier, rfl⟩ := mem_map.mp h
    cases modifier with
    | word w mem => rfl
    | annotationUse a => cases (mem_filter.mp hmodifier).2
  · obtain ⟨t, -, rfl⟩ := mem_map.mp h
    rfl
  · rcases of_mem_separated h with rfl | ⟨p, hp, hi⟩
    · rfl
    · obtain ⟨q, -, rfl⟩ := mem_map.mp hp
      obtain ⟨t, -, rfl⟩ := mem_map.mp (show i ∈ _ from hi)
      rfl
  · rw [mem_singleton.mp h]
    rfl

end DocGraft.Declaration

namespace DocGraft.TypeTree

open Text Source Signature Scanner Declaration

variable {kind : TypeKind}

theorem unending_unannotated {m : AnnotatedMethod} {method : Method}
    (h : m.method = method.unannotated) : m.Unending := by
  refine List.all_eq_true.mpr fun p hp => ?_
  cases p with
  | gap c mem => rfl
  | token t => rfl
  | annotationUse a =>
    have hmem : Item.annotationUse a.masked ∈ method.unannotated.items := by
      have hitems : (maskedPieces m.pieces).filterMap Piece.item? = m.method.items :=
        m.spells.items_eq
      rw [← h, ← hitems, List.mem_filterMap]
      exact ⟨_, List.mem_map.mpr ⟨_, (List.dropWhile_sublist _).subset hp, rfl⟩, rfl⟩
    cases Method.isSome_token?_of_mem_unannotated hmem

/-! ### Methods as members -/

/-- A method with the comment before it. -/
structure MethodLine where
  doc : Option DocLine
  member : AnnotatedMethod

/-- A method as a passage of documented code. -/
def MethodLine.passage (line : MethodLine) : Passage where
  doc := line.doc
  code := line.member.grains
  trail := ['\n']
  key := fun owner => (Declaration.method line.member.method).key owner
  standing := line.member.inert_grains.standing
  uncommented := line.member.inert_grains.uncommented
  inked := line.member.any_isInk_grains
  keyless := line.member.inert_grains.keyless
  balanced := line.member.inert_grains.balanced
  marks := newline_subset_trailMarks

instance : Form MethodLine where
  text line := grainText line.passage.grains
  documented owner line := passageKeys owner [line.passage]

/-- A method whose annotations end no declaration, as a member: its comment is the only candidate in
it and is visited with its key. -/
theorem exists_member_methodLine (hkind : kind ≠ .annotationType) {line : MethodLine}
    (h : line.member.Unending) : ∃ m : Member kind, m.grains = line.passage.grains ∧
      m.needsMark = false ∧
      (∀ pos codeBefore, m.candidates pos codeBefore =
        line.passage.comment?.toList.map (commentCandidate pos codeBefore)) ∧
      ∀ owner, m.documented owner = passageKeys owner [line.passage] := by
  have hbroken : EndsBroken (passageGrains [line.passage]) := by
    obtain ⟨as, c, htail, hc⟩ := line.member.tail.exists_grains_eq
    refine ⟨commentGrains line.passage.comment? ++ (pieceGrains line.member.pieces ++ as), c, ?_,
      by tauto⟩
    simp [passageGrains, Passage.grains, Passage.own, MethodLine.passage, AnnotatedMethod.grains,
      htail]
  have hkeyed : ∀ owner, IsName owner → Keyed kind owner [] [line.passage] := by
    refine fun owner howner => ⟨fun _ => ⟨rfl, fun post => ?_⟩, trivial⟩
    refine ⟨_, _, _, _, (declared_annotated h (w := ['\n']) (by simpa using by decide)
      (line.member.tail.endsDeclaration ('\n' :: post))).readAs (reading_of_ne hkind _), ?_,
      ofDeclaration_annotated line.member howner⟩
    simp [Passage.own, MethodLine.passage, passageGrains, line.member.maskText_grains,
      line.member.lead_append_core, spelling]
  refine ⟨.ofPassages [line.passage] (.singleton _) hbroken rfl rfl hkeyed, ?_, rfl,
    fun pos codeBefore => ?_, fun _ => rfl⟩
  · simp [Member.ofPassages, passageGrains]
  · simp [Member.ofPassages, passageCandidates]

/-- A method whose annotations end no declaration is visited with its key. -/
theorem isMember_methodLine (hkind : kind ≠ .annotationType) {line : MethodLine}
    (h : line.member.Unending) : IsMember kind line := by
  obtain ⟨m, hgrains, -, -, hdocumented⟩ := exists_member_methodLine hkind h
  exact ⟨m, congrArg grainText hgrains, fun owner _ => hdocumented owner⟩

/-- A field or a method. -/
inductive MemberLine where
  | leaf (line : LeafLine)
  | method (line : MethodLine)

namespace MemberLine

instance : Form MemberLine where
  text
    | leaf line => Form.text line
    | method line => Form.text line
  documented owner
    | leaf line => Form.documented owner line
    | method line => Form.documented owner line

/-- Nothing in the argument lists behind the first token of a method ends a declaration. -/
def Unending : MemberLine → Prop
  | leaf _ => True
  | method line => line.member.Unending

/-- The second member is the first one without annotations. -/
def Unannotates : MemberLine → MemberLine → Prop
  | leaf line, leaf line' => line' = line
  | method line, method line' =>
    line'.doc = line.doc ∧ line'.member.method = line.member.method.unannotated
  | _, _ => False

theorem isMember_memberLine (hkind : kind ≠ .annotationType) {line : MemberLine}
    (h : line.Unending) : IsMember kind line := by
  cases line with
  | leaf line =>
    have hline : IsMember kind line := isMember_leafLine (reading_of_ne hkind _)
    exact hline
  | method line => exact isMember_methodLine hkind h

/-- A member has the same documented declarations without annotations. -/
theorem documented_unannotated {line bare : MemberLine} (h : line.Unannotates bare) (owner : Text) :
    Form.documented owner bare = Form.documented owner line := by
  match line, bare with
  | leaf line, leaf line' => rw [show line' = line from h]
  | method line, method line' =>
    obtain ⟨hdoc, hmethod⟩ := h
    have hkey : line'.passage.key owner = line.passage.key owner := by
      rw [MethodLine.passage, MethodLine.passage, hmethod]
      exact key_unannotated line.member.method owner
    have hpassage : line'.passage.doc = line.passage.doc := hdoc
    have hkeys : passageKeys owner [line'.passage] = passageKeys owner [line.passage] := by
      simp [passageKeys, hkey, hpassage]
    exact hkeys
  | leaf _, method _ => exact absurd h id
  | method _, leaf _ => exact absurd h id

theorem unending_of_unannotates {line bare : MemberLine} (h : line.Unannotates bare) :
    bare.Unending := by
  match line, bare with
  | leaf _, leaf _ => trivial
  | method line, method line' => exact unending_unannotated h.2
  | leaf _, method _ => exact absurd h id
  | method _, leaf _ => exact absurd h id

end MemberLine

/-! ### Whole sources -/

theorem sound_of_unending (hkind : kind ≠ .annotationType) {unit : SourceUnit MemberLine Closing}
    (h : ∀ line ∈ unit.body.members, line.Unending) : unit.Sound kind :=
  .of_ne hkind (fun line hline => MemberLine.isMember_memberLine hkind (h line hline))
    fun closing _ => isEnding_closing closing

/-- If nothing in the argument lists of annotations behind the first token of a method ends a
declaration, a run without replacements visits the same comments with the same keys as without the
annotations of all methods. -/
theorem run_visits_annotated (unit : SourceUnit MemberLine Closing) (bare : MemberLine → MemberLine)
    (qualifiers : List Name) (synthesize : CommentSpan → LocalizedComment → Synthesis)
    {kind : TypeKind} (hkind : kind ≠ .annotationType)
    (hunending : ∀ line ∈ unit.body.members, line.Unending)
    (hbare : ∀ line ∈ unit.body.members, line.Unannotates (bare line)) :
    (run synthesize (fun _ => none)
        (start unit.text (QualifiedName.text ⟨qualifiers, unit.type.name⟩) kind)).visited =
        unit.documented ∧
      (run synthesize (fun _ => none) (start (unit.map bare).text
        (QualifiedName.text ⟨qualifiers, unit.type.name⟩) kind)).visited = unit.documented := by
  have hsound := sound_of_unending hkind hunending
  have hsoundBare : (unit.map bare).Sound kind := by
    refine sound_of_unending hkind fun line hline => ?_
    rw [SourceUnit.map, Body.members_map] at hline
    obtain ⟨line', hline', rfl⟩ := List.mem_map.mp hline
    exact MemberLine.unending_of_unannotates (hbare line' hline')
  have hdocumented : (unit.map bare).documented = unit.documented := by
    have hbody := Body.documented_map bare unit.body fun line hline owner =>
      MemberLine.documented_unannotated (hbare line hline) owner
    rw [SourceUnit.documented, SourceUnit.documented, ← hbody]
    rfl
  exact ⟨(hsound.run_visits qualifiers synthesize).1,
    hdocumented ▸ (hsoundBare.run_visits qualifiers synthesize).1⟩

/-! ### A method with annotations -/

private def sourceSpace : SourcePiece :=
  .gap ' ' space_mem_gapCharacters

private def sourceWord (name : Name) : SourcePiece :=
  .token (.name name.unqualified)

/-- An annotation with an argument list without inner parentheses. -/
private def annotationOf (name : Name) (text shown : Text)
    (h : (∀ g ∈ grains text, g.1.isComment = false) ∧ '(' ∉ shown ∧ ')' ∉ shown ∧
      mask text = '(' :: (shown ++ [')']) ∧ typeKeywords ('(' :: (shown ++ [')'])) = [] ∧
      braceEndFrom 0 1 true ('(' :: (shown ++ [')']) ++ ['}']) =
        some (('(' :: (shown ++ [')'])).length + 1)) : SourceAnnotation where
  name := name.unqualified
  gap := []
  blank := nil_subset_gapCharacters
  arguments := some {
    text := text
    uncommented := h.1
    masked := ⟨⟨shown, h.2.1, h.2.2.1⟩, []⟩
    mask_eq := h.2.2.2.1.trans (by simp [ArgumentList.text])
    typeless := by simpa [ArgumentList.text] using h.2.2.2.2.1
    closed := by simpa [ArgumentList.text] using h.2.2.2.2.2 }
  gap_eq_nil := fun _ => rfl

private def arrayUse : SourceAnnotation :=
  annotationOf .upperA "(x = \x7b\"a;\"\x7d)".toList "x = \x7b\"  \"\x7d".toList
    (by decide +kernel)

private def nameUse : SourceAnnotation :=
  annotationOf .upperB "(y)".toList "y".toList (by decide +kernel)

private def literalUse : SourceAnnotation :=
  annotationOf .upperC "(\"=\")".toList "\" \"".toList (by decide +kernel)

private def valueUse : SourceAnnotation :=
  annotationOf .upperA "(x = 1)".toList "x = 1".toList (by decide +kernel)

private def annotatedMethod : Method where
  modifiers := [.annotationUse arrayUse.masked, publicModifier, .annotationUse nameUse.masked]
  returnType := some { name := Name.typeVoid.unqualified }
  name := .lowerM
  parameters := [{
    annotations := [literalUse.masked]
    type := { name := Name.typeInt.unqualified }
    name := .lowerP }]

/-- A documented method with an empty body. -/
private def lineOf (method : Method) (pieces : List SourcePiece)
    (spells : Spells (maskedPieces pieces) method.items) (unclung : Unclung (maskedPieces pieces)) :
    MethodLine where
  doc := some (.sample 1)
  member := {
    method := method
    pieces := pieces
    spells := spells
    unclung := unclung
    tail := { exceptions := [], body := some .empty } }

private def publicWord : List SourcePiece :=
  [.token (.keyword "public".toList (by decide)), sourceSpace]

/-- The return type, the name and the opening parenthesis of a method. -/
private def voidName : List SourcePiece :=
  [sourceWord .typeVoid, sourceSpace, sourceWord .lowerM, .token (.mark .openParen)]

/-- A parameter and the closing parenthesis. -/
private def lastParameter : List SourcePiece :=
  [sourceWord .typeInt, sourceSpace, sourceWord .lowerP, .token (.mark .closeParen), sourceSpace]

private def annotatedLine : MethodLine :=
  lineOf annotatedMethod
    ([sourceSpace, .annotationUse arrayUse, sourceSpace] ++ publicWord ++
      [.annotationUse nameUse, sourceSpace] ++ voidName ++
      [.annotationUse literalUse, sourceSpace] ++ lastParameter)
    ⟨rfl, by decide⟩ (by unfold Unclung; decide)

private def bareLine : MethodLine :=
  lineOf annotatedMethod.unannotated (sourceSpace :: publicWord ++ voidName ++ lastParameter)
    ⟨rfl, by decide⟩ (by unfold Unclung; decide)

/-- The class `A` with one method. -/
private def classOf (line : MethodLine) : SourceUnit MemberLine Closing where
  package := none
  doc := none
  indent := 0
  type := .ofClass .upperA
  header := .ofClass .upperA
  body := .member (.method line) (.close ⟨0⟩)
  lastBreak := true

theorem run_visits_annotated_before_method :
    TypeKind.classType ≠ .annotationType ∧
      (∀ line ∈ (classOf annotatedLine).body.members, line.Unending) ∧
      (∀ line ∈ (classOf annotatedLine).body.members, line.Unannotates (.method bareLine)) ∧
      (classOf annotatedLine).text = ("class A \x7b\n /** d */\n @A(x = \x7b\"a;\"\x7d) public " ++
        "@B(y) void m(@C(\"=\") int p) \x7b\x7d\n\x7d\n").toList ∧
      ((classOf annotatedLine).map fun _ => MemberLine.method bareLine).text =
        "class A \x7b\n /** d */\n public void m(int p) \x7b\x7d\n\x7d\n".toList ∧
      (run (Comment.synthesize {}) (fun _ => none)
          (start (classOf annotatedLine).text "A".toList .classType)).visited =
        [(⟨"A".toList, "m".toList, "(int)".toList, false⟩, " /** d */\n".toList)] ∧
      (run (Comment.synthesize {}) (fun _ => none) (start
          ((classOf annotatedLine).map fun _ => MemberLine.method bareLine).text "A".toList
          .classType)).visited =
        [(⟨"A".toList, "m".toList, "(int)".toList, false⟩, " /** d */\n".toList)] := by
  have hkind : TypeKind.classType ≠ .annotationType := by decide
  have hunending : ∀ line ∈ (classOf annotatedLine).body.members, line.Unending := by
    intro line hline
    obtain rfl := List.mem_singleton.mp hline
    exact (by decide : annotatedLine.member.core.all SourcePiece.isUnending = true)
  have hbare : ∀ line ∈ (classOf annotatedLine).body.members,
      line.Unannotates (.method bareLine) := by
    intro line hline
    obtain rfl := List.mem_singleton.mp hline
    exact ⟨rfl, rfl⟩
  exact ⟨hkind, hunending, hbare, by decide +kernel, by decide +kernel,
    run_visits_annotated (classOf annotatedLine) (fun _ => .method bareLine) []
      (Comment.synthesize {})
      hkind hunending hbare⟩

/-! ### An argument list that ends a declaration -/

private def valuedMethod : Method where
  modifiers := [publicModifier, .annotationUse valueUse.masked]
  returnType := some { name := Name.typeVoid.unqualified }
  name := .lowerM

private def valuedLine : MethodLine :=
  lineOf valuedMethod (sourceSpace :: publicWord ++ [.annotationUse valueUse, sourceSpace] ++
      voidName ++ [.token (.mark .closeParen), sourceSpace])
    ⟨rfl, by decide⟩ (by unfold Unclung; decide)

private def valuedBareLine : MethodLine :=
  lineOf valuedMethod.unannotated
    (sourceSpace :: publicWord ++ voidName ++ [.token (.mark .closeParen), sourceSpace])
    ⟨rfl, by decide⟩ (by unfold Unclung; decide)

/-- Behind the first token of a method the value of an annotation element ends the declaration, so
that the element is taken for a field. -/
theorem run_visits_annotation_element :
    (∀ line ∈ (classOf valuedLine).body.members, line.Unannotates (.method valuedBareLine)) ∧
      (classOf valuedLine).text =
        "class A \x7b\n /** d */\n public @A(x = 1) void m() \x7b\x7d\n\x7d\n".toList ∧
      (run (Comment.synthesize {}) (fun _ => none)
          (start (classOf valuedLine).text "A".toList .classType)).visited =
        [(⟨"A".toList, "x".toList, [], false⟩, " /** d */\n".toList)] ∧
      (run (Comment.synthesize {}) (fun _ => none) (start
          ((classOf valuedLine).map fun _ => MemberLine.method valuedBareLine).text "A".toList
          .classType)).visited =
        [(⟨"A".toList, "m".toList, "()".toList, false⟩, " /** d */\n".toList)] := by
  refine ⟨fun line hline => ?_, by decide +kernel, by decide +kernel, by decide +kernel⟩
  obtain rfl := List.mem_singleton.mp hline
  exact ⟨rfl, rfl⟩

end DocGraft.TypeTree
