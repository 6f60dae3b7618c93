import DocGraft.Proofs.TypeBody

/-!
# Scopes of nested types

The scopes of a scanner follow the tree of types in its source: while the lines of a type's members
are passed, the innermost scope is that of the type, apart from scopes that have ended already and
will be left at the next comment. So every member gets the key of its own type.

The main result is `TypeTree.run_visits_documented`.
-/

namespace DocGraft.TypeTree

open Text Source Signature Scanner Declaration

variable {kind : TypeKind}

/-! ### Fields and methods -/

/-- A field or a method with the comment and the number of spaces before it. -/
structure LeafLine where
  doc : Option DocLine
  indent : Nat
  member : Leaf

def LeafLine.line (leaf : LeafLine) : Line :=
  .leaf leaf.doc leaf.indent leaf.member

instance : Form LeafLine where
  text leaf := leaf.line.text
  documented owner leaf :=
    leaf.doc.toList.map fun doc => (leaf.member.declaration.key owner, doc.line)

theorem balanced_leafLine (leaf : LeafLine) : Balanced (maskText (leaf.line.grains true)) := by
  have hbreak : Balanced ['\n'] := balanced_of_notMem (by decide) (by decide)
  have h := (balanced_lead (leaf.line.comment? true) leaf.indent).append
    (leaf.member.inert.balanced.append hbreak)
  simpa [Line.grains, Line.itemGrains, LeafLine.line, Line.indent] using h

/-- The comment of a field or a method is visited with the key in the type around it. -/
theorem visits_leafLine {leaf : LeafLine}
    (hread : reading kind leaf.member.header.text = leaf.member.header.text) {owner : Text}
    (howner : IsName owner) :
    Visits kind (leaf.line.grains true) (fun pos => leaf.line.candidates pos true) owner
      (Form.documented owner leaf) := by
  obtain ⟨doc, indent, member⟩ := leaf
  cases doc with
  | none => exact visits_of_nil _ owner
  | some doc =>
    have hinner : (member.declaration.key owner).declaresInner = false := by cases member <;> rfl
    obtain ⟨c, t, htail, hc⟩ := exists_maskText_tail member
    refine Visits.comment doc (visits_of_nil _ owner) (fun _ => by simp) hinner fun post =>
      ⟨_, _, _, _, (declared_header member.header indent hc (t ++ '\n' :: post)).readAs hread, ?_,
        ofDeclaration_header howner member.header⟩
    simp [LeafLine.line, Line.itemGrains, Line.indent, htail, Leaf.head]

theorem isMember_leafLine {leaf : LeafLine}
    (hread : reading kind leaf.member.header.text = leaf.member.header.text) :
      IsMember kind leaf := by
  have hmarked : markedGrains leaf.line.stretch.needsMark leaf.line.stretch.grains =
      leaf.line.grains true := marked_stretch leaf.line
  refine ⟨{
    toStretch := leaf.line.stretch
    documented := fun owner => Form.documented owner leaf
    balanced := ?_
    codeFirst := codeFirst_line leaf.line
    visits := fun owner howner => ?_ }, grainText_grains_line leaf.line, fun _ _ => rfl⟩
  · rw [hmarked]
    exact balanced_leafLine leaf
  · rw [hmarked]
    exact visits_leafLine hread howner

/-! ### Closing braces -/

/-- A closing brace behind spaces. -/
structure Closing where
  indent : Nat

instance : Form Closing where
  text closing := spaces closing.indent ++ ['}']
  documented _ _ := []

theorem isEnding_closing (closing : Closing) : IsEnding kind closing := by
  refine ⟨{
    inner := codeGrains (spaces closing.indent)
    candidates := fun _ _ => []
    documented := fun _ => []
    standing := (bare_spaces _).standing
    plain := plain_codeGrains _
    keyless := ?_
    balanced := ?_
    candidatesFrom_eq := fun a b codeBefore rest _ => ?_
    codeFirst := fun _ => by simp
    visits := fun owner _ => visits_of_nil _ owner }, by simp [Ending.grains, Form.text],
    fun _ _ => rfl⟩
  · rw [maskText_codeGrains]
    have h := keyless_nil.marks (m := spaces closing.indent) fun c hc =>
      isWord_of_mem_maskMarks (mem_maskMarks_of_spaces hc)
    rwa [List.append_nil] at h
  · simpa [commentGrains] using balanced_lead none closing.indent
  · rw [← codeGrains_append, candidatesFrom_of_ne _ ne_of_mem_codeGrains, any_isInk_codeGrains]
    have hink : allBlank (spaces closing.indent ++ ['}']) = false := by
      rw [allBlank, List.all_append]
      exact Bool.and_eq_false_imp.mpr fun _ => by decide
    rw [hink]
    simp

/-! ### Trees -/

/-- Members and the closing brace behind them, by forms. -/
def Members.toBody (closing : Nat) : {owner : Text} → Members owner → Body LeafLine Closing owner
  | _, nil => .close ⟨closing⟩
  | _, leaf doc indent member rest => .member ⟨doc, indent, member⟩ (rest.toBody closing)
  | _, type doc indent h header distinct body inner rest =>
    .type doc indent h header distinct (body.toBody inner) (rest.toBody closing)

/-- The source of a tree by forms. -/
def unit (tree : TypeTree) : SourceUnit LeafLine Closing where
  package := tree.package
  doc := tree.doc
  indent := tree.indent
  type := tree.type
  header := tree.header
  body := tree.body.toBody tree.closing
  lastBreak := tree.lastBreak

theorem text_toBody {owner : Text} (members : Members owner) (closing : Nat) :
    (members.toBody closing).text = members.lines.flatMap Line.text ++
      (spaces closing ++ ['}']) := by
  induction members generalizing closing with
  | nil => rfl
  | leaf doc indent member rest ih =>
    rw [Members.toBody, Body.text, ih, Members.lines, List.flatMap_cons, List.append_assoc]
    rfl
  | type doc indent h header distinct body inner rest ihBody ihRest =>
    have hclosing : (Line.closing inner).text = spaces inner ++ ['}', '\n'] := rfl
    simp [Members.toBody, Body.text, ihBody, ihRest, Members.lines, hclosing]

theorem documented_toBody {owner : Text} (members : Members owner) (closing : Nat) :
    (members.toBody closing).documented = members.documented := by
  induction members generalizing closing with
  | nil => rfl
  | leaf doc indent member rest ih =>
    rw [Members.toBody, Body.documented, ih, Members.documented]
    rfl
  | type doc indent h header distinct body inner rest ihBody ihRest =>
    rw [Members.toBody, Body.documented, ihBody, ihRest, Members.documented]

theorem text_unit (tree : TypeTree) : tree.unit.text = tree.text := by
  rw [SourceUnit.text, unit, text_toBody, text, lines, ending, SourceUnit.lines, SourceUnit.trail]
  simp

theorem documented_unit (tree : TypeTree) : tree.unit.documented = tree.documented := by
  rw [SourceUnit.documented, documented, unit, documented_toBody]

theorem sound_unit (hkind : kind ≠ .annotationType) (tree : TypeTree) : tree.unit.Sound kind :=
  .of_ne hkind (fun _ _ => isMember_leafLine (reading_of_ne hkind _))
    fun closing _ => isEnding_closing closing

/-- A run over the source of a tree without replacements visits exactly the documented types and
members, in order and each with the key in its innermost type, and then gives the source back. -/
theorem run_visits_documented (tree : TypeTree) (qualifiers : List Name)
    (synthesize : CommentSpan → LocalizedComment → Synthesis) {kind : TypeKind}
    (hkind : kind ≠ .annotationType) :
    (run synthesize (fun _ => none)
        (start tree.text (QualifiedName.text ⟨qualifiers, tree.type.name⟩) kind)).visited =
        tree.documented ∧
      (run synthesize (fun _ => none)
        (start tree.text (QualifiedName.text ⟨qualifiers, tree.type.name⟩)
          kind)).scanner.finish.1 = tree.text := by
  rw [← documented_unit, ← text_unit]
  exact (sound_unit hkind tree).run_visits qualifiers synthesize

/-! ### A nested tree -/

private def sampleField : Field where
  type := { name := Name.typeInt.unqualified }
  name := .lowerX

private def sampleMember : Method where
  returnType := some { name := Name.typeVoid.unqualified }
  name := .lowerM
  parameters := [{
    type := { name := Name.typeInt.unqualified }
    name := .lowerP }]

private def sampleType (keyword : Text) (mem : keyword ∈ typeWords) (name : Name) : TypeHeader where
  keyword := keyword
  mem := mem
  name := name

/-- A string literal with a brace, a type and a comment in it. -/
private def sampleLiteral : Grain :=
  (.stringLiteral, '"' :: "\x7d class D \x7b /**\"".toList)

private theorem inert_sampleLiteral : Inert (sampleLiteral :: codeGrains [';']) := by
  have hsemicolon : Inert (codeGrains [';']) := inert_marks (by simpa using by decide)
  refine hsemicolon.literal (by decide) (by decide) fun t => stands_string_iff.mpr ⟨_, rfl, ?_, rfl⟩
  rintro ⟨hhead, -⟩
  exact absurd (Option.some.inj hhead : '}' = '"') (by decide)

/-- The body that assigns the literal to `s`. -/
private def sampleBody : CodeBlock '{' '}' where
  grains := codeGrains "s=".toList ++ sampleLiteral :: codeGrains [';']
  inert := by
    have hassigned := (inert_word (w := "s".toList) (.of_all (by decide)) (by decide)).append
      (inert_sampleLiteral.marks (m := ['=']) (by simpa using by decide)) (ends_word (by decide) _)
    exact hassigned.braces

/-- A class with a documented method in a documented interface in a class without a comment, and a
documented field behind them. -/
private def sampleTree : TypeTree where
  package := none
  doc := some (DocLine.ofText 0 "outer".toList (by decide))
  indent := 0
  type := .ofClass .upperA
  header := .ofClass .upperA
  body :=
    .type none 1 (.ofClass .upperB) (.ofClass .upperB) (by decide)
      (.type (some (DocLine.ofText 2 "/** inner".toList (by decide))) 2
        (sampleType "interface".toList (by decide) .upperC)
        (.tight _ true (by decide)) (by decide)
        (.leaf (some (DocLine.ofText 3 "m".toList (by decide))) 3
          (.method sampleMember (.tight _ true (by decide)) sampleBody) .nil) 2 .nil) 1
      (.leaf (some (DocLine.ofText 1 "x".toList (by decide))) 1
        (.field sampleField (.tight _ false (by decide)) none) .nil)
  closing := 0
  lastBreak := true

set_option maxRecDepth 4000 in
/-- The source of the tree, and the keys and comments that a run visits. -/
theorem run_visits_documented_nested :
    TypeKind.classType ≠ .annotationType ∧
      sampleTree.text = ("/** outer */\nclass A \x7b\n class B \x7b\n  /** /** inner */\n" ++
        "  interface C \x7b\n   /** m */\n   void m(int p) \x7bs=\"\x7d class D \x7b /**\";\x7d\n"
          ++
        "  \x7d\n \x7d\n /** x */\n int x;\n\x7d\n").toList ∧
      (run (Comment.synthesize {}) (fun _ => none)
          (start sampleTree.text "A".toList .classType)).visited =
        [(⟨"A".toList, "A".toList, [], false⟩, "/** outer */\n".toList),
          (⟨"C".toList, "C".toList, [], true⟩, "  /** /** inner */\n".toList),
          (⟨"C".toList, "m".toList, "(int)".toList, false⟩, "   /** m */\n".toList),
          (⟨"A".toList, "x".toList, [], false⟩, " /** x */\n".toList)] ∧
      (run (Comment.synthesize {}) (fun _ => none)
        (start sampleTree.text "A".toList .classType)).scanner.finish.1 = sampleTree.text := by
  have hkind : TypeKind.classType ≠ .annotationType := by decide
  exact ⟨hkind, by decide +kernel, run_visits_documented sampleTree [] (Comment.synthesize {})
    hkind⟩

end DocGraft.TypeTree
