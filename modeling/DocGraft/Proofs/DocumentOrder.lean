import Mathlib.Data.List.Basic
import DocGraft.Markup.Element
import DocGraft.Proofs.TextSearch
import DocGraft.Source.Location

/-!
# Document order

A walk that keeps the list of the trees still to be seen meets the trees in document order, which is
the order of the recursive traversal. It meets a tree once for each place at which the tree stands,
unless one of the trees around it is not entered.

So the elements of a page are met in document order, whatever stands between them. The types at top
level of a source are those of its declarations of types that have no declaration of a type, no
comment and no body around them, and a type is looked up at its first declaration.

The main results are `Tree.select_eq` and `Source.walks_in_document_order`.
-/

namespace DocGraft.Tree

open List

variable {α : Type}

/-- A tree that is met on a walk. -/
structure Visit (α : Type) where
  /-- The trees around it, outermost first. -/
  above : List (Tree α)
  tree : Tree α

mutual

/-- A tree and those below it in document order. -/
def visits (above : List (Tree α)) : Tree α → List (Visit α)
  | node a ts => ⟨above, node a ts⟩ :: visitsAll (above ++ [node a ts]) ts

/-- Trees and those below them in document order. -/
def visitsAll (above : List (Tree α)) : List (Tree α) → List (Visit α)
  | [] => []
  | t :: ts => visits above t ++ visitsAll above ts

end

section Select

variable (keep enter : Tree α → Bool)

theorem onward_append (t : Tree α) (ts us : List (Tree α)) :
    onward enter t (ts ++ us) = onward enter t ts ++ us := by
  unfold onward
  split <;> simp

theorem select_append (ts us : List (Tree α)) :
    select keep enter (ts ++ us) = select keep enter ts ++ select keep enter us := by
  fun_induction select keep enter ts with
  | case1 => rfl
  | case2 t rest hkeep ih => rw [cons_append, select, if_pos hkeep, onward_append, ih, cons_append]
  | case3 t rest hkeep ih => rw [cons_append, select, if_neg hkeep, onward_append, ih]

/-- A walk meets a tree, then what is below it if it is entered, and then the others. -/
theorem select_cons (t : Tree α) (rest : List (Tree α)) :
    select keep enter (t :: rest) = (if keep t then [t] else []) ++
      (if enter t then select keep enter t.children else []) ++ select keep enter rest := by
  rw [select]
  by_cases henter : enter t <;> by_cases hkeep : keep t <;>
    simp [onward, henter, hkeep, select_append]

mutual

theorem select_visits (above : List (Tree α)) : (t : Tree α) →
    ((visits above t).filter fun v => keep v.tree && v.above.all enter).map Visit.tree =
      if above.all enter then select keep enter [t] else []
  | node a ts => by
    have hbelow := select_visitsAll (above ++ [node a ts]) ts
    rw [all_append, all_cons, all_nil, Bool.and_true] at hbelow
    rw [visits, filter_cons, select_cons, select, append_nil, children]
    cases habove : above.all enter <;> cases hkeep : keep (node a ts) <;>
      cases henter : enter (node a ts) <;>
      rw [habove, henter] at hbelow <;> simp [-all_eq_true, hbelow]

theorem select_visitsAll (above : List (Tree α)) : (ts : List (Tree α)) →
    ((visitsAll above ts).filter fun v => keep v.tree && v.above.all enter).map Visit.tree =
      if above.all enter then select keep enter ts else []
  | [] => by simp [visitsAll, select]
  | t :: ts => by
    have hcons : select keep enter (t :: ts) = select keep enter [t] ++ select keep enter ts :=
      select_append keep enter [t] ts
    rw [visitsAll, filter_append, map_append, select_visits above t, select_visitsAll above ts,
      hcons]
    split <;> rfl

end

/-- A walk meets, in document order, the trees that are kept and around which all are entered. -/
theorem select_eq (t : Tree α) :
    select keep enter [t] =
      ((visits [] t).filter fun v => keep v.tree && v.above.all enter).map Visit.tree :=
  (select_visits keep enter [] t).symm

end Select

end DocGraft.Tree

namespace DocGraft.Source

open List Text

/-- The types of the nodes that declare types, with the keyword of the declaration. -/
def declarationTypes : List (Text × Text) :=
  [("class_declaration".toList, "class".toList), ("record_declaration".toList, "class".toList),
   ("interface_declaration".toList, "interface".toList),
   ("enum_declaration".toList, "enum".toList),
   ("annotation_type_declaration".toList, "@interface".toList)]

/-- A node declares a type. -/
def DeclaresType (node : ParseTree) : Prop :=
  node.label.type ∈ declarationTypes.map Prod.fst

/-- What is below a node is not at top level. -/
def Hides (node : ParseTree) : Prop :=
  DeclaresType node ∨ node.label.type = "block_comment".toList ∨
    node.label.type = "line_comment".toList ∨ "_body".toList <:+ node.label.type

instance (node : ParseTree) : Decidable (DeclaresType node) :=
  inferInstanceAs (Decidable (_ ∈ _))

instance (node : ParseTree) : Decidable (Hides node) :=
  inferInstanceAs (Decidable (_ ∨ _))

/-- The kind of a node is that of its declaration. -/
theorem keyword_ofNode? (node : ParseTree) :
    (TypeKind.ofNode? node).map TypeKind.keyword = declarationTypes.lookup node.label.type := by
  have htypes : declarationTypes = TypeKind.rules.map fun rule => (rule.1.toList, rule.2.keyword) :=
    rfl
  rw [TypeKind.ofNode?, htypes]
  generalize TypeKind.rules = rules
  induction rules with
  | nil => rfl
  | cons rule rules ih =>
    by_cases hrule : node.label.type = rule.1.toList
    · simp [Tree.is, hrule]
    · have hother : (node.label.type == rule.1.toList) = false := by simpa using hrule
      rw [find?_cons_of_neg (by simp [Tree.is, hrule]), ih, map_cons, lookup_cons, hother]

theorem isSome_ofNode? (node : ParseTree) :
    (TypeKind.ofNode? node).isSome = decide (DeclaresType node) := by
  rw [← Option.isSome_map (f := TypeKind.keyword), keyword_ofNode?, Bool.eq_iff_iff,
    decide_eq_true_iff, lookup_isSome_iff, DeclaresType, mem_map]
  simp

theorem isOpen_eq (node : ParseTree) : isOpen node = decide (¬ Hides node) := by
  have hnone : (TypeKind.ofNode? node).isNone = !decide (DeclaresType node) := by
    rw [← isSome_ofNode?, Option.not_isSome]
  have hbody : endsWith "_body".toList node.label.type =
      decide ("_body".toList <:+ node.label.type) := by
    rw [Bool.eq_iff_iff, endsWith_iff, decide_eq_true_iff]
  rw [isOpen, hnone, hbody, Tree.is, Tree.is, Bool.eq_iff_iff]
  simp only [Bool.and_eq_true, Bool.not_eq_true', decide_eq_false_iff_not, decide_eq_true_iff,
    Hides, not_or]
  tauto

/-- The types at top level are those of the declarations around which nothing hides them. -/
theorem topLevelTypes_eq (root : ParseTree) :
    topLevelTypes root = ((Tree.visits [] root).filter fun v =>
      DeclaresType v.tree ∧ ∀ node ∈ v.above, ¬ Hides node).map Tree.Visit.tree := by
  rw [topLevelTypes, Tree.select_eq]
  refine congrArg _ (filter_congr fun v _ => ?_)
  rw [isSome_ofNode?, Bool.eq_iff_iff]
  simp [isOpen_eq]

theorem declaresType_of_mem {root node : ParseTree} (h : node ∈ topLevelTypes root) :
    DeclaresType node := by
  rw [topLevelTypes_eq] at h
  obtain ⟨v, hv, rfl⟩ := mem_map.mp h
  exact (of_decide_eq_true (mem_filter.mp hv).2).1

/-- The elements asked for are met in document order, whatever is around them. -/
theorem elementNodes_eq (names : List Text) (page : Markup.ParsedPage) :
    Markup.elementNodes names page = ((Tree.visits [] page.root).filter fun v =>
      v.tree.label.type = "element".toList ∧
        Markup.tagName page.source v.tree ∈ names).map Tree.Visit.tree := by
  rw [Markup.elementNodes, Tree.select_eq]
  refine congrArg _ (filter_congr fun v _ => ?_)
  have habove : v.above.all (fun _ => true) = true := all_eq_true.mpr fun _ _ => rfl
  rw [habove, Bool.and_true, Tree.is, Bool.decide_and]

/-- The nodes of a parse tree begin in document order. -/
def Ordered (root : ParseTree) : Prop :=
  (Tree.visits [] root).Pairwise fun v w => v.tree.label.start ≤ w.tree.label.start

theorem Ordered.pairwise_topLevelTypes {root : ParseTree} (h : Ordered root) :
    (topLevelTypes root).Pairwise fun a b => a.label.start ≤ b.label.start := by
  rw [topLevelTypes_eq, pairwise_map]
  exact h.sublist filter_sublist

/-- The walks over parse trees go in document order, which is the order of the recursive traversal.
The first meets the elements with the names asked for. The second meets the declarations of types
that have no declaration of a type, no comment and no body around them, and a type is located at the
first of these with its name. -/
theorem walks_in_document_order :
    (∀ (names : List Text) (page : Markup.ParsedPage),
      let found := ((Tree.visits [] page.root).filter fun v =>
        v.tree.label.type = "element".toList ∧
          Markup.tagName page.source v.tree ∈ names).map Tree.Visit.tree
      Markup.elementNodes names page = found ∧
        Markup.elements names page = found.map (Markup.elementTree page.source)) ∧
    (∀ root : ParseTree, topLevelTypes root =
      ((Tree.visits [] root).filter fun v =>
        DeclaresType v.tree ∧ ∀ node ∈ v.above, ¬ Hides node).map Tree.Visit.tree) ∧
    ∀ (source : Bytes) (root : ParseTree) (name : Text), match locateIn? source root name with
      | none => ∀ node ∈ topLevelTypes root, declaredName? source node ≠ some name
      | some location => ∃ before node after, topLevelTypes root = before ++ node :: after ∧
          declaredName? source node = some name ∧
          (∀ other ∈ before, declaredName? source other ≠ some name) ∧
          location.simpleName = name ∧
          declarationTypes.lookup node.label.type = some location.kind.keyword ∧
          (location.line, location.column) = node.label.point ∧
          (Ordered root → ∀ other ∈ topLevelTypes root, declaredName? source other = some name →
            node.label.start ≤ other.label.start) := by
  refine ⟨fun names page => ?_, topLevelTypes_eq, fun source root name => ?_⟩
  · exact ⟨elementNodes_eq names page, congrArg _ (elementNodes_eq names page)⟩
  · have hkind : ∀ node ∈ topLevelTypes root, (TypeKind.ofNode? node).isSome := fun node hnode => by
      rw [isSome_ofNode?]
      exact decide_eq_true (declaresType_of_mem hnode)
    cases hlocate : locateIn? source root name with
    | none =>
      intro node hnode hname
      have hnone := findSome?_eq_none_iff.mp hlocate node hnode
      rw [if_pos hname, Option.map_eq_none_iff] at hnone
      simpa [hnone] using hkind node hnode
    | some location =>
      obtain ⟨before, node, after, hsplit, hfound, hbefore⟩ := findSome?_eq_some_iff.mp hlocate
      rw [Option.ite_none_right_eq_some] at hfound
      obtain ⟨hname, hfound⟩ := hfound
      obtain ⟨kind, hofNode, rfl⟩ := Option.map_eq_some_iff.mp hfound
      have hothers : ∀ other ∈ before, declaredName? source other ≠ some name := by
        intro other hother hsame
        have hnone := hbefore other hother
        rw [if_pos hsame, Option.map_eq_none_iff] at hnone
        simpa [hnone] using hkind other (by simp [hsplit, hother])
      refine ⟨before, node, after, hsplit, hname, hothers, rfl, ?_, rfl, fun hordered other hother
        hsame => ?_⟩
      · rw [← keyword_ofNode?, hofNode]
        rfl
      · have hsorted := hordered.pairwise_topLevelTypes
        rw [hsplit] at hother hsorted
        rcases mem_append.mp hother with hother | hother
        · exact absurd hsame (hothers other hother)
        · rcases mem_cons.mp hother with rfl | hother
          · exact Nat.le_refl _
          · exact (pairwise_cons.mp (pairwise_append.mp hsorted).2.1).1 other hother

section Samples

private def sourceText : Text :=
  "class A\x7bclass B\x7b\x7d\x7d class A\x7b\x7d".toList

/-- The declaration of a class from an offset on, with a name of one letter. -/
private def classAt (start : Nat) (members : List ParseTree) : ParseTree :=
  .node ⟨"class_declaration".toList, none, start, start + 9, (0, start)⟩
    [.node ⟨"identifier".toList, some "name".toList, start + 6, start + 7, (0, start + 6)⟩ [],
      .node ⟨"class_body".toList, none, start + 7, start + 9, (0, start + 7)⟩ members]

/-- A class with a class in it, and a class of the same name in an error. -/
private def sourceRoot : ParseTree :=
  .node { type := "program".toList, start := 0, stop := 28 }
    [classAt 0 [classAt 8 []],
      .node { type := "ERROR".toList, start := 19, stop := 28 } [classAt 19 []]]

/-- Of two classes with one name the first is located, and a class in a class is not. -/
theorem walks_in_document_order_twice :
    (topLevelTypes sourceRoot).map (fun node => node.label.start) = [0, 19] ∧
      Ordered sourceRoot ∧
      locateIn? (Encoding.utf8.encode sourceText) sourceRoot "B".toList = none ∧
      ∃ location, locateIn? (Encoding.utf8.encode sourceText) sourceRoot "A".toList =
          some location ∧ location.column = 0 ∧
        ∃ node ∈ topLevelTypes sourceRoot, (location.line, location.column) = node.label.point ∧
          ∀ other ∈ topLevelTypes sourceRoot,
            declaredName? (Encoding.utf8.encode sourceText) other = some "A".toList →
              node.label.start ≤ other.label.start := by
  have hordered : Ordered sourceRoot := by
    unfold Ordered
    decide +kernel
  have hlocate : locateIn? (Encoding.utf8.encode sourceText) sourceRoot "A".toList =
      some ⟨"A".toList, "A".toList, .classType, 0, 0⟩ := by
    decide +kernel
  have hwalk := walks_in_document_order.2.2 (Encoding.utf8.encode sourceText) sourceRoot "A".toList
  rw [hlocate] at hwalk
  obtain ⟨before, node, after, hsplit, -, -, -, -, hpoint, hfirst⟩ := hwalk
  exact ⟨by decide +kernel, hordered, by decide +kernel, _, hlocate, rfl, node, by simp [hsplit],
    hpoint, hfirst hordered⟩

end Samples

end DocGraft.Source
