import DocGraft.Proofs.PageEntries
import DocGraft.Proofs.SourceRows
import DocGraft.Standard.Platform

/-!
# Merged sources

The pages of a source document its methods class by class. Methods and pages are joined on keys that
have the short name of a class, so that what the page of another class says can reach a method: in a
class of the same short name, with the same parameter types. What is said last about a key is shown
for every method with that key. So a method gets what the page of its own class says about it,
unless a method of another class has the same key.

The main result is `SourceUnit.merge_documented`.
-/

namespace DocGraft.TypeTree

open List Text Signature Declaration

/-! ### Class paths -/

/-- The method that a member is. -/
def Leaf.method? : Leaf → Option Method
  | field _ _ _ => none
  | method m _ _ => some m

def MemberLine.method? : MemberLine → Option Method
  | leaf line => line.member.method?
  | method line => some line.member.method

namespace Body

variable {owner : Text} {p path : Text}

/-- The types in the body of the class with the path `path`, by class path. -/
def classPaths : {owner : Text} → (path : Text) → Body MemberLine Closing owner → List Text
  | _, _, close _ => []
  | _, path, member _ rest => rest.classPaths path
  | _, path, type _ _ h _ _ body rest =>
    (path ++ '.' :: h.name.text) :: (body.classPaths (path ++ '.' :: h.name.text) ++
      rest.classPaths path)

/-- The methods in the body of the class with the path `path`, and in the types in it. -/
def methods : {owner : Text} → (path : Text) → Body MemberLine Closing owner → List (Text × Method)
  | _, _, close _ => []
  | _, path, member a rest => a.method?.toList.map (path, ·) ++ rest.methods path
  | _, path, type _ _ h _ _ body rest =>
    body.methods (path ++ '.' :: h.name.text) ++ rest.methods path

/-- A type in a body has a path below that of the class, and its last part is a name. -/
theorem of_mem_classPaths {body : Body MemberLine Closing owner} (h : p ∈ body.classPaths path) :
    path ++ ['.'] <+: p ∧ ∃ (outer : Text) (name : Name), p = outer ++ '.' :: name.text := by
  induction body generalizing path with
  | close e => cases h
  | member a rest ih => exact ih h
  | type doc indent h' header distinct body rest ihBody ihRest =>
    rcases mem_cons.mp h with rfl | h
    · exact ⟨⟨h'.name.text, by simp⟩, path, h'.name, rfl⟩
    · rcases mem_append.mp h with h | h
      · obtain ⟨hbegins, hname⟩ := ihBody h
        exact ⟨List.IsPrefix.trans ⟨h'.name.text ++ ['.'], by simp⟩ hbegins, hname⟩
      · exact ihRest h

/-- A method belongs to the class of a body or to a type in it. -/
theorem of_mem_methods {m : Method} {body : Body MemberLine Closing owner}
    (h : (p, m) ∈ body.methods path) : p = path ∨ p ∈ body.classPaths path := by
  induction body generalizing path with
  | close e => cases h
  | member a rest ih =>
    rcases mem_append.mp h with h | h
    · obtain ⟨m', -, hm⟩ := mem_map.mp h
      exact .inl (Prod.mk.inj hm).1.symm
    · exact ih h
  | type doc indent h' header distinct body rest ihBody ihRest =>
    rw [classPaths]
    rcases mem_append.mp h with h | h
    · rcases ihBody h with rfl | h
      · exact .inr mem_cons_self
      · grind
    · grind

end Body

end DocGraft.TypeTree

namespace DocGraft.SourceUnit

open List Text Docs Signature Declaration TypeTree Library

/-! ### Pages of a source -/

section Paths

variable (unit : SourceUnit MemberLine Closing)

def classPaths : List Text :=
  unit.type.name.text :: unit.body.classPaths unit.type.name.text

def methods : List (Text × Method) :=
  unit.body.methods unit.type.name.text

/-- The name of the type of a source with its package. -/
def qualifiedName : QualifiedName :=
  ⟨unit.package.elim [] fun q => q.qualifiers ++ [q.name], unit.type.name⟩

def packageText : Text :=
  unit.package.elim [] QualifiedName.text

/-- The name of the page of the class with a path. -/
def pageName (path : Text) : Text :=
  unit.package.elim path fun q => q.text ++ '.' :: path

/-- The class path of a page by its name. -/
def pathOf (name : Text) : Text :=
  if unit.packageText = [] then name else name.drop (unit.packageText.length + 1)

/-- The page on which a class is documented. -/
def context (path : Text) : PageContext where
  package := unit.packageText
  classPath := path

/-- There is one page for each class path, and it documents the methods of that class with what
`told` gives, in one line each. -/
structure Documented [Platform] (vocabulary : LabelVocabulary) (pages : List (Text × Text))
    (told : Text → List (Method × Text)) : Prop where
  unique : (pages.map Prod.fst).Nodup
  page : ∀ path ∈ unit.classPaths, ∃ markup, (unit.pageName path, markup) ∈ pages ∧
    PageTells vocabulary (unit.context path) (normalizeMarkup markup) (told path)
  inner : ∀ page ∈ pages, startsWith (unit.qualifiedName.text ++ ['.']) page.1 →
    ∃ path ∈ unit.classPaths, page.1 = unit.pageName path
  methods : ∀ path ∈ unit.classPaths, ∀ m, (∃ v, (m, v) ∈ told path) ↔ (path, m) ∈ unit.methods
  line : ∀ path ∈ unit.classPaths, ∀ entry ∈ told path, entry.2 ≠ [] ∧ '\n' ∉ entry.2

/-- The parser of sources finds what a source declares: its package, and by the rule for its keyword
the type, as the first one at top level with its name. -/
@[mk_iff]
structure Parsed [Platform] : Prop where
  package : Source.packageName? (Encoding.utf8.encode unit.text) (Platform.java unit.text) =
    unit.package.map QualifiedName.text
  type : ∃ node ∈ (Source.topLevelTypes (Platform.java unit.text)).find? fun node =>
      Source.declaredName? (Encoding.utf8.encode unit.text) node = some unit.type.name.text,
    node.label.type = unit.type.keyword ++ "_declaration".toList

instance Parsed.decidable [Platform] : Decidable unit.Parsed :=
  decidable_of_iff' _ (parsed_iff unit)

/-- What the pages of a source say about keys, in the order in which the pages are read. -/
def entries (pages : List (Text × Text)) (told : Text → List (Method × Text)) :
    List (SignatureKey × Text) :=
  (pageFragments pages unit.qualifiedName.text).flatMap fun fragment =>
    descriptions (afterLast '.' fragment.classPath) (told fragment.classPath)

/-- The pages of inner classes in the order of their names. -/
def sortedPages (pages : List (Text × Text)) : List (Text × Text) :=
  (pages.filter fun page => startsWith (unit.qualifiedName.text ++ ['.']) page.1).mergeSort
    fun a b => FileTree.textLe a.1 b.1

/-- The pages of inner classes by class path. -/
def innerPages (pages : List (Text × Text)) : List (Text × Text) :=
  (unit.sortedPages pages).map fun page => (unit.pathOf page.1, page.2)

end Paths

variable {unit : SourceUnit MemberLine Closing} {pages : List (Text × Text)} {path : Text}
  {told : Text → List (Method × Text)}

theorem pageName_type : unit.pageName unit.type.name.text = unit.qualifiedName.text := by
  cases hpackage : unit.package <;> simp [pageName, qualifiedName, hpackage, QualifiedName.text]

theorem cutLast_qualifiedName :
    cutLast '.' unit.qualifiedName.text = (unit.packageText, unit.type.name.text) := by
  rw [← pageName_type, pageName, packageText]
  cases unit.package with
  | none => exact cutLast_of_notMem (unit.type.name.isName.notMem (by decide))
  | some q => exact cutLast_append_cons (unit.type.name.isName.notMem (by decide)) _

theorem pathOf_pageName (path : Text) : unit.pathOf (unit.pageName path) = path := by
  rw [pathOf, packageText, pageName]
  cases unit.package with
  | none => rfl
  | some q =>
    have hne : q.text ≠ [] := Token.text_ne_nil (.name q)
    simp [hne]

/-- The pages of inner classes are those with a longer name. -/
theorem startsWith_pageName (path : Text) :
    startsWith (unit.qualifiedName.text ++ ['.']) (unit.pageName path) =
      startsWith (unit.type.name.text ++ ['.']) path := by
  rw [← pageName_type, pageName, pageName]
  cases unit.package with
  | none => rfl
  | some q =>
    rw [Bool.eq_iff_iff, startsWith_iff, startsWith_iff, Option.elim_some, Option.elim_some,
      append_assoc, prefix_append_right_inj, cons_append, cons_prefix_cons]
    simp

theorem of_mem_classPaths (h : path ∈ unit.classPaths) :
    ∃ name : Name, afterLast '.' path = name.text := by
  rcases mem_cons.mp h with rfl | h
  · exact ⟨unit.type.name, by rw [afterLast, cutLast_of_notMem (unit.type.name.isName.notMem
      (by decide))]⟩
  · obtain ⟨-, outer, name, rfl⟩ := Body.of_mem_classPaths h
    exact ⟨name, by rw [afterLast, cutLast_append_cons (name.isName.notMem (by decide))]⟩

theorem mem_classPaths_of_methods {m : Method} (h : (path, m) ∈ unit.methods) :
    path ∈ unit.classPaths :=
  mem_cons.mpr (Body.of_mem_methods h)

/-- The inner classes are the types whose path goes on below that of the outermost type. -/
theorem startsWith_of_mem (h : path ∈ unit.classPaths) :
    startsWith (unit.type.name.text ++ ['.']) path = true ↔ path ≠ unit.type.name.text := by
  rw [startsWith_iff]
  refine ⟨fun hbegins heq => ?_, fun hne => ?_⟩
  · have hlength := hbegins.length_le
    grind
  · exact (Body.of_mem_classPaths ((mem_cons.mp h).resolve_left hne)).1

namespace Documented

variable [Platform] {vocabulary : LabelVocabulary} {pages : List (Text × Text)}
  {told : Text → List (Method × Text)} {markup path : Text} {page : Text × Text}

/-- The page with the name of a class path is the one that documents the class. -/
theorem tells (h : unit.Documented vocabulary pages told) (hpath : path ∈ unit.classPaths)
    (hpage : (unit.pageName path, markup) ∈ pages) :
    DocIndex.Tells vocabulary unit.packageText (path, normalizeMarkup markup) (told path) := by
  obtain ⟨markup', hpage', htells⟩ := h.page path hpath
  obtain rfl : markup = markup' :=
    congrArg Prod.snd (inj_on_of_nodup_map h.unique hpage hpage' rfl)
  exact ⟨of_mem_classPaths hpath, htells⟩

omit [Platform] in
theorem mem_sortedPages : page ∈ unit.sortedPages pages ↔
    page ∈ pages ∧ startsWith (unit.qualifiedName.text ++ ['.']) page.1 = true := by
  rw [sortedPages, mem_mergeSort, mem_filter]

section

variable (h : unit.Documented vocabulary pages told)

include h

theorem exists_of_mem_sortedPages (hpage : page ∈ unit.sortedPages pages) :
    ∃ path ∈ unit.classPaths, path ≠ unit.type.name.text ∧ page.1 = unit.pageName path := by
  obtain ⟨hpages, hstarts⟩ := mem_sortedPages.mp hpage
  obtain ⟨path, hpath, hname⟩ := h.inner page hpages hstarts
  rw [hname, startsWith_pageName] at hstarts
  exact ⟨path, hpath, (startsWith_of_mem hpath).mp hstarts, hname⟩

/-- The pages of inner classes are those of the class paths below the outermost type. -/
theorem of_mem_innerPages (hpage : page ∈ unit.innerPages pages) :
    page.1 ∈ unit.classPaths ∧ page.1 ≠ unit.type.name.text ∧
      (unit.pageName page.1, page.2) ∈ pages := by
  obtain ⟨page, hsorted, rfl⟩ := mem_map.mp hpage
  obtain ⟨path, hpath, hne, hname⟩ := h.exists_of_mem_sortedPages hsorted
  have hpages := (mem_sortedPages.mp hsorted).1
  simp only [hname, pathOf_pageName]
  exact ⟨hpath, hne, hname ▸ hpages⟩

theorem nodup_innerPages : ((unit.innerPages pages).map Prod.fst).Nodup := by
  -- The names of the pages are unique, and they can be told from the paths.
  have hnames : ((unit.innerPages pages).map Prod.fst).map unit.pageName =
      (unit.sortedPages pages).map Prod.fst := by
    rw [innerPages, map_map, map_map]
    refine map_congr_left fun page hpage => ?_
    obtain ⟨path, -, -, hname⟩ := h.exists_of_mem_sortedPages hpage
    simp only [Function.comp_apply, hname, pathOf_pageName]
  have hsorted : ((unit.sortedPages pages).map Prod.fst).Nodup := by
    have hperm := (mergeSort_perm (pages.filter fun page =>
      startsWith (unit.qualifiedName.text ++ ['.']) page.1) fun a b =>
        FileTree.textLe a.1 b.1).map Prod.fst
    exact hperm.nodup_iff.mpr (h.unique.sublist (filter_sublist.map Prod.fst))
  grind

theorem mem_innerPages (hpath : path ∈ unit.classPaths) (hne : path ≠ unit.type.name.text) :
    path ∈ (unit.innerPages pages).map Prod.fst := by
  obtain ⟨markup, hpage, -⟩ := h.page path hpath
  have hsorted : (unit.pageName path, markup) ∈ unit.sortedPages pages :=
    mem_sortedPages.mpr ⟨hpage, by rw [startsWith_pageName, startsWith_of_mem hpath]; exact hne⟩
  rw [innerPages, map_map, mem_map]
  exact ⟨_, hsorted, pathOf_pageName path⟩

/-- The pages of a source: that of its outermost type, then those of its inner classes. -/
theorem exists_pageFragments :
    ∃ markup, (unit.pageName unit.type.name.text, markup) ∈ pages ∧
      pageFragments pages unit.qualifiedName.text =
        ((unit.type.name.text, markup) :: unit.innerPages pages).map fun page =>
          ⟨unit.packageText, page.1, normalizeMarkup page.2⟩ := by
  obtain ⟨markup, hpage, -⟩ := h.page unit.type.name.text mem_cons_self
  refine ⟨markup, hpage, ?_⟩
  have hown : pages.find? (fun page => page.1 = unit.qualifiedName.text) =
      some (unit.qualifiedName.text, markup) := by
    rw [pageName_type] at hpage
    cases hfind : pages.find? fun page => decide (page.1 = unit.qualifiedName.text) with
    | none => simpa using find?_eq_none.mp hfind _ hpage
    | some page =>
      have hname := find?_some hfind
      simp only [decide_eq_true_eq] at hname
      rw [inj_on_of_nodup_map h.unique (mem_of_find?_eq_some hfind) hpage hname]
  rw [pageFragments, cutLast_qualifiedName]
  simp only [hown, Option.map_some, Option.toList_some, singleton_append, map_cons,
    innerPages, map_map]
  rfl

/-- The pages of a source with their markup, in the order in which they are read. -/
theorem exists_entries_eq :
    ∃ markup, (unit.pageName unit.type.name.text, markup) ∈ pages ∧
      unit.entries pages told = ((unit.type.name.text, markup) :: unit.innerPages pages).flatMap
        fun page => descriptions (afterLast '.' page.1) (told page.1) := by
  obtain ⟨markup, hpage, hfragments⟩ := h.exists_pageFragments
  exact ⟨markup, hpage, by rw [entries, hfragments, flatMap_map]⟩

theorem splitPages_eq
    (hfragments : pageFragments pages unit.qualifiedName.text =
      ((unit.type.name.text, markup) :: unit.innerPages pages).map fun page =>
        ⟨unit.packageText, page.1, normalizeMarkup page.2⟩) :
    Engine.splitPages unit.type.name.text (pageFragments pages unit.qualifiedName.text) =
      (some (normalizeMarkup markup),
        (unit.innerPages pages).map fun page => (page.1, normalizeMarkup page.2)) := by
  have hne : ∀ page ∈ unit.innerPages pages, page.1 ≠ unit.type.name.text :=
    fun page hpage => (h.of_mem_innerPages hpage).2.1
  have hown : ((unit.innerPages pages).map fun page => (⟨unit.packageText, page.1,
      normalizeMarkup page.2⟩ : Fragment)).filter
        (fun fragment => fragment.classPath = unit.type.name.text) = [] := by
    rw [filter_eq_nil_iff, forall_mem_map]
    grind
  have hinner : ((unit.innerPages pages).map fun page => (⟨unit.packageText, page.1,
      normalizeMarkup page.2⟩ : Fragment)).filter
        (fun fragment => fragment.classPath ≠ unit.type.name.text) =
      (unit.innerPages pages).map fun page =>
        ⟨unit.packageText, page.1, normalizeMarkup page.2⟩ := by
    rw [filter_eq_self, forall_mem_map]
    grind
  rw [hfragments, Engine.splitPages, map_cons, filter_cons_of_pos (by simp),
    filter_cons_of_neg (by simp), hown, hinner, map_map]
  rfl

/-- What is said about methods is said in one line. -/
theorem line_of_said {key : SignatureKey} {v : Text}
    (hv : DocIndex.said (unit.entries pages told) key = some v) : v ≠ [] ∧ '\n' ∉ v := by
  obtain ⟨markup, -, hentries⟩ := h.exists_entries_eq
  obtain ⟨entry, hentry, rfl⟩ := DocIndex.exists_mem_of_said hv
  rw [hentries] at hentry
  obtain ⟨page, hpage, hentry⟩ := mem_flatMap.mp hentry
  obtain ⟨told, htold, rfl⟩ := mem_map.mp hentry
  refine h.line page.1 ?_ told htold
  rcases mem_cons.mp hpage with rfl | hpage
  · exact mem_cons_self
  · exact (h.of_mem_innerPages hpage).1

/-- The page of a class stands among the pages of a source once. -/
theorem exists_page (hpath : path ∈ unit.classPaths) (markup : Text) :
    ∃ before page after, (unit.type.name.text, markup) :: unit.innerPages pages =
      before ++ page :: after ∧ page.1 = path ∧ ∀ other ∈ before ++ after, other.1 ≠ path := by
  have hnodup : (((unit.type.name.text, markup) :: unit.innerPages pages).map Prod.fst).Nodup := by
    refine nodup_cons.mpr ⟨fun hmem => ?_, h.nodup_innerPages⟩
    obtain ⟨page, hpage, hname⟩ := mem_map.mp hmem
    exact (h.of_mem_innerPages hpage).2.1 hname
  have hmem : path ∈ ((unit.type.name.text, markup) :: unit.innerPages pages).map Prod.fst := by
    by_cases hname : path = unit.type.name.text
    · rw [hname]
      exact mem_cons_self
    · exact mem_cons_of_mem _ (h.mem_innerPages hpath hname)
  obtain ⟨page, hpage, rfl⟩ := mem_map.mp hmem
  obtain ⟨before, after, hsplit⟩ := append_of_mem hpage
  refine ⟨before, page, after, hsplit, rfl, fun other hother heq => ?_⟩
  grind

/-- A method whose key no method of another class has gets what is said on the page of its own
class. -/
theorem exists_said {m : Method} (hm : (path, m) ∈ unit.methods)
    (hunique : ∀ path' m', (path', m') ∈ unit.methods → path' ≠ path →
      ((Declaration.method m').key (afterLast '.' path')).same
        ((Declaration.method m).key (afterLast '.' path)) = false) :
    ∃ v, DocIndex.said (descriptions (afterLast '.' path) (told path))
        ((Declaration.method m).key (afterLast '.' path)) = some v ∧
      DocIndex.said (unit.entries pages told)
        ((Declaration.method m).key (afterLast '.' path)) = some v := by
  have hpath := mem_classPaths_of_methods hm
  obtain ⟨markup, -, hentries⟩ := h.exists_entries_eq
  have hpaths : ∀ page ∈ (unit.type.name.text, markup) :: unit.innerPages pages,
      page.1 ∈ unit.classPaths :=
    forall_mem_cons.mpr ⟨mem_cons_self, fun page hpage => (h.of_mem_innerPages hpage).1⟩
  -- Pages of other classes have nothing under the key.
  have hnone : ∀ others : List (Text × Text),
      (∀ page ∈ others, page.1 ∈ unit.classPaths ∧ page.1 ≠ path) →
      DocIndex.said (others.flatMap fun page => descriptions (afterLast '.' page.1) (told page.1))
        ((Declaration.method m).key (afterLast '.' path)) = none := by
    intro others hothers
    refine DocIndex.said_eq_none fun entry hentry => ?_
    obtain ⟨page, hpage, hentry⟩ := mem_flatMap.mp hentry
    obtain ⟨⟨m', v⟩, htold, rfl⟩ := mem_map.mp hentry
    obtain ⟨hother, hne⟩ := hothers page hpage
    exact hunique page.1 m' ((h.methods page.1 hother m').mp ⟨v, htold⟩) hne
  obtain ⟨before, page, after, hsplit, rfl, hothers⟩ := h.exists_page hpath markup
  obtain ⟨v', hv'⟩ := (h.methods page.1 hpath m).mpr hm
  have hmem : ((Declaration.method m).key (afterLast '.' page.1), v') ∈
      descriptions (afterLast '.' page.1) (told page.1) :=
    mem_map.mpr ⟨(m, v'), hv', rfl⟩
  obtain ⟨v, hv⟩ := DocIndex.exists_said hmem
  refine ⟨v, hv, ?_⟩
  rw [hsplit] at hentries hpaths
  have hafter := hnone after fun p hp =>
    ⟨hpaths p (mem_append_right _ (mem_cons_of_mem _ hp)),
      hothers p (mem_append_right _ hp)⟩
  simp [hentries, DocIndex.said_append, hafter, hv]

end

/-- The index of a source has what its pages say. -/
theorem indexOf_eq {engine : Engine} (hlibrary : engine.library = .pages pages)
    (h : unit.Documented engine.config.labels pages told) (files : FileTree)
    (location : ClassLocation) (hname : location.qualifiedName = unit.qualifiedName.text)
    (hsimple : location.simpleName = unit.type.name.text) :
    (engine.indexOf files location).value =
      .ok (DocIndex.ofDescriptions (unit.entries pages told)) := by
  obtain ⟨markup, hpage, hfragments⟩ := h.exists_pageFragments
  have hsplit := h.splitPages_eq hfragments
  have htells : ∀ page ∈ (unit.type.name.text, normalizeMarkup markup) ::
      (unit.innerPages pages).map (fun page => (page.1, normalizeMarkup page.2)),
      DocIndex.Tells engine.config.labels unit.packageText page (told page.1) := by
    refine forall_mem_cons.mpr ⟨h.tells mem_cons_self hpage, ?_⟩
    rw [forall_mem_map]
    intro page hmem
    obtain ⟨hpath, -, hpages⟩ := h.of_mem_innerPages hmem
    exact h.tells hpath hpages
  obtain ⟨patterns, hbuild⟩ := DocIndex.exists_build_eq cutLast_qualifiedName htells engine.patterns
  have hentries : unit.entries pages told = ((unit.type.name.text, normalizeMarkup markup) ::
      (unit.innerPages pages).map fun page => (page.1, normalizeMarkup page.2)).flatMap fun page =>
        descriptions (afterLast '.' page.1) (told page.1) := by
    simp [entries, hfragments, flatMap_map]
  simp only [Engine.indexOf, hlibrary, Library.fragments, hname, hsimple, hsplit, hbuild, hentries]

end Documented

/-! ### The merged source -/

/-- A source is merged for its type. -/
theorem Parsed.exists_locate? [Platform] (h : unit.Parsed)
    (hkeyword : unit.type.keyword ≠ "@interface".toList) :
    ∃ kind line column, kind ≠ .annotationType ∧ Source.locate? unit.text unit.type.name.text =
      some ⟨unit.type.name.text, unit.qualifiedName.text, kind, line, column⟩ := by
  obtain ⟨node, hfind, hrule⟩ := h.type
  obtain ⟨hname, before, after, htypes, hbefore⟩ := find?_eq_some_iff_append.mp hfind
  have hname : Source.declaredName? (Encoding.utf8.encode unit.text) node =
      some unit.type.name.text := by simpa using hname
  obtain ⟨kind, hkind, hannotation⟩ : ∃ kind, TypeKind.ofNode? node = some kind ∧
      kind ≠ .annotationType := by
    have hmem := unit.type.mem
    simp only [TypeKind.ofNode?, Tree.is, hrule]
    generalize unit.type.keyword = keyword at hmem hkeyword
    revert keyword
    decide
  refine ⟨kind, node.label.point.1, node.label.point.2, hannotation, ?_⟩
  have hskipped : ∀ {f : ParseTree → Option ClassLocation}, before.findSome? (fun other =>
      if Source.declaredName? (Encoding.utf8.encode unit.text) other = some unit.type.name.text
        then f other else none) = none := by
    intro f
    rw [findSome?_eq_none_iff]
    intro other hother
    rw [if_neg (by simpa using hbefore other hother)]
  rw [Source.locate?, Source.locateIn?, htypes, findSome?_append, hskipped, Option.none_or,
    findSome?_cons, if_pos hname, hkind, h.package]
  cases hpackage : unit.package with
  | none => simp [qualifiedName, hpackage, QualifiedName.text]
  | some q => simp [qualifiedName, hpackage, QualifiedName.text]

theorem config_indexOf [Platform] (engine : Engine) (files : FileTree) (location : ClassLocation) :
    (engine.indexOf files location).engine.config = engine.config := by
  dsimp only [Engine.indexOf]
  split <;> rfl

/-- The text of a merge is that of a run, whatever patterns are in the table. -/
theorem text_mergeIndex (config : MergeConfig) (patterns : PatternCache) (index : DocIndex)
    (location : ClassLocation) (source : Text) :
    (Engine.mergeIndex config patterns index location source).result.text =
      ((Scanner.start source location.qualifiedName location.kind).run
        (Comment.synthesize config.style) index.get?).scanner.finish.1 := by
  rw [Engine.mergeIndex, Subsingleton.elim (Comment.LongWords.ofTable patterns)
    Comment.madeLongWords]

/-- Where nothing is said, the comments of a source stay. -/
theorem redocumented_of_none {said : SignatureKey → Option Text} (h : ∀ key, said key = none) :
    unit.redocumented (shownFor said) = unit.text := by
  have hshown : shownFor said = fun _ => DocLine.line := by
    funext key doc
    rw [shownFor, h]
  rw [hshown, text_rows]
  rfl

/-- A merge puts what is said last about a key in the place of the comments with that key, unless
they begin with a block tag, and changes nothing else. -/
theorem Documented.exists_merge_eq [Platform] {engine : Engine} (files : FileTree)
    (hlibrary : engine.library = .pages pages)
    (hdocumented : unit.Documented engine.config.labels pages told)
    (hkeyword : unit.type.keyword ≠ "@interface".toList)
    (hparsed : unit.Parsed)
    (hunending : ∀ line ∈ unit.body.members, line.Unending) :
    ∃ result, (engine.merge files unit.text unit.type.name.text).value = .ok result ∧
      result.text = unit.redocumented (shownFor (DocIndex.said (unit.entries pages told))) := by
  obtain ⟨kind, line, column, hkind, hlocate⟩ := hparsed.exists_locate? hkeyword
  have hindex := Documented.indexOf_eq hlibrary hdocumented files
    ⟨unit.type.name.text, unit.qualifiedName.text, kind, line, column⟩ rfl rfl
  have hlookUp : (DocIndex.ofDescriptions (unit.entries pages told)).get? = fun key =>
      (DocIndex.said (unit.entries pages told) key).map fun v => { body := some v } :=
    funext (DocIndex.get?_ofDescriptions _)
  rw [Engine.merge, hlocate]
  simp only [hindex]
  split_ifs with hempty
  · refine ⟨_, rfl, (redocumented_of_none fun key => ?_).symm⟩
    have hnone : (DocIndex.ofDescriptions (unit.entries pages told)).get? key = none := by
      rw [DocIndex.get?, List.isEmpty_iff.mp hempty]
      rfl
    simpa [hlookUp] using hnone
  · refine ⟨_, rfl, ?_⟩
    have hline (key : SignatureKey) (v : Text)
        (hv : DocIndex.said (unit.entries pages told) key = some v) : v ≠ [] ∧ '\n' ∉ v :=
      hdocumented.line_of_said hv
    have hshown := shownAs_shownFor engine.config.style hline
    have hrun := finish_run_text hshown hunending unit.qualifiedName.qualifiers hkind
    rw [← hlookUp] at hrun
    rw [text_mergeIndex, config_indexOf]
    exact hrun

section Samples

variable {pages : List (Text × Text)} {table : List (Text × Method × Text)}

private def voidMethod (name : Name) : Method where
  returnType := some { name := Name.typeVoid.unqualified }
  name := name

private def nameN : Name := .ofText "n".toList (by decide)

private def emptyMethod (doc : DocLine) (indent : Nat) (name : Name) : MemberLine :=
  .leaf ⟨some doc, indent, .method (voidMethod name) (.tight _ true rfl) .empty⟩

/-- A block with the method `void name()` and the description `v`. -/
private def methodPage (name : Name) (v : Text) : Text :=
  "<li class=\"blockList\"><pre>void ".toList ++ name.text ++
    "()</pre><div class=\"block\">".toList ++ v ++ "</div></li>".toList

private def signatureOf (name : Name) : Markup.Element where
  tag := "pre".toList
  attributes := []
  outer := "<pre>void ".toList ++ name.text ++ "()</pre>".toList
  inner := "void ".toList ++ name.text ++ "()".toList

private def descriptionOf (v : Text) : Markup.Element where
  tag := "div".toList
  attributes := [⟨"class".toList, "block".toList⟩]
  outer := "<div class=\"block\">".toList ++ v ++ "</div>".toList
  inner := v

private def signaturePieces (name : Name) : List PagePiece :=
  [.token (.name Name.typeVoid.unqualified), .space, .token (.name name.unqualified),
    .token (.mark .openParen), .token (.mark .closeParen)]

/-- The methods of the sample pages, with what is said about them. -/
private def sayings : List (Name × Text) :=
  [(nameN, "zero".toList), (.lowerM, "one".toList), (.lowerM, "two".toList)]

/-- What is read from the sample pages. -/
private theorem sayings_read :
    (∀ saying ∈ sayings,
      signedBlocks (normalizeMarkup (methodPage saying.1 saying.2)) =
          [[signatureOf saying.1, descriptionOf saying.2]] ∧
        (signatureOf saying.1).inner = markupOf (signaturePieces saying.1) ∧
        Markup.readPlainText saying.2 = .ok saying.2 ∧
        ∀ marker ∈ LabelVocabulary.deprecated {}, startsWith marker (squash saying.2) = false) ∧
      signedBlocks (normalizeMarkup "<p>".toList) = [] := by
  decide +kernel

private theorem showsMethod_signatureOf {saying : Name × Text} (hmem : saying ∈ sayings) :
    ShowsMethod (signatureOf saying.1) (voidMethod saying.1) := by
  refine ⟨signaturePieces saying.1, none, ?_, ⟨rfl, ?_⟩, ?_⟩
  · rw [(sayings_read.1 saying hmem).2.1, Option.map_none, Option.getD_none, append_nil]
  all_goals
    exact .cons_cons rfl (.cons_cons rfl (.cons_cons rfl (.cons_cons rfl (.singleton _))))

private theorem undeprecated_descriptionOf {saying : Name × Text} (hmem : saying ∈ sayings) :
    Undeprecated {} (descriptionOf saying.2) := by
  obtain ⟨-, -, hplain, hmarkers⟩ := sayings_read.1 saying hmem
  refine ⟨saying.2, hplain, ?_⟩
  rw [LabelVocabulary.deprecationMarker?, find?_eq_none]
  intro marker hmarker
  simp [hmarkers marker (mem_mergeSort.mp hmarker)]

private theorem pageTells_methodPage {page : PageContext} {name : Name} {v : Text}
    (hmem : (name, v) ∈ sayings) :
    PageTells {} page (normalizeMarkup (methodPage name v)) [(voidMethod name, v)] := by
  have hclass : (descriptionOf v).attribute "class".toList = "block".toList := rfl
  have hblock : "block".toList ∈ (descriptionOf v).classes := by
    rw [Markup.Element.classes, hclass]
    decide
  have hmarkup : ∀ saying ∈ sayings, commentMarkup page (trim saying.2) = saying.2 := by
    simp only [sayings, forall_mem_cons]
    exact ⟨rfl, rfl, rfl, by simp⟩
  have hundeprecated := undeprecated_descriptionOf hmem
  have hdescribes : Describes {} page (descriptionOf v) v :=
    ⟨rfl, hblock, hundeprecated, hmarkup (name, v) hmem⟩
  have hsilent : ∀ other ∈ [signatureOf name] ++ [], Silent {} other := by
    intro other hother
    obtain rfl := mem_singleton.mp hother
    exact ⟨by simp [signatureOf], fun hdiv => absurd hdiv (by simp [signatureOf])⟩
  rw [PageTells, (sayings_read.1 _ hmem).1]
  exact .cons ⟨⟨signatureOf name, rfl, showsMethod_signatureOf hmem⟩,
    [signatureOf name], descriptionOf v, [], rfl, hdescribes, hsilent⟩ .nil

/-- What a table tells about the methods of a class. -/
private def toldBy (table : List (Text × Method × Text)) (path : Text) : List (Method × Text) :=
  (table.filter fun row => row.1 = path).map Prod.snd

private theorem mem_toldBy {path : Text} {entry : Method × Text} :
    entry ∈ toldBy table path ↔ (path, entry) ∈ table := by
  simp [toldBy]

/-- Pages in the order of the class paths that say what a table tells. -/
private theorem documented_of_table (hpackage : unit.package = none)
    (hnames : pages.map Prod.fst = unit.classPaths) (hunique : unit.classPaths.Nodup)
    (hmethods : unit.methods = table.map fun row => (row.1, row.2.1))
    (hline : ∀ row ∈ table, row.2.2 ≠ [] ∧ '\n' ∉ row.2.2)
    (hpages : ∀ page ∈ pages, PageTells {} { package := [], classPath := page.1 }
      (normalizeMarkup page.2) (toldBy table page.1)) :
    unit.Documented {} pages (toldBy table) := by
  have hname : ∀ path, unit.pageName path = path := fun path => by simp [pageName, hpackage]
  have hcontext : ∀ path, unit.context path = { package := [], classPath := path } := fun path => by
    simp [context, packageText, hpackage]
  refine ⟨hnames ▸ hunique, fun path hpath => ?_, fun page hpage _ => ?_, fun path _ m => ?_,
    fun path _ entry hentry => hline _ (mem_toldBy.mp hentry)⟩
  · rw [← hnames] at hpath
    obtain ⟨page, hpage, rfl⟩ := mem_map.mp hpath
    grind
  · exact ⟨page.1, hnames ▸ mem_map_of_mem hpage, (hname page.1).symm⟩
  · rw [hmethods, mem_map]
    refine ⟨fun ⟨v, hv⟩ => ⟨_, mem_toldBy.mp hv, rfl⟩, fun ⟨row, hrow, heq⟩ => ?_⟩
    obtain ⟨rfl, rfl⟩ := Prod.mk.inj heq
    exact ⟨row.2.2, mem_toldBy.mpr hrow⟩

private theorem entries_of_sorted {told : Text → List (Method × Text)}
    (h : unit.Documented {} pages told)
    (hsorted : (pages.filter fun page =>
      startsWith (unit.qualifiedName.text ++ ['.']) page.1).Pairwise fun a b =>
        FileTree.textLe a.1 b.1) :
    unit.entries pages told = (unit.type.name.text :: ((pages.filter fun page =>
      startsWith (unit.qualifiedName.text ++ ['.']) page.1).map fun page =>
        unit.pathOf page.1)).flatMap fun path =>
          descriptions (afterLast '.' path) (told path) := by
  obtain ⟨markup, -, hentries⟩ := h.exists_entries_eq
  simp [hentries, innerPages, sortedPages, mergeSort_of_pairwise hsorted, flatMap_map]

private def sourceOf (rest : Body MemberLine Closing "A".toList) :
    SourceUnit MemberLine Closing where
  package := none
  doc := none
  indent := 0
  type := .ofClass .upperA
  header := .ofClass .upperA
  body := .member (emptyMethod (.ofText 1 "@see B".toList (by decide)) 1 nameN) rest
  lastBreak := true

private def classOf {owner : Text} (indent : Nat) (name : Name) (distinct : name.text ≠ owner)
    (rest : Body MemberLine Closing owner) : Body MemberLine Closing owner :=
  .type none indent (.ofClass name) (.ofClass name) distinct
    (.member (emptyMethod (.sample (indent + 1)) (indent + 1) .lowerM)
      (.close ⟨indent⟩)) rest

private def distinctSource : SourceUnit MemberLine Closing :=
  sourceOf (classOf 1 .upperB (by decide) (.close ⟨0⟩))

private def sharedSource : SourceUnit MemberLine Closing :=
  sourceOf (.type none 1 (.ofClass .upperB) (.ofClass .upperB) (by decide)
    (classOf 2 .upperX (by decide) (.close ⟨1⟩))
    (.type none 1 (.ofClass .upperC) (.ofClass .upperC) (by decide)
      (classOf 2 .upperX (by decide) (.close ⟨1⟩)) (.close ⟨0⟩)))

private theorem parsed_samples : ∀ unit ∈ [distinctSource, sharedSource], unit.Parsed := by
  decide +kernel

private def distinctTable : List (Text × Method × Text) :=
  [("A".toList, voidMethod nameN, "zero".toList), ("A.B".toList, voidMethod .lowerM, "one".toList)]

private def distinctPages : List (Text × Text) :=
  [("A".toList, methodPage nameN "zero".toList), ("A.B".toList, methodPage .lowerM "one".toList)]

private theorem documented_distinctSource :
    distinctSource.Documented {} distinctPages (toldBy distinctTable) := by
  refine documented_of_table rfl rfl (by decide) rfl (by decide) ?_
  simp only [distinctPages, forall_mem_cons]
  exact ⟨pageTells_methodPage (by simp [sayings]), pageTells_methodPage (by simp [sayings]),
    by simp⟩

private def sharedTable : List (Text × Method × Text) :=
  [("A".toList, voidMethod nameN, "zero".toList), ("A.B.X".toList, voidMethod .lowerM,
    "one".toList),
    ("A.C.X".toList, voidMethod .lowerM, "two".toList)]

private def sharedPages : List (Text × Text) :=
  [("A".toList, methodPage nameN "zero".toList), ("A.B".toList, "<p>".toList),
    ("A.B.X".toList, methodPage .lowerM "one".toList), ("A.C".toList, "<p>".toList),
    ("A.C.X".toList, methodPage .lowerM "two".toList)]

private theorem documented_sharedSource :
    sharedSource.Documented {} sharedPages (toldBy sharedTable) := by
  have hempty : ∀ page, PageTells {} page (normalizeMarkup "<p>".toList) [] := by
    intro page
    rw [PageTells, sayings_read.2]
    exact .nil
  refine documented_of_table rfl rfl (by decide) rfl (by decide) ?_
  simp only [sharedPages, forall_mem_cons]
  exact ⟨pageTells_methodPage (by simp [sayings]), hempty _,
    pageTells_methodPage (by simp [sayings]), hempty _, pageTells_methodPage (by simp [sayings]),
    by simp⟩

end Samples

end DocGraft.SourceUnit
