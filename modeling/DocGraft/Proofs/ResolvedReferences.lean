import DocGraft.Proofs.DeclarationWords
import DocGraft.Proofs.ShortReferences

/-!
# References name their targets

The link to a member is shown as a reference that says which class the member is of. The class has
its package before it unless that is the package of the page or the one that is never shown, and the
class of the page is not named at all. Names are left out of the text of the reference, so a page
can take a class for another one: its own package may be the end of a longer package, and a class
without a package may have the name of the class of the page. An anchor has the parameter types of a
method between parentheses, or between dashes in an older spelling.

The main results are `memberReference_text`, `reference?_dashedAnchor`, `shorten_member` and
`QualifiedClass.reference?_shownOn_iff`.
-/

namespace DocGraft

open List Text Pattern Identifier

variable {c : Char} {f path s : Text} {t : ParameterType} {types : List Text}

/-! ### Members -/

/-- The type of a parameter in the anchor of a method, without its package. -/
structure ParameterType where
  qualifiers : List Identifier
  name : Identifier
  dimensions : Nat
  isVariable : Bool
  capital : ∀ w ∈ qualifiers, w.isCapital

namespace ParameterType

/-- The marks behind the name. -/
def marks (t : ParameterType) : Text :=
  (List.replicate t.dimensions "[]".toList).flatten ++ if t.isVariable then "...".toList else []

def text (t : ParameterType) : Text :=
  chain '.' (texts t.qualifiers) (t.name.text ++ t.marks)

end ParameterType

/-- A member of a class, as the anchors of a page name it. -/
inductive MemberAnchor where
  | field (name : Identifier)
  | method (name : Identifier) (types : List ParameterType)

/-- The separator between two types of an anchor. -/
def separator (spaced : Bool) : Text :=
  if spaced then ", ".toList else ",".toList

namespace MemberAnchor

/-- The text of a member, with spaces between its parameter types if `spaced`. -/
def text (spaced : Bool) : MemberAnchor → Text
  | field name => name.text
  | method name types => name.text ++ '(' ::
      (joinWith (separator spaced) (types.map ParameterType.text) ++ [')'])

end MemberAnchor

/-- The characters that stand beside names in a member. -/
def memberMarks : List Char :=
  ['(', ')', '[', ']', ',', ' ', '.']

theorem ParameterType.mem_marks (hc : c ∈ t.marks) : c ∈ ['[', ']', '.'] := by
  rcases mem_append.mp hc with hc | hc
  · obtain ⟨w, hw, hc⟩ := mem_flatten.mp hc
    grind
  · grind

theorem ParameterType.mem_text (hc : c ∈ t.text) : isJavaName c ∨ c ∈ ['[', ']', '.'] := by
  rcases mem_chain hc with ⟨w, hw, hc⟩ | rfl | hc
  · obtain ⟨v, -, rfl⟩ := mem_map.mp hw
    exact .inl (v.all c hc)
  · exact .inr (by decide)
  · exact (mem_append.mp hc).imp (t.name.all c) mem_marks

theorem mem_joinWith {sep : Text} {ts : List Text} (h : c ∈ joinWith sep ts) :
    c ∈ sep ∨ ∃ t ∈ ts, c ∈ t := by
  induction ts with
  | nil => cases h
  | cons t ts ih =>
    by_cases hts : ts = []
    · subst hts
      exact .inr ⟨t, mem_cons_self, h⟩
    · grind [joinWith_cons _ _ hts]

theorem MemberAnchor.mem_text {m : MemberAnchor} {spaced : Bool} (hc : c ∈ m.text spaced) :
    isJavaName c ∨ c ∈ memberMarks := by
  cases m with
  | field name => exact .inl (name.all c hc)
  | method name types =>
    simp only [text, mem_append, mem_cons, not_mem_nil, or_false] at hc
    rcases hc with hc | rfl | hc | rfl
    · exact .inl (name.all c hc)
    · exact .inr (by decide)
    · rcases mem_joinWith hc with hc | ⟨t, ht, hc⟩
      · refine .inr ?_
        cases spaced <;> simp [separator] at hc
        · simp [memberMarks, hc]
        · rcases hc with rfl | rfl <;> decide
      · obtain ⟨type, -, rfl⟩ := mem_map.mp ht
        exact (type.mem_text hc).imp_right fun hmark =>
          (by decide : ['[', ']', '.'] ⊆ memberMarks) hmark
    · exact .inr (by decide)

theorem MemberAnchor.text_ne_nil (m : MemberAnchor) (spaced : Bool) : m.text spaced ≠ [] := by
  cases m with
  | field name => exact name.ne_nil
  | method name types => simp [text]

theorem MemberAnchor.notMem_text (m : MemberAnchor) (spaced : Bool) (hc : isJavaName c = false)
    (hmark : c ∉ memberMarks) : c ∉ m.text spaced := by
  intro hmem
  rcases mem_text hmem with h | h
  · simp [hc] at h
  · exact hmark h

/-! ### Spaces behind commas -/

theorem commaRule_of_ne (hc : c ≠ ',') (before : Option Char) (s : Text) :
    PageContext.commaRule before (c :: s) = none := by
  grind [PageContext.commaRule.eq_def]

theorem exists_substituteFrom_comma (hs : ',' ∉ s) (before : Option Char) (t : Text) :
    ∃ b, substituteFrom PageContext.commaRule 0 before (s ++ t) =
      s ++ substituteFrom PageContext.commaRule 0 b t :=
  exists_substituteFrom_append (fun _ hc => commaRule_of_ne (ne_of_mem_of_not_mem hc hs)) before t

theorem isBlank_of_isJavaName (hc : isJavaName c) : isBlank c = false := by
  rcases Bool.or_eq_true_iff.mp hc with hc | hc
  · exact isBlank_of_isWord hc
  · obtain rfl := of_decide_eq_true hc
    decide

theorem ParameterType.exists_text_eq (t : ParameterType) :
    ∃ c v, t.text = c :: v ∧ isJavaName c := by
  obtain ⟨w, -, s, hs⟩ := exists_chain_texts t.qualifiers t.name t.marks
  obtain ⟨c, v, hw, hc, -⟩ := w.exists_cons
  exact ⟨c, v ++ s, by rw [text, hs, hw]; rfl, hc⟩

/-- A text that can stand between commas. -/
def Listed (t : Text) : Prop :=
  ',' ∉ t ∧ ∃ c v, t = c :: v ∧ isBlank c = false

theorem ParameterType.listed (t : ParameterType) : Listed t.text := by
  obtain ⟨c, v, hv, hc⟩ := t.exists_text_eq
  exact ⟨fun hcomma => absurd (t.mem_text hcomma) (by decide), c, v, hv, isBlank_of_isJavaName hc⟩

/-- A comma gets a space, unless it has one. -/
theorem exists_substituteFrom_separator (spaced : Bool) (before : Option Char)
    (hc : isBlank c = false) (s : Text) :
    ∃ b, substituteFrom PageContext.commaRule 0 before (separator spaced ++ c :: s) =
      ", ".toList ++ substituteFrom PageContext.commaRule 0 b (c :: s) := by
  cases spaced with
  | false =>
    have hrule : PageContext.commaRule before ([','] ++ c :: s) = some (", ".toList, 1) := by
      simp [PageContext.commaRule, hc]
    exact ⟨_, substituteFrom_of_some (w := [',']) (by simp) hrule⟩
  | true =>
    have hrule : PageContext.commaRule before (',' :: ' ' :: c :: s) = none := by
      have hblank : isBlank ' ' := by decide
      simp [PageContext.commaRule, hblank]
    refine ⟨some ' ', ?_⟩
    change substituteFrom PageContext.commaRule 0 before (',' :: ' ' :: c :: s) = _
    rw [substituteFrom_cons_of_none hrule,
      substituteFrom_cons_of_none (commaRule_of_ne (by decide) _ _)]
    rfl

/-- The types of the parameters are written with a space behind each comma. -/
theorem substituteFrom_types (spaced : Bool) (h : ∀ t ∈ types, Listed t) (before : Option Char) :
    substituteFrom PageContext.commaRule 0 before (joinWith (separator spaced) types ++ [')']) =
      joinWith (separator true) types ++ [')'] := by
  induction types generalizing before with
  | nil => rfl
  | cons t types ih =>
    obtain ⟨⟨hcomma, -⟩, h⟩ := forall_mem_cons.mp h
    cases types with
    | nil =>
      obtain ⟨b, hb⟩ := exists_substituteFrom_comma hcomma before [')']
      exact hb
    | cons u types =>
      obtain ⟨c, v, hfirst, hc⟩ : ∃ c v,
          joinWith (separator spaced) (u :: types) ++ [')'] = c :: v ∧ isBlank c = false := by
        obtain ⟨-, c, v, rfl, hc⟩ := h u mem_cons_self
        cases types <;> exact ⟨c, _, rfl, hc⟩
      rw [joinWith_cons _ _ (cons_ne_nil u types), joinWith_cons _ _ (cons_ne_nil u types)]
      simp only [append_assoc]
      obtain ⟨b, hb⟩ := exists_substituteFrom_comma hcomma before (separator spaced ++
        (joinWith (separator spaced) (u :: types) ++ [')']))
      obtain ⟨b', hb'⟩ := exists_substituteFrom_separator spaced b hc v
      rw [hb, hfirst, hb', ← hfirst, ih h]
      rfl

/-- A member without dashes keeps its name. -/
theorem exists_memberReference (w : Identifier) (hs : s = [] ∨ s.head? = some '(') (name : Text) :
    ∃ b, PageContext.memberReference (w.text ++ s) name =
      w.text ++ substituteFrom PageContext.commaRule 0 b s := by
  have hend : ∀ c ∈ s.head?, isJavaName c = false := by
    rcases hs with rfl | hs
    · simp
    · simp only [hs, Option.mem_some_iff]
      rintro c rfl
      decide
  have hdashed : PageContext.dashedMember? (w.text ++ s) = none := by
    rw [PageContext.dashedMember?, w.takeWhile_append hend, drop_left]
    rcases hs with rfl | hs
    · rfl
    · grind
  have hplain : after? "<init>".toList (w.text ++ s) = none := by
    refine Option.eq_none_iff_forall_ne_some.mpr fun rest hrest => ?_
    rw [after?_eq_some_iff] at hrest
    exact w.head?_append (c := '<') (by decide) s (congrArg List.head? hrest)
  rw [PageContext.memberReference, hdashed, hplain]
  exact exists_substituteFrom_comma (w.notMem (by decide)) none s

theorem memberReference_method (w : Identifier) (spaced : Bool) (h : ∀ t ∈ types, Listed t)
    (name : Text) :
    PageContext.memberReference
        (w.text ++ '(' :: (joinWith (separator spaced) types ++ [')'])) name =
      w.text ++ '(' :: (joinWith (separator true) types ++ [')']) := by
  obtain ⟨b, hb⟩ := exists_memberReference w
    (s := '(' :: (joinWith (separator spaced) types ++ [')'])) (.inr rfl) name
  rw [hb, substituteFrom_cons_of_none (commaRule_of_ne (by decide) _ _), substituteFrom_types _ h]

theorem memberReference_text (m : MemberAnchor) (spaced : Bool) (name : Text) :
    PageContext.memberReference (m.text spaced) name = m.text true := by
  cases m with
  | field w =>
    obtain ⟨b, hb⟩ := exists_memberReference w (.inl rfl) name
    rw [append_nil] at hb
    exact hb.trans (append_nil _)
  | method w types =>
    exact memberReference_method w spaced (forall_mem_map.mpr fun t _ => t.listed) name

/-! ### Anchors with dashes -/

/-- A parameter type of an anchor: a dotted name with array dimensions. -/
structure DottedType where
  name : Text
  dimensions : Nat
  ne_nil : name ≠ []
  all : (name.all fun c => isJavaName c || c = '.') = true

def DottedType.text (mark : Text) (t : DottedType) : Text :=
  t.name ++ (List.replicate t.dimensions mark).flatten

/-- The anchor of a method with its types between parentheses. -/
def methodAnchor (name : Identifier) (types : List DottedType) : Text :=
  name.text ++ '(' :: (joinWith [','] (types.map (DottedType.text "[]".toList)) ++ [')'])

/-- The anchor of a method with its types between dashes. -/
def dashedAnchor (name : Identifier) (types : List DottedType) : Text :=
  name.text ++ '-' :: (joinWith ['-'] (types.map (DottedType.text ":A".toList)) ++ ['-'])

namespace DottedType

variable {c : Char}

theorem isJavaName_or_dot (t : DottedType) (hc : c ∈ t.name) : isJavaName c ∨ c = '.' := by
  simpa using all_eq_true.mp t.all c hc

theorem mem_text {mark : Text} {t : DottedType} (hc : c ∈ t.text mark) :
    (isJavaName c ∨ c = '.') ∨ c ∈ mark := by
  refine (mem_append.mp hc).imp t.isJavaName_or_dot fun hc => ?_
  obtain ⟨w, hw, hc⟩ := mem_flatten.mp hc
  rwa [eq_of_mem_replicate hw] at hc

theorem text_ne_nil (mark : Text) (t : DottedType) : t.text mark ≠ [] :=
  append_ne_nil_of_left_ne_nil t.ne_nil _

theorem listed (t : DottedType) : Listed (t.text "[]".toList) := by
  refine ⟨fun hc => absurd (mem_text hc) (by decide), ?_⟩
  obtain ⟨c, v, hv⟩ := exists_cons_of_ne_nil t.ne_nil
  refine ⟨c, _, by rw [text, hv, cons_append], ?_⟩
  rcases t.isJavaName_or_dot (c := c) (by simp [hv]) with hc | rfl
  · exact isBlank_of_isJavaName hc
  · decide

/-- The marks of the dimensions are rewritten. -/
theorem replace_text (t : DottedType) :
    replace ":A".toList "[]".toList (t.text ":A".toList) = t.text "[]".toList := by
  have hmarks : ∀ k, replace ":A".toList "[]".toList (List.replicate k ":A".toList).flatten =
      (List.replicate k "[]".toList).flatten := by
    intro k
    induction k with
    | zero => rfl
    | succ k ih =>
      rw [replicate_succ, flatten_cons, Text.replace_append (by decide), ih, replicate_succ,
        flatten_cons]
  have hcolon : ':' ∉ t.name := fun hc => absurd (t.isJavaName_or_dot hc) (by decide)
  exact (Text.replace_append_of_notMem hcolon _ _ _).trans (congrArg (t.name ++ ·) (hmarks _))

end DottedType

theorem notMem_anchor {opening sep closing : Char} {mark : Text} (hname : isJavaName c = false)
    (hmark : c ∉ ['.', opening, sep, closing] ++ mark) (name : Identifier)
    (types : List DottedType) :
    c ∉ name.text ++ opening ::
      (joinWith [sep] (types.map (DottedType.text mark)) ++ [closing]) := by
  simp only [mem_append, mem_cons, not_mem_nil, or_false, not_or] at hmark ⊢
  refine ⟨name.notMem hname, hmark.1.2.1, fun hc => ?_, hmark.1.2.2.2⟩
  rcases mem_joinWith hc with hc | ⟨t, ht, hc⟩
  · exact hmark.1.2.2.1 (mem_singleton.mp hc)
  · obtain ⟨type, -, rfl⟩ := mem_map.mp ht
    rcases DottedType.mem_text hc with (hc | rfl) | hc
    · simp [hname] at hc
    · exact hmark.1.1 rfl
    · exact hmark.2 hc

theorem dashedMember?_dashedAnchor (name : Identifier) (types : List DottedType) :
    PageContext.dashedMember? (dashedAnchor name types) =
      some (name.text, types.map (DottedType.text ":A".toList)) := by
  have htypes : (if joinWith ['-'] (types.map (DottedType.text ":A".toList)) = [] then []
      else fields '-' (joinWith ['-'] (types.map (DottedType.text ":A".toList)))) =
      types.map (DottedType.text ":A".toList) := by
    cases types with
    | nil => rfl
    | cons t types =>
      have hne : ∀ u ∈ (t :: types).map (DottedType.text ":A".toList), u ≠ [] :=
        forall_mem_map.mpr fun u _ => u.text_ne_nil _
      have hdash : ∀ u ∈ (t :: types).map (DottedType.text ":A".toList), '-' ∉ u :=
        forall_mem_map.mpr fun u _ hc => absurd (DottedType.mem_text hc) (by decide)
      rw [if_neg fun hnil => absurd (eq_nil_of_joinWith hne hnil) (by simp)]
      exact fields_joinWith hdash
  rw [PageContext.dashedMember?, dashedAnchor, name.takeWhile_append (ends_name (by decide) _),
    drop_left]
  have hline : '\n' ∉ dashedAnchor name types := notMem_anchor (by decide) (by decide) name types
  have hparen : '(' ∉ dashedAnchor name types := notMem_anchor (by decide) (by decide) name types
  simp only [dashedAnchor, mem_append, mem_cons, not_or] at hline hparen
  simp only [getLast?_concat, Option.some.injEq, show ('-' = '\n') = False by decide, if_false,
    dropLast_concat, htypes]
  rw [if_neg]
  grind [name.ne_nil]

/-- Both anchors name the same member. -/
theorem memberReference_dashedAnchor (name : Identifier) (types : List DottedType) (owner : Text) :
    PageContext.memberReference (dashedAnchor name types) owner =
      PageContext.memberReference (methodAnchor name types) owner := by
  have hlisted : ∀ t ∈ types.map (DottedType.text "[]".toList), Listed t :=
    forall_mem_map.mpr fun t _ => t.listed
  have hmethod := memberReference_method name false hlisted owner
  have hreplace : (types.map (DottedType.text ":A".toList)).map
      (replace ":A".toList "[]".toList) = types.map (DottedType.text "[]".toList) := by
    rw [map_map]
    exact map_congr_left fun t _ => t.replace_text
  rw [methodAnchor]
  refine Eq.trans ?_ hmethod.symm
  rw [PageContext.memberReference, dashedMember?_dashedAnchor]
  simp only [hreplace, append_assoc, cons_append]
  rfl

/-- What stands behind the path of an address does not make it lead out of the documentation. -/
theorem contains_append_cons {d : Char} {needle : Text} (hc : c ∉ needle) (hd : d ∈ needle)
    (hf : d ∉ f) : contains needle (path ++ c :: f) = contains needle path := by
  rw [Bool.eq_iff_iff, contains_iff, contains_iff]
  refine ⟨fun h => ?_, fun h => h.trans (prefix_append _ _).isInfix⟩
  induction path with
  | nil =>
    rcases mem_cons.mp (h.subset hd) with rfl | hd
    · exact absurd hd hc
    · exact absurd hd hf
  | cons x path ih =>
    rcases infix_cons_iff.mp h with h | h
    · exact ( prefix_of_append_cons (l := x :: path) hc h).isInfix
    · exact (ih h).trans (suffix_cons x path).isInfix

theorem startsWith_append_cons {lead : Text} (hc : c ∉ lead) :
    startsWith lead (path ++ c :: f) = startsWith lead path := by
  rw [Bool.eq_iff_iff, startsWith_iff, startsWith_iff]
  exact ⟨prefix_of_append_cons hc, fun h => h.trans (prefix_append _ _)⟩

/-- **Both spellings of an anchor.** An address whose anchor has the types of a method between
dashes leads where the address with the types between parentheses leads. -/
theorem reference?_dashedAnchor (page : PageContext) {path : Text} (hpath : '#' ∉ path)
    (name : Identifier) (types : List DottedType) :
    page.reference? (path ++ '#' :: dashedAnchor name types) =
      page.reference? (path ++ '#' :: methodAnchor name types) := by
  have hsplit : ∀ f : Text, '/' ∉ f → '%' ∉ f → f ≠ [] → page.reference? (path ++ '#' :: f) =
      if contains "://".toList path || startsWith "mailto:".toList path
          || startsWith "javascript:".toList path then none
      else if endsWith ".html".toList (page.targetPath path) then
        let target := page.targetPath path
        let owner := (Markup.unquote (target.take (target.length - 5))).map fun c =>
          if c = '/' then '.' else c
        some (page.shorten (owner ++ '#' :: PageContext.memberReference f owner))
      else none := by
    intro f hslash hpercent hne
    rw [PageContext.reference?, contains_append_cons (d := '/') (by decide) (by decide) hslash,
      startsWith_append_cons (by decide), startsWith_append_cons (by decide),
      takeWhile_ne_append_cons hpath]
    simp only [drop_length_add_append, drop_one, tail_cons, Markup.unquote_of_notMem hpercent,
      if_neg hne]
  have hne : ∀ s, name.text ++ s ≠ [] := append_ne_nil_of_left_ne_nil name.ne_nil
  rw [hsplit (dashedAnchor name types) (notMem_anchor (by decide) (by decide) name types)
      (notMem_anchor (by decide) (by decide) name types) (hne _),
    hsplit (methodAnchor name types) (notMem_anchor (by decide) (by decide) name types)
      (notMem_anchor (by decide) (by decide) name types) (hne _)]
  simp only [memberReference_dashedAnchor]

/-- A method with an array and another type. -/
theorem reference?_dashedAnchor_array :
    let page := (PageContext.prepare {} "foo".toList "Bar".toList).1
    page.reference? "../java/util/Map.html#of-java.lang.Object:A:A-int-".toList =
        page.reference? "../java/util/Map.html#of(java.lang.Object[][],int)".toList ∧
      page.reference? "../java/util/Map.html#of(java.lang.Object[][],int)".toList =
        some "java.util.Map#of(Object[][], int)".toList := by
  intro page
  refine ⟨?_, by decide +kernel⟩
  exact reference?_dashedAnchor page (show '#' ∉ "../java/util/Map.html".toList by decide)
    (.of "of" (by decide)) [⟨"java.lang.Object".toList, 2, by decide, by decide⟩,
      ⟨"int".toList, 0, by decide, by decide⟩]

/-! ### Packages in members -/

section Package

variable {bound : Char → Bool} (hbound : ∀ c, isJavaName c → bound c) {package : List Identifier}
  (hpackage : package ≠ []) (hsmall : ∀ w ∈ package, w.isCapital = false) {s : Text}

include hbound hpackage hsmall

theorem kept_chain {names : List Identifier} (hnames : ∀ w ∈ names, w.isCapital)
    (hs : Kept (dropPackage bound package) s) :
    Kept (dropPackage bound package) (chain '.' (texts names) s) := by
  have hrule := nameRule_packageRule hbound hpackage
  induction names with
  | nil => exact hs
  | cons w names ih =>
    obtain ⟨hw, hnames⟩ := forall_mem_cons.mp hnames
    exact ((ih hnames).mark hrule (by decide)).name hrule w fun before =>
      packageRule_of_capital hpackage hsmall hw before _

theorem ParameterType.kept_text (t : ParameterType) {c : Char} (hc : c = ',' ∨ c = ')')
    (hs : Kept (dropPackage bound package) (c :: s)) :
    Kept (dropPackage bound package) (t.text ++ c :: s) := by
  have hrule := nameRule_packageRule hbound hpackage
  have hmarks : ∀ d ∈ t.marks, isJavaName d = false := by
    intro d hd
    have hmark := t.mem_marks hd
    simp only [mem_cons, not_mem_nil, or_false] at hmark
    rcases hmark with rfl | rfl | rfl <;> decide
  have hend : ∀ d ∈ (t.marks ++ c :: s).head?, isJavaName d = false := by
    intro d hd
    cases hm : t.marks with
    | nil =>
      rw [hm] at hd
      obtain rfl : c = d := by simpa using hd
      rcases hc with rfl | rfl <;> decide
    | cons e m =>
      rw [hm] at hd
      obtain rfl : e = d := by simpa using hd
      exact hmarks e (by simp [hm])
  -- A dot behind the name of a type is the first one of three.
  have hdots : ∀ u, t.marks ++ c :: s = '.' :: u → u.head? = some '.' := by
    intro u hu
    rw [marks] at hu
    cases hn : t.dimensions with
    | zero =>
      cases hv : t.isVariable with
      | false =>
        rw [hn, hv] at hu
        obtain rfl : c = '.' := (List.cons.inj hu).1
        simp at hc
      | true =>
        grind
    | succ n =>
      grind
  rw [text, ← chain_append_text, append_assoc]
  exact kept_chain hbound hpackage hsmall t.capital ((hs.marks hrule hmarks).name hrule t.name
    fun before => packageRule_of_unqualified hpackage hsmall t.name hend hdots before)

/-- A member has no packages in it. -/
theorem MemberAnchor.kept_text (m : MemberAnchor) :
    Kept (dropPackage bound package) (m.text true) := by
  have hrule := nameRule_packageRule hbound hpackage
  cases m with
  | field name =>
    have hkept := (kept_nil _).name hrule name fun before =>
      packageRule_of_unqualified hpackage hsmall name (s := []) (by simp) (by simp)
        before
    rwa [append_nil] at hkept
  | method name types =>
    have htypes : Kept (dropPackage bound package)
        (joinWith (separator true) (types.map ParameterType.text) ++ [')']) := by
      have hclosing := (kept_nil _).mark hrule (c := ')') (by decide)
      induction types with
      | nil => exact hclosing
      | cons t types ih =>
        cases types with
        | nil => exact t.kept_text hbound hpackage hsmall (.inr rfl) hclosing
        | cons u types =>
          rw [map_cons, joinWith_cons _ _ (by simp), append_assoc, append_assoc]
          exact t.kept_text hbound hpackage hsmall (.inl rfl)
            ((ih.mark hrule (c := ' ') (by decide)).mark hrule (by decide))
    exact (htypes.mark hrule (by decide)).name hrule name fun before =>
      packageRule_of_unqualified hpackage hsmall name (ends_name (by decide) _) (by simp) before

end Package

/-! ### References -/

/-- The package that is never shown. -/
def javaLang : List Identifier :=
  [.of "java" (by decide), .of "lang" (by decide)]

/-- The package before a class in a reference on the page `page`, with the packages left out that
the page takes for its own. -/
def remainder (page : QualifiedClass) (package : List Identifier) : List Identifier :=
  leave page.package (if package = javaLang then [] else package)

theorem isCapital_javaLang : ∀ w ∈ javaLang, w.isCapital = false := by
  decide

theorem texts_javaLang : joinWith ['.'] (texts javaLang) = "java.lang".toList := by
  decide

/-- A package is left as it is, unless it ends with the package of the page. -/
theorem leave_cases (package names : List Identifier) :
    leave package names = names ∧ (package = [] ∨ ¬ package <:+ names) ∨
      package ≠ [] ∧ leave package names ++ package = names := by
  induction names with
  | nil => exact .inl ⟨rfl, by simpa using eq_or_ne package []⟩
  | cons w names ih =>
    rw [leave]
    split_ifs with heq
    · subst heq
      exact .inr ⟨by simp, rfl⟩
    · rcases ih with ⟨hleave, hpackage⟩ | ⟨hne, hleave⟩
      · refine .inl ⟨by rw [hleave], hpackage.imp_right fun hnot hsuffix => ?_⟩
        rcases suffix_cons_iff.mp hsuffix with h | h
        · exact heq h.symm
        · exact hnot h
      · grind

theorem mem_of_mem_leave {package names : List Identifier} {w : Identifier}
    (h : w ∈ leave package names) : w ∈ names := by
  rcases leave_cases package names with ⟨hleave, -⟩ | ⟨-, hleave⟩
  · rwa [hleave] at h
  · grind

theorem leave_nil (names : List Identifier) : leave [] names = names := by
  rcases leave_cases [] names with ⟨h, -⟩ | ⟨h, -⟩
  · exact h
  · exact absurd rfl h

/-- The reference on a page to a member of a class. -/
theorem shorten_member (page target : QualifiedClass) (m : MemberAnchor) :
    page.context.shorten (chain '.' (texts target.package) target.classPath ++ '#' :: m.text true) =
      (if remainder page target.package = [] ∧ target.outer = page.outer ∧ target.name = page.name
        then [] else chain '.' (texts (remainder page target.package)) target.classPath) ++
          '#' :: m.text true := by
  -- The class and the member are kept as they are, and they begin with a capital.
  obtain ⟨w, hmem, s, hs⟩ := exists_chain_texts target.outer target.name ('#' :: m.text true)
  rw [chain_append_text, ← QualifiedClass.classPath] at hs
  have hw := target.capital w hmem
  have hkept : ∀ {bound : Char → Bool}, (∀ c, isJavaName c → bound c) → ∀ {package},
      package ≠ [] → (∀ w ∈ package, w.isCapital = false) →
        Kept (dropPackage bound package) (w.text ++ s) := by
    intro bound hbound package hpackage hsmall
    have hrule := nameRule_packageRule hbound hpackage
    rw [← hs, QualifiedClass.classPath, ← chain_append_text]
    refine kept_chain hbound hpackage hsmall
      (fun v hv => target.capital v (mem_cons_of_mem _ hv)) ?_
    exact ((m.kept_text hbound hpackage hsmall).mark hrule (by decide)).name hrule target.name
      fun before => packageRule_of_capital hpackage hsmall (target.capital _ mem_cons_self)
        before _
  have hlang : ∀ c, isJavaName c → (fun c => isJavaName c || decide (c = '.')) c := by
    intro c hc
    simp [hc]
  have hplain := substitute_wholePackage hlang (by decide) isCapital_javaLang hw target.small
    (hkept hlang (by decide) isCapital_javaLang) (by decide)
  rw [dropPackage, texts_javaLang] at hplain
  have hsmall : ∀ v ∈ if target.package = javaLang then [] else target.package,
      v.isCapital = false := by
    split_ifs
    · simp
    · exact target.small
  have hnear : (if page.context.package = [] then
      chain '.' (texts (if target.package = javaLang then [] else target.package)) (w.text ++ s)
      else substitute page.context.ownPackage (chain '.' (texts (if target.package =
        javaLang then []
        else target.package)) (w.text ++ s))) =
      chain '.' (texts (remainder page target.package)) (w.text ++ s) := by
    by_cases hpackage : page.package = []
    · simp [QualifiedClass.context, QualifiedClass.packageText, hpackage, texts, joinWith,
        remainder, leave_nil]
    · have hnonempty : page.context.package ≠ [] := by
        intro hnil
        have htexts := eq_nil_of_joinWith
          (fun _ hv => (QualifiedClass.plain_of_mem_texts hv).1) hnil
        exact hpackage (map_eq_nil_iff.mp htexts)
      rw [if_neg hnonempty]
      exact substituteFrom_ownPackage (fun _ hc => hc) hpackage page.small hw hsmall
        (hkept (fun _ hc => hc) hpackage page.small) (by decide) rfl
  have hclass := substitute_ownClass page (remainder page target.package ++ target.outer)
    target.name (s := m.text true) (m.notMem_text true (by decide) (by decide))
  rw [texts_append, chain_append, chain_append_text, ← QualifiedClass.classPath, hs] at hclass
  rw [← chain_append_text, hs, PageContext.shorten]
  simp only [hplain, hnear]
  refine hclass.trans ?_
  have hsame : remainder page target.package ++ target.outer = page.outer ↔
      remainder page target.package = [] ∧ target.outer = page.outer := by
    constructor
    · intro heq
      have hnil : remainder page target.package = [] := by
        refine eq_nil_iff_forall_not_mem.mpr fun v hv => ?_
        have hcapital := page.capital v (mem_cons_of_mem _ (heq ▸ mem_append_left _ hv))
        rw [hsmall v (mem_of_mem_leave hv)] at hcapital
        cases hcapital
      exact ⟨hnil, by rwa [hnil] at heq⟩
    · grind
  simp only [hsame, and_assoc]
  split_ifs
  · rfl
  · rw [← hs, chain_append_text]

namespace QualifiedClass

variable {aim below shared : List Identifier} {c : Char} {page target : QualifiedClass}

/-- The address of a member on a page that climbs `steps` directories and goes down the packages
`aim`. -/
def address (target : QualifiedClass) (steps : Nat) (aim : List Identifier) (fragment : Text) :
    Text :=
  chain '/' (List.replicate steps ['.', '.'] ++ texts aim) target.file ++ '#' :: fragment

/-- How a page names a class before a member: not at all if the class is that of the page, without
its package if that is the package of the page or the one that is never shown, and in full
otherwise. -/
def shownOn (page target : QualifiedClass) : Text :=
  if target = page then []
  else if target.package = page.package ∨ target.package = javaLang then target.classPath
  else chain '.' (texts target.package) target.classPath

/-- A page that takes a class for another one: the package of the page is the end of a longer
package, or a class of the unnamed package or of the one that is never shown has the name of the
class of the page. -/
def Misleads (page target : QualifiedClass) : Prop :=
  target.package ≠ page.package ∧
    (page.package ≠ [] ∧ page.package <:+ target.package ∧ target.package ≠ javaLang ∨
      (target.package = [] ∨ target.package = javaLang) ∧
        target.outer = page.outer ∧ target.name = page.name)

theorem notMem_classPath (q : QualifiedClass) (hc : isJavaName c = false) (hdot : c ≠ '.') :
    c ∉ q.classPath := fun hmem => by
  rcases q.isJavaName_or_dot hmem with h | h
  · simp [hc] at h
  · exact hdot h

theorem notMem_address (target : QualifiedClass) (steps : Nat) (aim : List Identifier)
    (hc : isJavaName c = false) (hdot : c ≠ '.') (hslash : c ≠ '/') :
    c ∉ chain '/' (List.replicate steps ['.', '.'] ++ texts aim) target.file := by
  intro hmem
  rcases mem_chain hmem with ⟨w, hw, hmem⟩ | h | hmem
  · rcases mem_append.mp hw with hw | hw
    · grind
    · exact notMem_of_mem_texts hw hc hmem
  · exact hslash h
  · exact target.notMem_file hc hdot hmem

/-- What an address leads to. -/
theorem reference?_address (hpage : page.package = shared ++ below)
    (htarget : target.package = shared ++ aim) (m : MemberAnchor) (spaced : Bool) :
    page.context.reference? (target.address below.length aim (m.text spaced)) =
      some (page.context.shorten
        (chain '.' (texts target.package) target.classPath ++ '#' :: m.text true)) := by
  have hcolon : ':' ∉ target.address below.length aim (m.text spaced) := by
    rw [address, mem_append, mem_cons, not_or, not_or]
    exact ⟨target.notMem_address _ aim (by decide) (by decide) (by decide), by decide,
      m.notMem_text spaced (by decide) (by decide)⟩
  have hinside : contains "://".toList (target.address below.length aim (m.text spaced)) =
      false := by
    rw [Bool.eq_false_iff, ne_eq, contains_iff]
    exact fun h => hcolon (h.subset (by simp))
  have hscheme : ∀ scheme : Text, ':' ∈ scheme →
      startsWith scheme (target.address below.length aim (m.text spaced)) = false := by
    intro scheme hmem
    rw [Bool.eq_false_iff, ne_eq, startsWith_iff]
    exact fun h => hcolon (h.subset hmem)
  have hpath : (target.address below.length aim (m.text spaced)).takeWhile (· ≠ '#') =
      chain '/' (List.replicate below.length ['.', '.'] ++ texts aim) target.file := by
    rw [address, takeWhile_ne_append_cons (target.notMem_address _ aim (by decide) (by decide)
      (by decide))]
  have hfragment : (target.address below.length aim (m.text spaced)).drop
      ((chain '/' (List.replicate below.length ['.', '.'] ++ texts aim) target.file).length + 1) =
        m.text spaced := by
    rw [address, drop_length_add_append]
    rfl
  have hfile : chain '/' (texts target.package) target.file =
      chain '/' (texts target.package) target.classPath ++ ".html".toList := by
    rw [file, chain_append_text]
  have hpercent : '%' ∉ chain '/' (texts target.package) target.classPath := by
    intro hmem
    rcases mem_chain hmem with ⟨w, hw, hmem⟩ | h | hmem
    · exact notMem_of_mem_texts hw (by decide) hmem
    · exact absurd h (by decide)
    · exact target.notMem_classPath (by decide) (by decide) hmem
  have hname : (chain '/' (texts target.package) target.classPath).map
      (fun c => if c = '/' then '.' else c) =
        chain '.' (texts target.package) target.classPath := by
    rw [← joinWith_concat, map_joinWith, joinWith_concat]
    simp only [forall_mem_append, forall_mem_singleton]
    exact ⟨fun w hw => notMem_of_mem_texts hw (by decide),
      target.notMem_classPath (by decide) (by decide)⟩
  have htake : (chain '/' (texts target.package) target.classPath ++ ".html".toList).take
      ((chain '/' (texts target.package) target.classPath ++ ".html".toList).length - 5) =
        chain '/' (texts target.package) target.classPath :=
    take_left' (by simp)
  rw [PageContext.reference?, hinside, hscheme _ (by decide), hscheme _ (by decide)]
  simp only [hpath, hfragment, targetPath_relative hpage htarget, hfile, htake,
    Markup.unquote_of_notMem hpercent, hname, m.text_ne_nil spaced,
    Markup.unquote_of_notMem (m.notMem_text spaced (c := '%') (by decide) (by decide)),
    memberReference_text, endsWith_iff.mpr (suffix_append _ _)]
  rfl

theorem chain_classPath_inj {q : QualifiedClass} {names more : List Identifier}
    (hnames : ∀ w ∈ names, w.isCapital = false) (hmore : ∀ w ∈ more, w.isCapital = false)
    (h : chain '.' (texts names) q.classPath = chain '.' (texts more) q.classPath) :
    names = more := by
  obtain ⟨w, hmem, s, hs⟩ := exists_chain_texts q.outer q.name []
  obtain ⟨c, v, hw, hc, -⟩ := w.exists_capital (q.capital w hmem)
  rw [append_nil, ← classPath, hw, cons_append] at hs
  rw [hs] at h
  exact (eq_of_chain_eq (fun w hw _ => ne_of_capital (hmore w hw) hc)
    (fun w hw _ => ne_of_capital (hnames w hw) hc) h).1

theorem eq_iff (q r : QualifiedClass) :
    q = r ↔ q.package = r.package ∧ q.outer = r.outer ∧ q.name = r.name := by
  cases q
  cases r
  simp

/-- An address on a page is shown as the name of its target exactly if the page does not take the
target for another class. -/
theorem reference?_shownOn_iff (patterns : PatternCache) {page target : QualifiedClass}
    {shared below aim : List Identifier} (hpage : page.package = shared ++ below)
    (htarget : target.package = shared ++ aim) (m : MemberAnchor) (spaced : Bool) :
    (PageContext.prepare patterns page.packageText page.classPath).1.reference?
        (target.address below.length aim (m.text spaced)) =
      some (page.shownOn target ++ '#' :: m.text true) ↔ ¬ page.Misleads target := by
  have hcontext : (PageContext.prepare patterns page.packageText page.classPath).1 =
      page.context := by
    rw [PageContext.prepare, Memo.value_eq, Memo.value_eq]
    rfl
  rw [hcontext, reference?_address hpage htarget, shorten_member, Option.some.injEq,
    List.append_left_inj, shownOn, Misleads, remainder]
  simp only [target.eq_iff page]
  have hpath : target.classPath ≠ [] := by
    rw [classPath]
    exact chain_ne_nil '.' _ target.name.ne_nil
  by_cases hlang : target.package = javaLang
  · -- Nothing is left of the package, so the class is left out if it has the name of the page's.
    by_cases hsame : target.outer = page.outer ∧ target.name = page.name <;>
      by_cases hown : javaLang = page.package <;> simp [hlang, leave, texts, hsame, hown, hpath]
  · rw [if_neg hlang]
    rcases leave_cases page.package target.package with ⟨hleave, hnot⟩ | ⟨hne, hleave⟩
    · rw [hleave]
      by_cases hown : target.package = page.package
      · have hnil : page.package = [] := hnot.resolve_right fun h => h (hown ▸ List.suffix_rfl)
        simp [hown, hnil, texts]
      · have hsuffix : ¬ page.package = [] → ¬ page.package <:+ target.package :=
          fun hne => hnot.resolve_left hne
        by_cases hsame : target.package = [] ∧ target.outer = page.outer ∧ target.name = page.name
        · simp [hsame, texts, hpath]
        · rw [if_neg hsame]
          simpa [hown, hlang, hsame] using hsuffix
    · by_cases hfront : leave page.package target.package = []
      · have hown : target.package = page.package := by rw [← hleave, hfront, List.nil_append]
        rw [hfront]
        simp [hown, texts]
      · have hown : target.package ≠ page.package := fun hown =>
          hfront (List.append_left_eq_self.mp (hleave.trans hown))
        have hsuffix : page.package <:+ target.package := ⟨_, hleave⟩
        have hlonger : leave page.package target.package ≠ target.package := fun heq =>
          hne (List.append_right_eq_self.mp (hleave.trans heq.symm))
        simp only [hfront, hown, hlang, false_and, if_false, or_self, ne_eq, not_false_eq_true,
          true_and, hne, hsuffix, true_or, not_true_eq_false, iff_false]
        exact fun h => hlonger
          (chain_classPath_inj (fun w hw => target.small w (mem_of_mem_leave hw)) target.small h)

/-- A nested class of a package around that of the page. -/
theorem reference?_shownOn_entry :
    let page : QualifiedClass := ⟨[.of "java" (by decide), .of "util" (by decide),
      .of "stream" (by decide)], [], .of "Stream" (by decide), by decide, by decide⟩
    let target : QualifiedClass := ⟨[.of "java" (by decide), .of "util" (by decide)],
      [.of "Map" (by decide)], .of "Entry" (by decide), by decide, by decide⟩
    ¬ page.Misleads target ∧
      (PageContext.prepare {} "java.util.stream".toList "Stream".toList).1.reference?
          "../Map.Entry.html#of(K[],Map.Entry...)".toList =
        some "java.util.Map.Entry#of(K[], Map.Entry...)".toList := by
  intro page target
  have hnot : ¬ page.Misleads target := by
    rw [Misleads]
    decide
  let array : ParameterType := ⟨[], .of "K" (by decide), 1, false, by decide⟩
  let entries : ParameterType := ⟨[.of "Map" (by decide)], .of "Entry" (by decide), 0, true,
    by decide⟩
  have hshown := (@reference?_shownOn_iff {} page target target.package
    [.of "stream" (by decide)] [] rfl (List.append_nil _).symm
    (.method (.of "of" (by decide)) [array, entries]) false).mpr hnot
  have haddress : target.address 1 [] ((MemberAnchor.method (.of "of" (by decide))
      [array, entries]).text false) = "../Map.Entry.html#of(K[],Map.Entry...)".toList := by
    decide
  have htext : page.shownOn target ++ '#' :: (MemberAnchor.method (.of "of" (by decide))
      [array, entries]).text true = "java.util.Map.Entry#of(K[], Map.Entry...)".toList := by
    decide
  rw [htext] at hshown
  exact ⟨hnot, haddress ▸ hshown⟩

/-- The package of the page is left out at the end of another one. -/
theorem reference?_own_package_inside :
    (PageContext.prepare {} "util".toList "Foo".toList).1.reference?
        "../java/util/List.html#size()".toList = some "java.List#size()".toList := by
  decide +kernel

end QualifiedClass

end DocGraft
