import DocGraft.Proofs.EnumConstants

/-!
# Elements of annotation types

An element of an annotation type is declared like a method without parameters, and it can have a
default value. A scanner for the source of an annotation type reads declarations without empty
parentheses and without default values; a scanner for another source reads them as they are. Which
of the two it does depends on the source and not on the type that a declaration stands in. So the
documented methods without parameters get the keys of their innermost types if and only if all of
these are annotation types, or none of them, as the source is.

The main results are `TypeTree.reading_element`, `TypeTree.reading_value` and
`SourceUnit.run_visits_elements_iff`.
-/

namespace DocGraft.TypeTree

open List Text Source Signature Scanner Declaration

variable {before : Option Char} {c : Char} {s t u : Text}

/-! ### Default values -/

theorem isBlank_of_mem_default (h : c ∈ "default".toList) : isBlank c = false := by
  have hall : ("default".toList.all fun c => !isBlank c) = true := by decide
  simpa using all_eq_true.mp hall c h

theorem run_isBlank_default {gap : Text} (hgap : ∀ c ∈ gap, isBlank c) (rest : Text) :
    Text.run isBlank (gap ++ ("default".toList ++ rest)) = gap.length := by
  refine run_append hgap fun c hc => isBlank_of_mem_default ?_
  grind

/-- A default value begins with white space and the word `default`. -/
theorem defaultValueRule_eq_none_iff : defaultValueRule before s = none ↔ ∀ gap rest : Text,
    gap ≠ [] → (∀ c ∈ gap, isBlank c) → s = gap ++ ("default".toList ++ rest) →
      ∃ c ∈ rest.head?, isWord c := by
  rw [defaultValueRule]
  constructor
  · rintro hnone gap rest hne hgap rfl
    by_contra hword
    push Not at hword
    have hend : rest.head?.any isWord = false := by
      grind [Option.any_eq_false]
    have hpos := length_pos_iff.mpr hne
    simp only [run_isBlank_default hgap, drop_left, after?_append, Option.any_some, hend, hpos,
      decide_true, Bool.not_false, Bool.and_true, if_true, reduceCtorEq] at hnone
  · intro h
    simp only [ite_eq_right_iff, Bool.and_eq_true, decide_eq_true_eq, reduceCtorEq, imp_false]
    rintro ⟨hpos, hdefault⟩
    obtain ⟨rest, hrest, hend⟩ := (Option.any_eq_true ..).mp hdefault
    have hsplit : s.takeWhile isBlank ++ s.drop (Text.run isBlank s) = s :=
      prefix_iff_eq_append.mp ( takeWhile_prefix _)
    rw [after?_eq_some_iff.mp hrest] at hsplit
    obtain ⟨c, hc, hword⟩ := h _ rest (length_pos_iff.mp hpos) (fun c hc => mem_takeWhile_imp hc)
      hsplit.symm
    rw [Option.mem_def.mp hc] at hend
    simp [hword] at hend

theorem unmatched_of_notMem (hs : 'd' ∉ s) : Unmatched defaultValueRule s :=
  fun _ _ ht => defaultValueRule_eq_none_iff.mpr fun _ _ _ _ heq =>
    absurd (ht.subset (by rw [heq]; simp)) hs

/-- White space behind a text that ends with something else lets no default value begin in it. -/
theorem defaultValueRule_append (hne : s ≠ []) (hs : defaultValueRule before s = none)
    (hlast : ∀ c ∈ s.getLast?, isBlank c = false) (hu : ∀ c ∈ u.head?, isBlank c) :
    defaultValueRule before (s ++ u) = none := by
  refine defaultValueRule_eq_none_iff.mpr fun gap rest hgap hblank heq => ?_
  have hshort : ∀ v, s ++ v ≠ gap := by
    rintro v rfl
    obtain ⟨init, d, rfl⟩ := eq_nil_or_concat s |>.resolve_left hne
    have hd := hlast d (by simp)
    grind
  rcases append_eq_append_iff.mp heq with ⟨v, rfl, -⟩ | ⟨v, rfl, hv⟩
  · exact absurd rfl (hshort v)
  · -- The word stands in the text, or goes on in the white space.
    rcases append_eq_append_iff.mp hv with ⟨w, hw, rfl⟩ | ⟨w, hw, rfl⟩
    · obtain ⟨c, hc, hword⟩ := defaultValueRule_eq_none_iff.mp hs gap w hgap hblank (by rw [hw])
      grind [Option.mem_def.mp hc]
    · cases w with
      | nil =>
        obtain ⟨c, hc, -⟩ := defaultValueRule_eq_none_iff.mp hs gap [] hgap hblank
          (by rw [hw, append_nil, append_nil])
        cases hc
      | cons d w =>
        have hd := isBlank_of_mem_default (c := d) (by rw [hw]; simp)
        exact absurd (hu d rfl) (by simp [hd])

/-- Up to the white space behind it a text without default values is kept. -/
theorem exists_substituteFrom_default (hs : Unmatched defaultValueRule s)
    (hlast : ∀ c ∈ s.getLast?, isBlank c = false) (hu : ∀ c ∈ u.head?, isBlank c)
    (before : Option Char) : ∃ b, substituteFrom defaultValueRule 0 before (s ++ u) =
      s ++ substituteFrom defaultValueRule 0 b u := by
  refine exists_substituteFrom_of_none (fun c v hv b => ?_) before
  have hend : (c :: v).getLast? = s.getLast? := by
    obtain ⟨w, rfl⟩ := hv
    grind
  exact defaultValueRule_append (cons_ne_nil c v) (hs b _ hv) (hend ▸ hlast) hu

/-! ### What is read for annotation types -/

/-- A declaration is read as it is for annotation types: it has no empty parentheses, and nowhere in
it does the word `default` stand behind white space. -/
structure Spared (s : Text) : Prop where
  parentheses : ¬ "()".toList <:+: s
  default : Unmatched defaultValueRule s

theorem Spared.reading_eq (h : Spared s) (kind : TypeKind) : reading kind s = s := by
  rw [reading]
  split_ifs
  · rw [ replace_of_not_infix h.parentheses, h.default.substitute]
  · rfl

/-- Empty parentheses go away, and the white space behind them is kept. -/
theorem reading_element (hparen : '(' ∉ s) (hs : Unmatched defaultValueRule s)
    (hlast : ∀ c ∈ s.getLast?, isBlank c = false) {gap : Text} (hgap : ∀ c ∈ gap, isBlank c) :
    reading .annotationType (s ++ ("()".toList ++ gap)) = s ++ gap := by
  have hopen : '(' ∉ gap := fun hmem => absurd (hgap _ hmem) (by decide)
  have hreplace := replace_append_of_notMem hopen [')'] [] []
  rw [append_nil] at hreplace
  have hempty : replace ['(', ')'] [] [] = [] := rfl
  obtain ⟨b, hb⟩ :=
    exists_substituteFrom_default hs hlast (fun c hc => hgap c (mem_of_head? hc)) none
  rw [reading, if_pos rfl, show "()".toList = ['(', ')'] from rfl, replace_append_of_notMem hparen,
    replace_append (by simp), nil_append, hreplace, hempty, append_nil, substitute, hb,
    (unmatched_of_notMem fun hmem => absurd (hgap _ hmem) (by decide)).substituteFrom]

/-- A default value goes away with the white space before it. -/
theorem reading_value (hparen : '(' ∉ s) (hs : Unmatched defaultValueRule s)
    (hlast : ∀ c ∈ s.getLast?, isBlank c = false) {gap : Text} (hgap : ∀ c ∈ gap, isBlank c)
    (hne : gap ≠ []) (hc : isBlank c) (v : Text) :
    reading .annotationType (s ++ ("()".toList ++ (gap ++ ("default".toList ++ c :: v)))) = s := by
  have hopen : '(' ∉ gap ++ ("default".toList ++ [c]) := by
    intro hmem
    rcases mem_append.mp hmem with hmem | hmem
    · exact absurd (hgap _ hmem) (by decide)
    · rcases mem_append.mp hmem with hmem | hmem
      · exact absurd hmem (by decide)
      · rw [← mem_singleton.mp hmem] at hc
        exact absurd hc (by decide)
  have hreplace := replace_append_of_notMem hopen [')'] [] v
  simp only [append_assoc, singleton_append] at hreplace
  generalize replace ['(', ')'] [] v = w at hreplace
  obtain ⟨d, gap, rfl⟩ := exists_cons_of_ne_nil hne
  have hword : isWord c = false := isWord_of_isBlank hc
  -- All that follows is the default value.
  have hrule : ∀ b, defaultValueRule b ((d :: gap ++ ("default".toList ++ c :: w)) ++ []) =
      some ([], (d :: gap ++ ("default".toList ++ c :: w)).length) := by
    intro b
    rw [append_nil, defaultValueRule]
    simp only [run_isBlank_default hgap, drop_left, after?_append]
    simp [hword]
  obtain ⟨b, hb⟩ := exists_substituteFrom_default hs hlast
    (u := d :: gap ++ ("default".toList ++ c :: w)) (by simpa using hgap d mem_cons_self) none
  have hvalue := substituteFrom_of_some (by simp) (hrule b)
  rw [append_nil] at hvalue
  rw [reading, if_pos rfl, show "()".toList = ['(', ')'] from rfl, replace_append_of_notMem hparen,
    replace_append (by simp), nil_append, hreplace, substitute, hb, hvalue]
  simp [substituteFrom]

/-- A declaration is read up to its end. -/
theorem exists_declarationLength? (hs : ';' ∈ s) (before : Option Char) :
    ∃ n, declarationLength? before s = some n ∧ n ≤ s.length := by
  induction s generalizing before with
  | nil => cases hs
  | cons c s ih =>
    rw [declarationLength?]
    split_ifs with hend
    · exact ⟨0, rfl, Nat.zero_le _⟩
    · have hne : ';' ≠ c := by
        rintro rfl
        simp at hend
      obtain ⟨n, hn, hle⟩ := ih ((mem_cons.mp hs).resolve_left hne) (some c)
      grind

/-- An element with a default value is read as its type and its name, whatever the value is. -/
theorem exists_readAs_value {d : Declaration} (header : Header d) (n : Nat)
    (hparen : '(' ∉ header.text)
    (hdefault : Unmatched defaultValueRule header.text)
    (hlast : ∀ c ∈ header.text.getLast?, isBlank c = false) (gap : Gap) (hne : gap.text ≠ [])
    (hc : c ∈ gapCharacters) {m : Text} (hm : ';' ∈ m) :
    ∃ head after, ReadAs .annotationType ('\n' :: spaces n) head after header.text ∧
      head ++ after =
        header.text ++ ("()".toList ++ (gap.text ++ ("default".toList ++ c :: m))) := by
  obtain ⟨k, hk, hle⟩ := exists_declarationLength? hm (some c)
  have hsplit :
      (header.text ++ ("()".toList ++ (gap.text ++ ("default".toList ++ c :: m.take k)))) ++
      m.drop k = header.text ++ ("()".toList ++ (gap.text ++ ("default".toList ++ c :: m))) := by
    simp
  have hblank : ∀ e ∈ gap.text, isBlank e := fun e he => isBlank_of_mem_gap (gap.blank e he)
  have hgapMarks : (gapCharacters.all fun c => !isWord c && c ∉ declarationEnds && c ≠ ',') =
      true := by
    decide
  have hmark : ∀ {e : Char}, e ∈ gapCharacters →
      isWord e = false ∧ e ∉ declarationEnds ∧ e ≠ ',' := by
    intro e he
    grind
  refine ⟨_, _, ⟨?_, fun before => ?_, ?_, ?_⟩, hsplit⟩
  · rw [hsplit]
    exact annotationsLength_header header n (c := '(') (by decide) _
  · -- Neither the parentheses nor the word end the declaration.
    have hmarks : ∀ e ∈ "()".toList ++ gap.text, isWord e = false ∧ e ∉ declarationEnds ∧
        e ≠ ',' := by
      intro e he
      rcases mem_append.mp he with he | he
      · have hall : ("()".toList.all fun c => !isWord c && c ∉ declarationEnds && c ≠ ',') =
            true := by
          decide
        grind
      · exact hmark (gap.blank e he)
    obtain ⟨b₁, hb₁⟩ :=
      unended_header header before '(' (')' :: (gap.text ++ ("default".toList ++ c :: m)))
      (by decide) (by decide) (by decide)
    obtain ⟨b₂, hb₂⟩ := exists_declarationLength?_marks hmarks b₁ ("default".toList ++ c :: m)
    obtain ⟨b₃, hb₃⟩ := exists_declarationLength?_word (w := "default".toList) (.of_all (by decide))
      (by decide) (ends_word (hmark hc).1 m) b₂
    have hb₄ := declarationLength?_cons (throwsAt_mark (hmark hc).1 b₃ m) (hmark hc).2.1
      fun h => absurd h (hmark hc).2.2
    rw [append_assoc] at hb₂
    rw [hsplit]
    refine hb₁.trans ?_
    grind
  · -- No comment begins before the value.
    have hslash :
        '/' ∉ header.text ++ ("()".toList ++ (gap.text ++ ("default".toList ++ [c]))) := by
      simp only [mem_append, mem_singleton, not_or]
      refine ⟨header.codeText.notMem (by decide) (by decide), by decide, fun h => ?_, by decide, ?_⟩
      · exact absurd (gap.blank _ h) (by decide)
      · rintro rfl
        exact absurd hc (by decide)
    obtain ⟨b, hb⟩ :=
      exists_substituteFrom_uncommented (uncommented_of_notMem hslash) none (m.take k)
    simp only [append_assoc, singleton_append] at hb
    rw [substitute, hb]
    exact reading_value hparen hdefault hlast hblank hne (isBlank_of_mem_gap hc) _
  · obtain ⟨e, v, hv, he⟩ := exists_cons_header header
    rw [hv]
    exact not_allBlank_cons he v

end DocGraft.TypeTree

namespace DocGraft.Declaration

open List Text TypeTree

variable {d : Declaration} {f : Field}

/-! ### Headers of methods without parameters -/

theorem isChain_append_gapPieces {R : Piece → Piece → Prop} (hR : ∀ p c mem, R p (.gap c mem))
    {pieces : List Piece} (h : pieces.IsChain R) (gap : Gap) :
    (pieces ++ gapPieces gap.text gap.blank).IsChain R := by
  obtain ⟨gap, blank⟩ := gap
  cases gap with
  | nil => rwa [gapPieces, append_nil]
  | cons c gap =>
    refine isChain_append.mpr ⟨h, isChain_gapPieces hR _ gap _, fun p _ q hq => ?_⟩
    obtain rfl := Option.some.inj hq
    exact hR p c _

/-- A header with white space behind it. -/
def Header.spaced (header : Header d) (gap : Gap) : Header d where
  pieces := header.pieces ++ gapPieces gap.text gap.blank
  spells := by
    refine ⟨?_, isChain_append_gapPieces (fun p c mem => ?_) header.spells.apart gap⟩
    · simp [filterMap_gapPieces, header.spells.items_eq]
    · cases p <;> rfl
  unclung := by
    refine isChain_append_gapPieces (fun p c mem => ?_) header.unclung gap
    rcases p with _ | _ | _ <;> rfl
  tokens := header.tokens
  first := by
    cases hpieces : header.pieces with
    | nil =>
      have hitems := header.spells.items_eq
      rw [hpieces] at hitems
      exact absurd hitems.symm (items_ne_nil d)
    | cons p pieces => exact fun q hq => header.first q (by rw [hpieces]; exact hq)

theorem Header.text_spaced (header : Header d) (gap : Gap) :
    (header.spaced gap).text = header.text ++ gap.text := by
  grind [text, spaced, spelling, spelling, spelling_gapPieces]

/-- The method without parameters that has the type and the name of a field. -/
def Field.call (f : Field) : Method where
  modifiers := f.modifiers
  returnType := some f.type
  name := f.name

def emptyParentheses : List Piece :=
  [.item (.token (.mark .openParen)), .item (.token (.mark .closeParen))]

theorem items_call (hf : f.isArray = false) :
    (Declaration.method f.call).items =
      (Declaration.field f).items ++ emptyParentheses.filterMap Piece.item? := by
  simp [items, Method.items, Field.items, Field.call, Method.tokens, Field.tokens, hf, bracketed,
    parameterItems, separated, emptyParentheses, Piece.item?]

/-- The header of the method, with the parentheses right behind the name. -/
def Header.call (header : Header (.field f)) (hf : f.isArray = false) :
    Header (.method f.call) where
  pieces := header.pieces ++ emptyParentheses
  spells := by
    refine ⟨?_, isChain_append.mpr ⟨header.spells.apart, isChain_pair.mpr rfl, fun p _ q hq => ?_⟩⟩
    · rw [items_call hf, filterMap_append, header.spells.items_eq]
    · obtain rfl := Option.some.inj hq
      cases p with
      | gap c mem => rfl
      | item i => simp [Piece.apart, Item.beginsWord, Token.beginsWord]
  unclung := by
    refine isChain_append.mpr ⟨header.unclung, isChain_pair.mpr rfl, fun p _ q hq => ?_⟩
    obtain rfl := Option.some.inj hq
    rcases p with _ | _ | t
    · rfl
    · rfl
    · simp [Piece.clings, Token.beginsWord, Token.opensAnnotationType]
  tokens := by
    intro i hi
    rw [items_call hf] at hi
    rcases mem_append.mp hi with hi | hi
    · exact header.tokens i hi
    · simp only [emptyParentheses, Piece.item?, filterMap_cons, filterMap_nil, mem_pair] at hi
      rcases hi with rfl | rfl <;> rfl
  first := by
    intro p hp
    rw [head?_append, Option.mem_def, Option.or_eq_some_iff] at hp
    rcases hp with hp | ⟨-, hp⟩
    · exact header.first p hp
    · obtain rfl := Option.some.inj hp
      rfl

theorem Header.text_call (header : Header (.field f)) (hf : f.isArray = false) :
    (header.call hf).text = header.text ++ "()".toList := by
  rw [text, call, spelling, flatMap_append]
  rfl

end DocGraft.Declaration

namespace DocGraft.TypeTree

open List Text Source Signature Scanner Declaration

variable {kind : TypeKind} {owner : Text}

/-! ### Elements -/

/-- A default value: what stands between the word `default` and the semicolon. -/
structure ElementValue where
  /-- White space before the value. -/
  space : Char
  mem : space ∈ gapCharacters
  /-- The grains of the value. -/
  grains : List Grain
  /-- The scans of a source pass over them and the semicolon. -/
  inert : Inert (grains ++ codeGrains [';'])

/-- What follows the parentheses of a method without parameters, and white space behind them. -/
inductive ElementTail where
  | plain (body : Option (CodeBlock '{' '}'))
  | value (v : ElementValue)

namespace ElementTail

def grains : ElementTail → List Grain
  | plain body => bodyGrains body
  | value v => codeGrains ("default".toList ++ [v.space]) ++ (v.grains ++ codeGrains [';'])

/-- Whether there is no default value. -/
def isPlain : ElementTail → Bool
  | plain _ => true
  | value _ => false

theorem inert_grains (tail : ElementTail) : Inert tail.grains := by
  cases tail with
  | plain body => exact inert_bodyGrains body
  | value v =>
    have hspace : ∀ c ∈ [v.space], isIdle c := by simpa using isIdle_of_mem_gap v.mem
    have hword : CodeText headerMarks foreignWords "default".toList :=
      .single (.of_all (by decide)) (by decide)
    have hvalue := (v.inert.marks hspace).codeText hword (by decide) (by decide)
      (.inl (ends_word (isWord_of_mem_gap v.mem) _))
    simpa [grains] using hvalue

theorem exists_grains_eq (tail : ElementTail) :
    ∃ as c, tail.grains = as ++ codeGrains [c] ∧ (c = ';' ∨ c = '}') := by
  cases tail with
  | plain body => exact exists_bodyGrains_eq body
  | value v => exact ⟨_, ';', (append_assoc ..).symm, .inl rfl⟩

end ElementTail

/-- A method without parameters, or an element of an annotation type. -/
structure Element where
  doc : Option DocLine
  indent : Nat
  field : Field
  scalar : field.isArray = false
  header : Header (.field field)
  parenless : '(' ∉ header.text
  tight : ∀ c ∈ header.text.getLast?, isBlank c = false
  default : Unmatched defaultValueRule header.text
  gap : Gap
  /-- What follows. -/
  tail : ElementTail
  apart : tail.isPlain = false → gap.text ≠ []

namespace Element

/-- The key of an element in the type `owner`, with its parentheses or without. -/
def key (bare : Bool) (owner : Text) (e : Element) : SignatureKey where
  owner := owner
  member := e.field.name.text
  arguments := if bare then [] else "()".toList

theorem key_inj {e : Element} {bare bare' : Bool} (h : e.key bare owner = e.key bare' owner) :
    bare = bare' := by
  have harguments := congrArg SignatureKey.arguments h
  cases bare <;> cases bare' <;> first | rfl | cases harguments

def lead (e : Element) : Text :=
  spaces e.indent ++ (e.header.text ++ ("()".toList ++ e.gap.text))

theorem inert_code (e : Element) : Inert (codeGrains e.lead ++ e.tail.grains) := by
  have hall : "()".toList.all isIdle = true := by decide
  have hparens : ∀ c ∈ "()".toList ++ e.gap.text, isIdle c :=
    forall_mem_append.mpr ⟨all_eq_true.mp hall, e.gap.idle⟩
  have hspaces : ∀ c ∈ spaces e.indent, isIdle c := by
    intro c hc
    rw [eq_of_mem_replicate hc]
    decide
  have hheader := (e.tail.inert_grains.marks hparens).codeText
    (e.header.codeText_member fun _ => Field.isMember_of_mem) (by decide) (by decide)
    (.inl (ends_word (d := '(') (by decide) _))
  have hcode := hheader.marks hspaces
  simpa [lead] using hcode

/-- An element as a passage of documented code. -/
def passage (bare : Bool) (e : Element) : Passage where
  doc := e.doc
  code := codeGrains e.lead ++ e.tail.grains
  trail := ['\n']
  key := fun owner => e.key bare owner
  standing := e.inert_code.standing
  uncommented := e.inert_code.uncommented
  inked := by
    obtain ⟨c, v, hv, hc⟩ := exists_cons_header e.header
    have hink : (codeGrains e.header.text).any isInk = true := by
      rw [any_isInk_codeGrains, hv, allBlank, all_cons, hc]
      rfl
    simp [lead, hink]
  keyless := e.inert_code.keyless
  balanced := e.inert_code.balanced
  marks := newline_subset_trailMarks

/-- Behind a comment, an element is read with its parentheses unless the source is that of an
annotation type. -/
theorem declares (e : Element) (hkind : kind ≠ .annotationType) (hplain : e.tail.isPlain)
    (howner : IsName owner) : Declares kind owner (e.key false owner) (e.passage false).own := by
  refine ⟨rfl, fun post => ?_⟩
  cases htail : e.tail with
  | value v => simp [htail, ElementTail.isPlain] at hplain
  | plain body =>
    obtain ⟨c, t, hmask, hc⟩ := exists_maskText_bodyGrains body
    refine ⟨_, _, _, _, (declared_header ((e.header.call e.scalar).spaced e.gap) e.indent hc
      (t ++ '\n' :: post)).readAs (reading_of_ne hkind _), ?_, ofDeclaration_header howner _⟩
    rw [Header.text_spaced, Header.text_call]
    simp [Passage.own, passage, lead, htail, ElementTail.grains, hmask]

/-- Behind a comment, an element is read without its parentheses and without its default value if
the source is that of an annotation type. -/
theorem declares_bare (e : Element) (howner : IsName owner) :
    Declares .annotationType owner (e.key true owner) (e.passage true).own := by
  have hblank : ∀ c ∈ e.gap.text, isBlank c := fun c hc => isBlank_of_mem_gap (e.gap.blank c hc)
  refine ⟨rfl, fun post => ?_⟩
  cases htail : e.tail with
  | value v =>
    obtain ⟨head, after, hread, hsplit⟩ := exists_readAs_value e.header e.indent e.parenless
      e.default e.tight e.gap (e.apart (by rw [htail]; rfl)) v.mem
      (m := maskText v.grains ++ ';' :: '\n' :: post) (by simp)
    refine ⟨_, _, _, _, hread, ?_, ofDeclaration_header howner e.header⟩
    rw [hsplit]
    simp [Passage.own, passage, lead, htail, ElementTail.grains]
  | plain body =>
    obtain ⟨c, t, hmask, hc⟩ := exists_maskText_bodyGrains body
    have hdeclared := declared_header ((e.header.call e.scalar).spaced e.gap) e.indent hc
      (t ++ '\n' :: post)
    have hread := reading_element e.parenless e.default e.tight hblank
    rw [← append_assoc, ← Header.text_call _ e.scalar, ← Header.text_spaced,
      ← Header.text_spaced] at hread
    refine ⟨_, _, _, _, ⟨hdeclared.annotations, hdeclared.length, ?_, ?_⟩, ?_,
      ofDeclaration_header howner (e.header.spaced e.gap)⟩
    · rw [hdeclared.uncommented.substitute, hread]
    · obtain ⟨d, v, hv, hd⟩ := exists_cons_header (e.header.spaced e.gap)
      rw [hv]
      exact not_allBlank_cons hd v
    · rw [Header.text_spaced, Header.text_call]
      simp [Passage.own, passage, lead, htail, ElementTail.grains, hmask]

/-- An element is passed as the passage that it is. -/
theorem exists_member (e : Element) {bare : Bool}
    (h : ∀ owner, IsName owner → Declares kind owner (e.key bare owner) (e.passage bare).own) :
    ∃ m : Member kind, grainText m.grains = grainText (e.passage bare).grains ∧
      ∀ owner, m.documented owner = passageKeys owner [e.passage bare] := by
  have hbroken : EndsBroken (passageGrains [e.passage bare]) := by
    obtain ⟨as, c, htail, hc⟩ := e.tail.exists_grains_eq
    refine ⟨commentGrains (e.passage bare).comment? ++ (codeGrains e.lead ++ as), c, ?_, by tauto⟩
    simp [passageGrains, Passage.grains, Passage.own, passage, htail]
  refine ⟨.ofPassages [e.passage bare] (.singleton _) hbroken rfl rfl
    fun owner howner => ⟨fun _ => ?_, trivial⟩, ?_, fun _ => rfl⟩
  · have hown : Declares kind owner ((e.passage bare).key owner) (e.passage bare).own :=
      h owner howner
    simpa [passageGrains] using hown
  · simp [Member.ofPassages, passageGrains]

end Element

/-! ### Members -/

/-- A member of a type. -/
inductive ElementLine where
  | leaf (line : LeafLine) (parameters : line.member.declaration.parameterTypes ≠ some [])
  | element (e : Element)

namespace ElementLine

def text : ElementLine → Text
  | leaf line _ => Form.text line
  | element e => grainText (e.passage false).grains

/-- The documented declaration of a member in the type `owner`; methods without parameters have keys
with their parentheses or without. -/
def keyed (bare : Bool) (owner : Text) : ElementLine → List (SignatureKey × Text)
  | leaf line _ => Form.documented owner line
  | element e => passageKeys owner [e.passage bare]

/-- A member is read as a scanner for sources of a kind reads it: other declarations as they are,
and default values only for annotation types. -/
def Readable (kind : TypeKind) : ElementLine → Prop
  | leaf line _ => Spared line.member.header.text
  | element e => kind = .annotationType ∨ e.tail.isPlain

instance : Form ElementLine where
  text := text
  documented owner line := line.keyed false owner

end ElementLine

/-- A member whose documented declaration has a key with parentheses or without. -/
structure KeyedLine (bare : Bool) where
  line : ElementLine

def keyedLine (bare : Bool) (line : ElementLine) : KeyedLine bare :=
  ⟨line⟩

instance (bare : Bool) : Form (KeyedLine bare) where
  text keyed := keyed.line.text
  documented owner keyed := keyed.line.keyed bare owner

/-- The kind of the source decides about the parentheses. -/
theorem isMember_keyedLine {line : ElementLine} (h : line.Readable kind) :
    IsMember kind (keyedLine (decide (kind = .annotationType)) line) := by
  cases line with
  | leaf line parameters =>
    have hline : IsMember kind line := isMember_leafLine (Spared.reading_eq h kind)
    exact hline
  | element e =>
    have hdeclares : ∀ owner, IsName owner → Declares kind owner
        (e.key (decide (kind = .annotationType)) owner)
        (e.passage (decide (kind = .annotationType))).own := by
      intro owner howner
      by_cases hkind : kind = .annotationType
      · subst hkind
        exact e.declares_bare howner
      · rw [decide_eq_false hkind]
        exact e.declares hkind (h.resolve_left hkind) howner
    obtain ⟨m, htext, hdocumented⟩ := e.exists_member hdeclares
    exact ⟨m, htext, fun owner _ => hdocumented owner⟩

/-! ### Keys by innermost types -/

namespace Body

/-- The documented declarations in the body of the type `owner` with the keyword `keyword`; `bare`
says for which types the keys of methods without parameters have no parentheses. -/
def keyedBy (bare : (keyword : Text) → Bool) :
    {owner : Text} → (keyword : Text) → Body ElementLine Closing owner → List (SignatureKey × Text)
  | _, _, close _ => []
  | owner, keyword, member line rest => line.keyed (bare keyword) owner ++ rest.keyedBy bare keyword
  | owner, keyword, type doc _ h _ _ body rest =>
    doc.toList.map (fun doc => ((Declaration.type h).key owner, doc.line)) ++
      (body.keyedBy bare h.keyword ++ rest.keyedBy bare keyword)

/-- The methods without parameters in a body, each with the keyword of its innermost type. -/
def elements : {owner : Text} → (keyword : Text) → Body ElementLine Closing owner →
    List (Text × Element)
  | _, _, close _ => []
  | _, keyword, member (.leaf _ _) rest => rest.elements keyword
  | _, keyword, member (.element e) rest => (keyword, e) :: rest.elements keyword
  | _, keyword, type _ _ h _ _ body rest => body.elements h.keyword ++ rest.elements keyword

theorem keyedBy_const (bare : Bool) (keyword : Text) (body : Body ElementLine Closing owner) :
    body.keyedBy (fun _ => bare) keyword = (body.map (keyedLine bare)).documented := by
  induction body generalizing keyword with
  | close closing => rfl
  | member line rest ih => rw [keyedBy, ih, map, documented]; rfl
  | type doc indent h header distinct body rest ihBody ihRest =>
    rw [keyedBy, ihBody, ihRest, map, documented]

theorem text_map_keyedLine (bare : Bool) (body : Body ElementLine Closing owner) :
    (body.map (keyedLine bare)).text = body.text := by
  induction body with
  | close closing => rfl
  | member line rest ih => rw [map, text, ih, text]; rfl
  | type doc indent h header distinct body rest ihBody ihRest =>
    rw [map, text, ihBody, ihRest, text]

theorem headers_map_keyedLine (bare : Bool) (body : Body ElementLine Closing owner) :
    (body.map (keyedLine bare)).headers = body.headers := by
  induction body with
  | close closing => rfl
  | member line rest ih => exact ih
  | type doc indent h header distinct body rest ihBody ihRest =>
    rw [map, headers, ihBody, ihRest, headers]

theorem length_keyedBy (bare bare' : Text → Bool) (keyword : Text)
    (body : Body ElementLine Closing owner) :
    (body.keyedBy bare keyword).length = (body.keyedBy bare' keyword).length := by
  induction body generalizing keyword with
  | close closing => rfl
  | member line rest ih =>
    rw [keyedBy, keyedBy, length_append, length_append, ih]
    cases line with
    | leaf line parameters => rfl
    | element e => simp [ElementLine.keyed, passageKeys, Element.passage]
  | type doc indent h header distinct body rest ihBody ihRest =>
    simp only [keyedBy, length_append, ihBody, ihRest]

/-- Two ways to key methods without parameters agree if and only if they do for the innermost types
of the documented ones. -/
theorem keyedBy_eq_iff (bare bare' : Text → Bool) (keyword : Text)
    (body : Body ElementLine Closing owner) :
    body.keyedBy bare keyword = body.keyedBy bare' keyword ↔
      ∀ p ∈ body.elements keyword, p.2.doc.isSome → bare p.1 = bare' p.1 := by
  induction body generalizing keyword with
  | close closing => simp [keyedBy, elements]
  | member line rest ih =>
    cases line with
    | leaf line parameters => rw [keyedBy, keyedBy, elements, ← ih]; exact append_right_inj _
    | element e =>
      rw [elements, forall_mem_cons, ← ih, keyedBy, keyedBy]
      cases hdoc : e.doc with
      | none => simp [ElementLine.keyed, passageKeys, Element.passage, hdoc]
      | some doc =>
        simp only [ElementLine.keyed, passageKeys, Element.passage, hdoc, flatMap_cons, flatMap_nil,
          Option.toList_some, map_cons, map_nil, append_nil, singleton_append, cons.injEq,
          Prod.mk.injEq, and_true, Option.isSome_some, forall_const]
        exact and_congr_left fun _ => ⟨Element.key_inj, fun h => by rw [h]⟩
  | type doc indent h header distinct body rest ihBody ihRest =>
    rw [elements, forall_mem_append, ← ihBody, ← ihRest, keyedBy, keyedBy, append_cancel_left_eq]
    exact ⟨fun h => append_inj h (length_keyedBy ..), fun h => by rw [h.1, h.2]⟩

end Body

end DocGraft.TypeTree

namespace DocGraft.SourceUnit

open List Text Source Signature Scanner Declaration TypeTree

variable {kind : TypeKind}

/-! ### Whole sources -/

/-- The documented declarations of a source with their keys and comments, in order; `bare` says for
which types the keys of methods without parameters have no parentheses. -/
def keyedBy (bare : (keyword : Text) → Bool) (unit : SourceUnit ElementLine Closing) :
    List (SignatureKey × Text) :=
  unit.doc.toList.map (fun doc =>
    ((Declaration.type unit.type).key unit.type.name.text, doc.line)) ++
    unit.body.keyedBy bare unit.type.keyword

/-- The methods without parameters of a source, each with the keyword of its innermost type. -/
def elements (unit : SourceUnit ElementLine Closing) : List (Text × Element) :=
  unit.body.elements unit.type.keyword

/-- The declarations of a source are read as a scanner for sources of the kind `kind` reads them. -/
structure Readable (kind : TypeKind) (unit : SourceUnit ElementLine Closing) : Prop where
  headers : ∀ s ∈ unit.header.text :: unit.body.headers, Spared s
  members : ∀ line ∈ unit.body.members, line.Readable kind

/-- A run visits methods without parameters by their kind of source: in that of an annotation type
they have keys without parentheses. -/
theorem visited_elements {unit : SourceUnit ElementLine Closing} (h : unit.Readable kind)
    (qualifiers : List Name) (synthesize : CommentSpan → LocalizedComment → Synthesis) :
    (run synthesize (fun _ => none)
        (start unit.text (QualifiedName.text ⟨qualifiers, unit.type.name⟩) kind)).visited =
      unit.keyedBy fun _ => decide (kind = .annotationType) := by
  set bare := decide (kind = .annotationType) with hbare
  have hsound : (unit.map (keyedLine bare)).Sound kind := by
    refine ⟨fun keyed hkeyed => ?_, fun closing _ => isEnding_closing closing, fun s hs => ?_⟩
    · rw [map, Body.members_map] at hkeyed
      obtain ⟨line, hline, rfl⟩ := mem_map.mp hkeyed
      exact isMember_keyedLine (h.members line hline)
    · rw [map, Body.headers_map_keyedLine] at hs
      exact (h.headers s hs).reading_eq kind
  have htext : (unit.map (keyedLine bare)).text = unit.text := by
    rw [text, text, map, Body.text_map_keyedLine]
    rfl
  have hvisited := (hsound.run_visits qualifiers synthesize).1
  rw [htext, documented, map, ← Body.keyedBy_const bare unit.type.keyword] at hvisited
  exact hvisited

/-- **Elements of annotation types.** The keys that a run visits leave the parentheses of methods
without parameters out by the kind of the source. They leave them out exactly inside of annotation
types if and only if every documented method without parameters stands in an annotation type just
when the source is that of one. -/
theorem run_visits_elements_iff (unit : SourceUnit ElementLine Closing) {kind : TypeKind}
    (hunit : unit.Readable kind) (qualifiers : List Name)
    (synthesize : CommentSpan → LocalizedComment → Synthesis) :
    (run synthesize (fun _ => none)
        (start unit.text (QualifiedName.text ⟨qualifiers, unit.type.name⟩) kind)).visited =
        unit.keyedBy (fun _ => decide (kind = .annotationType)) ∧
      ((run synthesize (fun _ => none)
          (start unit.text (QualifiedName.text ⟨qualifiers, unit.type.name⟩) kind)).visited =
          unit.keyedBy (fun keyword => decide (keyword = "@interface".toList)) ↔
        ∀ p ∈ unit.elements, p.2.doc.isSome →
          (p.1 = "@interface".toList ↔ kind = .annotationType)) := by
  rw [visited_elements hunit]
  refine ⟨rfl, ?_⟩
  rw [keyedBy, keyedBy, append_cancel_left_eq, Body.keyedBy_eq_iff]
  refine forall₃_congr fun p _ _ => ?_
  rw [decide_eq_decide]
  exact iff_comm

/-! ### Nested annotation types -/

/-- The element `int x()` behind a comment, with what follows it. -/
private def elementOf (doc : DocLine) (gap : Gap) (tail : ElementTail)
    (apart : tail.isPlain = false → gap.text ≠ []) : Element where
  doc := some doc
  indent := 2
  field := {
    type := { name := Name.typeInt.unqualified }
    name := .lowerX }
  scalar := rfl
  header := .tight _ false (by decide)
  parenless := by decide
  tight := fun c hc => by
    obtain rfl : 'x' = c := Option.some.inj hc
    decide
  default := unmatched_of_notMem (by decide)
  gap := gap
  tail := tail
  apart := apart

private def spaceGap : Gap where
  text := [' ']
  blank := by simp [gapCharacters]

/-- The default value `{1}`. -/
private def sampleValue : ElementValue where
  space := ' '
  mem := space_mem_gapCharacters
  grains := codeGrains ['{'] ++ (codeGrains "1".toList ++ codeGrains ['}'])
  inert := (inert_word (.of_all (by decide)) (by decide)).braces.append
    (inert_marks (by simpa using by decide)) (ends_word (by decide) _)

/-- The header of a type with a name of one letter. -/
private def typeOf (keyword : Text) (mem : keyword ∈ typeWords) (name : Name) : TypeHeader where
  keyword := keyword
  mem := mem
  name := name

/-- An annotation type with an element and a type of a kind in it that has another one. -/
private def unitOf (keyword : Text) (mem : keyword ∈ typeWords) (first second : Element) :
    SourceUnit ElementLine Closing where
  package := none
  doc := none
  indent := 0
  type := typeOf "@interface".toList (by decide) .upperA
  header := .tight _ true (by decide)
  body := .member (.element first)
    (.type none 1 (typeOf keyword mem .upperB) (.tight _ true rfl)
      (show "B".toList ≠ "A".toList by decide) (.member (.element second) (.close ⟨1⟩))
        (.close ⟨0⟩))
  lastBreak := true

private def valueElement : Element :=
  elementOf (.ofText 2 "v".toList (by decide)) spaceGap (.value sampleValue) (by decide)

private def bodyElement : Element :=
  elementOf (.ofText 2 "w".toList (by decide)) .none (.plain (some .empty)) (by decide)

set_option maxRecDepth 4000 in
theorem run_visits_elements_default :
    let unit := unitOf "@interface".toList (by decide) valueElement
      (elementOf (.ofText 2 "w".toList (by decide)) .none (.plain none) (by decide))
    unit.Readable .annotationType ∧
      unit.text =
        ("@interface A \x7b\n  /** v */\n  int x() default \x7b1\x7d;\n @interface B \x7b\n" ++
        "  /** w */\n  int x();\n \x7d\n\x7d\n").toList ∧
      (run (Comment.synthesize {}) (fun _ => none)
        (start unit.text "A".toList .annotationType)).visited =
        [(⟨"A".toList, "x".toList, [], false⟩, "  /** v */\n".toList),
          (⟨"B".toList, "x".toList, [], false⟩, "  /** w */\n".toList)] := by
  intro unit
  have hunit : unit.Readable .annotationType := by
    refine ⟨fun s hs => ?_, fun line hline => ?_⟩
    · rcases mem_pair.mp hs with rfl | rfl <;>
        exact ⟨by decide, unmatched_of_notMem (by decide)⟩
    · rcases mem_pair.mp hline with rfl | rfl <;> exact .inl rfl
  refine ⟨hunit, by decide +kernel, ?_⟩
  refine ((run_visits_elements_iff unit hunit [] (Comment.synthesize {})).2.mpr ?_).trans
    (by decide +kernel)
  intro p hp _
  rcases mem_pair.mp hp with rfl | rfl <;> exact ⟨fun _ => rfl, fun _ => rfl⟩

/-- In a class inside of an annotation type, a method without parameters loses its parentheses. -/
theorem run_visits_elements_nested_class :
    let unit := unitOf "class".toList (by decide) valueElement bodyElement
    (run (Comment.synthesize {}) (fun _ => none)
      (start unit.text "A".toList .annotationType)).visited =
        [(⟨"A".toList, "x".toList, [], false⟩, "  /** v */\n".toList),
          (⟨"B".toList, "x".toList, [], false⟩, "  /** w */\n".toList)] ∧
      unit.keyedBy (fun keyword => decide (keyword = "@interface".toList)) =
        [(⟨"A".toList, "x".toList, [], false⟩, "  /** v */\n".toList),
          (⟨"B".toList, "x".toList, "()".toList, false⟩, "  /** w */\n".toList)] :=
  ⟨by decide +kernel, by decide +kernel⟩

end DocGraft.SourceUnit
