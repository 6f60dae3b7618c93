import DocGraft.Proofs.DeclarationKeys
import DocGraft.Proofs.MaskedScans
import DocGraft.Proofs.PlaceholderRemoval

/-!
# Code of words and marks

Declarations without annotations are words and marks. What the scans of a source do with such code
follows from its words: whether one of them declares a type or ends a declaration. Of what stands in
brackets, such as the body of a method, only one thing matters: that the scans pass over it.
-/

namespace DocGraft.Source

open List Text Signature

/-! ### Words and marks -/

/-- A text is made of words and marks: words do not run together, and none of them is avoided. -/
inductive CodeText (marks : List Char) (avoided : List Text) : Text → Prop where
  | nil : CodeText marks avoided []
  | word {w s : Text} (hw : IsWord w) (havoid : w ∉ avoided)
      (hend : ∀ c ∈ s.head?, isWord c = false) (hs : CodeText marks avoided s) :
      CodeText marks avoided (w ++ s)
  | mark {c : Char} {s : Text} (hc : c ∈ marks) (hs : CodeText marks avoided s) :
      CodeText marks avoided (c :: s)

namespace CodeText

variable {marks : List Char} {avoided : List Text} {s : Text} {t : Text}

theorem single {w : Text} (hw : IsWord w) (havoid : w ∉ avoided) : CodeText marks avoided w := by
  have h : CodeText marks avoided (w ++ []) := word hw havoid (by simp) nil
  rwa [append_nil] at h

theorem marks_append {m : Text} (hm : ∀ c ∈ m, c ∈ marks) (hs : CodeText marks avoided s) :
    CodeText marks avoided (m ++ s) := by
  induction m with
  | nil => exact hs
  | cons c m ih =>
    obtain ⟨hc, hm⟩ := forall_mem_cons.mp hm
    exact mark hc (ih hm)

theorem mono (h : CodeText marks avoided s) {marks' : List Char} (hmarks : ∀ c ∈ marks, c ∈ marks')
    {avoided' : List Text} (havoided : ∀ w ∈ avoided', w ∈ avoided) :
      CodeText marks' avoided' s := by
  induction h with
  | nil => exact nil
  | word hw havoid hend _ ih => exact word hw (fun hmem => havoid (havoided _ hmem)) hend ih
  | mark hc _ ih => exact mark (hmarks _ hc) ih

/-- What words and marks before a text preserve is preserved by code, if a word can follow the code
or the text does not begin with one. -/
theorem prepend {P : Text → Prop} (h : CodeText marks avoided s)
    (hword : ∀ w t, IsWord w → w ∉ avoided → (∀ c ∈ t.head?, isWord c = false) → P t → P (w ++ t))
    (hmark : ∀ c t, c ∈ marks → P t → P (c :: t)) (ht : P t)
    (hend : (∀ c ∈ t.head?, isWord c = false) ∨ ∀ c ∈ s.getLast?, isWord c = false) :
    P (s ++ t) := by
  induction h with
  | nil => exact ht
  | @word w s hw havoid hs hcode ih =>
    rw [append_assoc]
    cases s with
    | nil =>
      -- The word is the last one before `t`.
      rw [append_nil] at hend
      have hlast : ∀ c ∈ t.head?, isWord c = false := by
        refine hend.resolve_right fun hlast => ?_
        obtain ⟨v, c, rfl⟩ := eq_nil_or_concat w |>.resolve_left hw.ne_nil
        have hc := hlast c (by simp)
        exact absurd (hw.all c (by simp)) (by simp [hc])
      exact hword w t hw havoid hlast ht
    | cons d s =>
      refine hword w _ hw havoid ?_ (ih ?_)
      · exact hs
      · grind
  | @mark c s hc hcode ih =>
    refine hmark c _ hc (ih ?_)
    refine hend.imp_right fun hlast => ?_
    cases s with
    | nil => simp
    | cons d s => rwa [getLast?_cons_cons] at hlast

variable (h : CodeText marks avoided s)

include h

/-- Code that can be followed by a word is followed by code. -/
theorem append (ht : CodeText marks avoided t)
    (hend : (∀ c ∈ t.head?, isWord c = false) ∨ ∀ c ∈ s.getLast?, isWord c = false) :
    CodeText marks avoided (s ++ t) :=
  h.prepend (fun _ _ hw havoid hhead ht => word hw havoid hhead ht) (fun _ _ hc ht => mark hc ht) ht
    hend

theorem mem : ∀ c ∈ s, isWord c ∨ c ∈ marks := by
  induction h with
  | nil => simp
  | word hw _ _ _ ih =>
    intro c hc
    rcases mem_append.mp hc with hc | hc
    · exact .inl (hw.all c hc)
    · exact ih c hc
  | mark hm _ ih =>
    intro c hc
    rcases mem_cons.mp hc with rfl | hc
    · exact .inr hm
    · exact ih c hc

theorem notMem {c : Char} (hword : isWord c = false) (hmarks : c ∉ marks) : c ∉ s := by
  intro hc
  rcases h.mem c hc with hc | hc
  · exact absurd hc (by simp [hword])
  · exact hmarks hc

theorem bare (hmarks : (marks.all fun c => c ≠ '/' ∧ c ≠ '"' ∧ c ≠ '\'') = true) : Bare s := by
  intro c hc
  rcases h.mem c hc with hword | hmark
  · refine ⟨?_, ?_, ?_⟩ <;>
    · rintro rfl
      exact absurd hword (by decide)
  · simpa using all_eq_true.mp hmarks c hmark

theorem keyless_append (hmarks : (marks.all fun c => !isWord c && c ≠ '@') = true)
    (hkeys : ∀ w ∈ typeWords, w ∈ avoided ∨ '@' ∈ w) (ht : Keyless t)
    (hend : (∀ c ∈ t.head?, isWord c = false) ∨ ∀ c ∈ s.getLast?, isWord c = false) :
    Keyless (s ++ t) := by
  refine h.prepend (fun w t hw havoid hhead ht => ?_) (fun c t hc ht => ?_) ht hend
  · refine ht.word hhead hw fun hmem => ?_
    rcases hkeys w hmem with hmem | hmem
    · exact havoid hmem
    · exact hw.notMem (by decide) hmem
  · have hmark : isWord c = false ∧ c ≠ '@' := by simpa using all_eq_true.mp hmarks c hc
    exact ht.mark hmark.1 hmark.2

theorem keyless (hmarks : (marks.all fun c => !isWord c && c ≠ '@') = true)
    (hkeys : ∀ w ∈ typeWords, w ∈ avoided ∨ '@' ∈ w) : Keyless s := by
  have hnil := h.keyless_append hmarks hkeys keyless_nil (.inl (by simp))
  rwa [append_nil] at hnil

/-- Code without the words and marks for it ends no declaration. -/
theorem unended (hmarks : (marks.all fun c => !isWord c && c ∉ declarationEnds) = true)
    (hthrows : "throws".toList ∈ avoided) (huncut : Uncut s) : Unended s := by
  induction h with
  | nil => exact unended_nil
  | @word w s hw havoid hend _ ih =>
    exact (ih huncut.of_append).word hend hw fun heq => havoid (heq ▸ hthrows)
  | @mark c s hc hs ih =>
    have hrest : Uncut s := Uncut.of_append (w := [c]) huncut
    have hmark : isWord c = false ∧ c ∉ declarationEnds := by simpa using all_eq_true.mp hmarks c hc
    exact (ih hrest).mark hmark.1 hmark.2 huncut

end CodeText

end DocGraft.Source

namespace DocGraft.Declaration

open List Text Signature Source

variable {d : Declaration} {i : Item} {t : Token} {c : Char} {h : TypeHeader} {pieces : List Piece}

/-! ### Spellings without annotations -/

/-- The marks in spellings of declarations. -/
def headerMarks : List Char :=
  gapCharacters ++ ['.', '-', '(', ')', ',', '<', '>', '?', '&', '[', ']']

/-- Whether a token can stand in the declaration of a member. -/
def Token.isMember : Token → Bool
  | keyword word _ => word ∉ typeWords
  | _ => true

theorem Name.codeText (n : Name) : CodeText headerMarks foreignWords n.text :=
  .single n.isName.toIsWord n.isName.not_foreign

theorem QualifiedName.codeText (q : QualifiedName) : CodeText headerMarks foreignWords q.text := by
  obtain ⟨qualifiers, name⟩ := q
  induction qualifiers with
  | nil => exact name.codeText
  | cons n ns ih =>
    have h := CodeText.word n.isName.toIsWord n.isName.not_foreign (ends_word (by decide) _)
      (CodeText.mark (c := '.') (by decide) ih)
    simpa [QualifiedName.text] using h

theorem codeText_keyword {word : Text} (mem : word ∈ keywords) (h : word ∉ typeWords) :
    CodeText headerMarks foreignWords word := by
  -- All these keywords are words but one, which has a dash in it.
  have hall : (keywords.all fun word => typeWords.contains word ||
      (!word.isEmpty && word.all Text.isWord && !foreignWords.contains word) ||
        word == "non-sealed".toList) = true := by
    decide
  have hone := all_eq_true.mp hall word mem
  have hnot : typeWords.contains word = false := by simpa using h
  rw [hnot, Bool.false_or, Bool.or_eq_true, Bool.and_eq_true, beq_iff_eq] at hone
  rcases hone with ⟨hword, hforeign⟩ | rfl
  · exact .single (.of_all hword) (by simpa using hforeign)
  · have hsealed : CodeText headerMarks foreignWords "sealed".toList :=
      .single (.of_all (by decide)) (by decide)
    exact CodeText.word (w := "non".toList) (.of_all (by decide)) (by decide)
      (ends_word (by decide) _) (.mark (by decide) hsealed)

theorem Token.codeText (h : t.isMember) : CodeText headerMarks foreignWords t.text := by
  cases t with
  | name q => exact q.codeText
  | arrayName n =>
    exact .word n.isName.toIsWord n.isName.not_foreign (ends_word (by decide) _)
      (.mark (by decide) (.mark (by decide) .nil))
  | keyword word mem => exact codeText_keyword mem (of_decide_eq_true h)
  | mark m =>
    have hall : m.text.all headerMarks.contains = true := by cases m <;> decide
    have hmark : CodeText headerMarks foreignWords (m.text ++ []) :=
      .marks_append (fun c hc => by simpa using all_eq_true.mp hall c hc) .nil
    rwa [append_nil] at hmark

/-- The words that stand in no declaration. -/
def outsideWords : List Text :=
  ["throws", "package"].map String.toList

theorem Token.codeText_outside (t : Token) :
    CodeText ('@' :: headerMarks) outsideWords t.text := by
  have houtside : ∀ w ∈ outsideWords, w ∈ foreignWords := by decide
  by_cases h : t.isMember
  · exact (codeText h).mono (fun c hc => mem_cons_of_mem _ hc) houtside
  · cases t with
    | name q => exact absurd rfl h
    | arrayName n => exact absurd rfl h
    | mark m => exact absurd rfl h
    | keyword word mem =>
      have hword : word ∈ typeWords := by simpa [isMember] using h
      -- One of these keywords is a word behind a mark.
      have hall : (typeWords.all fun word => (!word.isEmpty && word.all Text.isWord &&
          !outsideWords.contains word) || word == '@' :: "interface".toList) = true := by
        decide
      have hone := all_eq_true.mp hall word hword
      rw [Bool.or_eq_true, Bool.and_eq_true, beq_iff_eq] at hone
      rcases hone with ⟨hword, hnot⟩ | rfl
      · have hnot : word ∉ outsideWords := by simpa using hnot
        exact .single (.of_all hword) hnot
      · exact .mark mem_cons_self (.single (.of_all (by decide)) (by decide))

/-- A token that does not end with a word ends with another character. -/
theorem Token.getLast_of_not_endsWord (h : t.endsWord = false) :
    ∀ c ∈ t.text.getLast?, Text.isWord c = false := by
  cases t with
  | name q => cases h
  | arrayName n =>
    have hlast : (n.text ++ ['[', ']']).getLast? = some ']' := by simp
    rw [text, hlast]
    simpa using by decide
  | keyword word mem => cases h
  | mark m => cases m <;> simpa [text, Mark.text] using by decide

theorem isWord_of_mem_gap (h : c ∈ gapCharacters) : Text.isWord c = false := by
  have hall : (gapCharacters.all fun c => !Text.isWord c) = true := by decide
  simpa using all_eq_true.mp hall c h

theorem isBlank_of_mem_gap (h : c ∈ gapCharacters) : isBlank c := by
  have hall : (gapCharacters.all isBlank) = true := by decide
  exact all_eq_true.mp hall c h

theorem head?_spelling_of_apart (hi : i.endsWord)
    (hchain : (Piece.item i :: pieces).IsChain fun p q => p.apart q) :
    ∀ c ∈ (spelling pieces).head?, Text.isWord c = false := by
  cases pieces with
  | nil => simp [spelling]
  | cons p pieces =>
    rw [spelling_cons]
    have hapart := (isChain_cons_cons.mp hchain).1
    rcases p with ⟨c, mem⟩ | ⟨a | u⟩
    · exact ends_word (isWord_of_mem_gap mem) _
    · exact ends_word (d := '@') (by decide) _
    · have hu : u.beginsWord = false := by
        simpa [Piece.apart, Item.beginsWord, hi] using hapart
      rw [Piece.text, Item.text, head?_append_of_ne_nil _ u.text_ne_nil]
      exact u.head_of_not_beginsWord hu

theorem Item.getLast_of_not_endsWord (h : i.endsWord = false) :
    ∀ c ∈ i.text.getLast?, Text.isWord c = false := by
  cases i with
  | token t => exact Token.getLast_of_not_endsWord h
  | annotationUse a =>
    obtain ⟨arguments, harguments⟩ : ∃ arguments, a.arguments = some arguments :=
      Option.isSome_iff_exists.mp (by simpa [endsWord] using h)
    obtain ⟨u, hu⟩ : ∃ u, a.text = u ++ [')'] :=
      ⟨'@' :: (a.name.text ++ (a.gap ++ '(' :: (arguments.head.text ++
        arguments.inner.flatMap fun p => '(' :: (p.1.text ++ ')' :: p.2.text)))),
        by simp [AnnotationUse.text, harguments, ArgumentList.text]⟩
    rw [text, hu, getLast?_concat]
    simpa using by decide

/-- A spelling is code of words and marks, if its items are. -/
theorem codeText_spelling {marks : List Char} {avoided : List Text}
    (hchain : pieces.IsChain fun p q => p.apart q) (hgap : ∀ c ∈ gapCharacters, c ∈ marks)
    (hitems : ∀ i, .item i ∈ pieces → CodeText marks avoided i.text) :
    CodeText marks avoided (spelling pieces) := by
  induction pieces with
  | nil => exact .nil
  | cons p pieces ih =>
    have hrest := ih hchain.tail fun i hi => hitems i (mem_cons_of_mem p hi)
    rw [spelling_cons]
    cases p with
    | gap c mem => exact .mark (hgap c mem) hrest
    | item i =>
      refine (hitems i mem_cons_self).append hrest ?_
      by_cases hend : i.endsWord
      · exact .inl (head?_spelling_of_apart hend hchain)
      · exact .inr (Item.getLast_of_not_endsWord (by simpa using hend))

/-- A spelling of a declaration without annotations, with nothing before its first token. -/
structure Header (d : Declaration) where
  pieces : List Piece
  spells : Spells pieces d.items
  /-- No two of them cling to each other. -/
  unclung : Unclung pieces
  tokens : ∀ i ∈ d.items, i.token?.isSome
  first : ∀ p ∈ pieces.head?, p.item?.isSome

def Header.text {d : Declaration} (header : Header d) : Text :=
  spelling header.pieces

theorem Header.ofDeclaration (header : Header d) (owner : QualifiedName) :
    SignatureKey.ofDeclaration owner.text header.text = .ok (d.key owner.name.text) :=
  ofDeclaration_spelling d owner header.spells header.unclung

theorem Header.mem_items (header : Header d) (h : .item i ∈ header.pieces) : i ∈ d.items := by
  rw [← header.spells.items_eq, mem_filterMap]
  exact ⟨.item i, h, rfl⟩

theorem Header.exists_cons (header : Header d) (hne : d.items ≠ []) :
    ∃ (t : Token) (pieces : List Piece), header.pieces = .item (.token t) :: pieces := by
  cases hpieces : header.pieces with
  | nil =>
    have hitems := header.spells.items_eq
    grind
  | cons p pieces =>
    have hfirst := header.first p (by rw [hpieces]; rfl)
    cases p with
    | gap c mem => cases hfirst
    | item i =>
      have htoken := header.tokens i (header.mem_items (by rw [hpieces]; exact mem_cons_self))
      cases i with
      | annotationUse a => cases htoken
      | token t => exact ⟨t, pieces, rfl⟩

/-! ### Headers without needless white space -/

/-- Whether two items can stand side by side without white space. -/
def Item.isTight (i j : Item) : Bool :=
  (Piece.item i).apart (.item j) && !(Piece.item i).clings (.item j)

/-- Items with spaces between them only where they are needed, and with `last` one behind them. -/
def tight (last : Bool) : List Item → List Piece
  | [] => []
  | [i] => .item i :: if last then [.space] else []
  | i :: j :: rest => .item i :: ((if i.isTight j then [] else [.space]) ++ tight last (j :: rest))

theorem exists_tight_cons (last : Bool) (i : Item) (rest : List Item) :
    ∃ pieces, tight last (i :: rest) = .item i :: pieces := by
  cases rest with
  | nil => exact ⟨_, rfl⟩
  | cons j rest => exact ⟨_, rfl⟩

theorem filterMap_tight (last : Bool) (items : List Item) :
    (tight last items).filterMap Piece.item? = items := by
  fun_induction tight last items with
  | case1 => rfl
  | case2 i => cases last <;> rfl
  | case3 i j rest ih =>
    split_ifs
    · exact congrArg (i :: ·) ih
    · exact congrArg (i :: ·) ih

/-- What holds around white space and between items that can stand side by side holds between the
pieces. -/
theorem isChain_tight (last : Bool) (items : List Item) {R : Piece → Piece → Prop}
    (hspace : ∀ p, R p .space ∧ R .space p)
    (hitem : ∀ i j : Item, i.isTight j → R (.item i) (.item j)) :
    (tight last items).IsChain R := by
  fun_induction tight last items with
  | case1 => exact .nil
  | case2 i =>
    grind
  | case3 i j rest ih =>
    obtain ⟨pieces, hpieces⟩ := exists_tight_cons last j rest
    grind

/-- The header of a declaration with white space only where it is needed. -/
def Header.tight (d : Declaration) (last : Bool) (tokens : d.items.all fun i => i.token?.isSome) :
    Header d where
  pieces := Declaration.tight last d.items
  spells := by
    refine ⟨filterMap_tight last d.items, isChain_tight last d.items (fun p => ?_) fun i j h => ?_⟩
    · cases p <;> exact ⟨rfl, rfl⟩
    · exact (Bool.and_eq_true_iff.mp h).1
  unclung := by
    refine isChain_tight last d.items (fun p => ?_) fun i j h => ?_
    · cases p with
      | gap c mem => exact ⟨rfl, rfl⟩
      | item i => cases i <;> exact ⟨rfl, rfl⟩
    · simpa using (Bool.and_eq_true_iff.mp h).2
  tokens := all_eq_true.mp tokens
  first := by
    cases hitems : d.items with
    | nil => simp [Declaration.tight]
    | cons i rest =>
      obtain ⟨pieces, hpieces⟩ := exists_tight_cons last i rest
      rw [hpieces]
      rintro p ⟨⟩
      rfl

/-- The header of a class, with one space behind its name. -/
def Header.ofClass (name : Name) : Header (.type (.ofClass name)) :=
  .tight _ true rfl

/-! ### Tokens of members -/

theorem Enclosed.isMember_of_mem {e : Enclosed} (h : t ∈ e.tokens) : t.isMember := by
  induction e with
  | nil => simp [Enclosed.tokens] at h
  | cons u inner rest ih =>
    rcases mem_cons.mp h with rfl | h
    · cases t with
      | keyword word mem =>
        have hdisjoint : ∀ word ∈ boundWords, word ∉ typeWords := by decide
        grind [Token.isMember, Token.isInner]
      | name q => rfl
      | arrayName n => rfl
      | mark m => rfl
    · exact ih h
  | group inside rest ihInside ihRest =>
    simp only [Enclosed.tokens, mem_cons, mem_append] at h
    rcases h with rfl | h | rfl | h
    · rfl
    · exact ihInside h
    · rfl
    · exact ihRest h

theorem isMember_of_mem_bracketed {o : Option Enclosed} (h : t ∈ bracketed o) : t.isMember := by
  cases o with
  | none => simp [bracketed] at h
  | some e =>
    simp only [bracketed, mem_cons, mem_append, not_mem_nil, or_false] at h
    rcases h with rfl | h | rfl
    · rfl
    · exact Enclosed.isMember_of_mem h
    · rfl

theorem TypeUse.isMember_of_mem {type : TypeUse} (h : t ∈ type.tokens) : t.isMember := by
  simp only [TypeUse.tokens, mem_cons, mem_append] at h
  rcases h with rfl | h | h
  · rfl
  · exact isMember_of_mem_bracketed h
  · rw [eq_of_mem_replicate h]
    rfl

theorem isMember_of_mem_modifiers {ms : List Modifier} (h : .token t ∈ ms.map Modifier.item) :
    t.isMember := by
  obtain ⟨m, -, hm⟩ := mem_map.mp h
  cases m with
  | annotationUse a => cases hm
  | word w mem =>
    have hdisjoint : ∀ word ∈ modifierWords, word ∉ typeWords := by decide
    obtain rfl := (Item.token.inj hm).symm
    simpa [Token.isMember] using hdisjoint w mem

theorem Parameter.isMember_of_mem {p : Parameter} (h : .token t ∈ p.items) : t.isMember := by
  simp only [Parameter.items, mem_append, mem_map, reduceCtorEq, and_false, exists_false,
    Item.token.injEq, exists_eq_right, false_or, Parameter.tokens] at h
  rcases h with h | h | h | h
  · split_ifs at h
    · rw [mem_singleton.mp h]
      rfl
    · simp at h
  · exact TypeUse.isMember_of_mem h
  · split_ifs at h
    · rw [mem_singleton.mp h]
      rfl
    · simp at h
  · rw [mem_singleton.mp h]
    rfl

theorem Method.isMember_of_mem {m : Method} (h : .token t ∈ m.items) : t.isMember := by
  rw [Method.items, mem_append, mem_append, mem_append] at h
  rcases h with h | h | h | h
  · exact isMember_of_mem_modifiers h
  · simp only [mem_map, Item.token.injEq, exists_eq_right, Method.tokens, mem_append,
      mem_cons, not_mem_nil, or_false] at h
    rcases h with h | h | rfl | rfl
    · exact isMember_of_mem_bracketed h
    · cases htype : m.returnType with
      | none => simp [htype] at h
      | some type =>
        rw [htype] at h
        exact TypeUse.isMember_of_mem h
    · rfl
    · rfl
  · rcases of_mem_separated h with h | ⟨p, -, hp⟩
    · rw [Item.token.inj h]
      rfl
    · exact Parameter.isMember_of_mem hp
  · rw [Item.token.inj (mem_singleton.mp h)]
    rfl

theorem Field.isMember_of_mem {f : Field} (h : .token t ∈ f.items) : t.isMember := by
  rw [Field.items, mem_append] at h
  rcases h with h | h
  · exact isMember_of_mem_modifiers h
  · simp only [mem_map, Item.token.injEq, exists_eq_right, Field.tokens, mem_append,
      mem_singleton] at h
    rcases h with h | rfl
    · exact TypeUse.isMember_of_mem h
    · split_ifs <;> rfl

theorem Header.exists_token (header : Header d) (h : .item i ∈ header.pieces) :
    ∃ t, i = .token t ∧ .token t ∈ d.items := by
  have hmem := header.mem_items h
  have htoken := header.tokens i hmem
  cases i with
  | annotationUse a => cases htoken
  | token t => exact ⟨t, rfl, hmem⟩

/-- A header is code of words and marks. -/
theorem Header.codeText (header : Header d) :
    CodeText ('@' :: headerMarks) outsideWords header.text := by
  refine codeText_spelling header.spells.apart
    (fun c hc => mem_cons_of_mem _ (mem_append_left _ hc)) fun i hi => ?_
  obtain ⟨t, rfl, -⟩ := header.exists_token hi
  exact t.codeText_outside

/-- A header whose tokens are those of members declares no type. -/
theorem Header.codeText_member (header : Header d)
    (hmember : ∀ t : Token, .token t ∈ d.items → t.isMember) :
    CodeText headerMarks foreignWords header.text := by
  refine codeText_spelling header.spells.apart (fun c hc => mem_append_left _ hc) fun i hi => ?_
  obtain ⟨t, rfl, hmem⟩ := header.exists_token hi
  exact Token.codeText (hmember t hmem)

/-! ### Headers of types -/

theorem Supertypes.isMember_of_mem {s : Supertypes} (h : t ∈ s.tokens) : t.isMember := by
  rcases mem_cons.mp h with rfl | h
  · rw [Supertypes.opening]
    split_ifs <;> decide
  · rcases mem_cons.mp h with rfl | h
    · rfl
    · exact Enclosed.isMember_of_mem h

/-- The marks between modifiers, and the one in a modifier. -/
def modifierMarks : List Char :=
  '-' :: gapCharacters

theorem codeText_modifier {w : Text} (mem : w ∈ modifierWords) :
    CodeText modifierMarks foreignWords w := by
  have hall : (modifierWords.all fun word => (!word.isEmpty && word.all Text.isWord &&
      !foreignWords.contains word) || word == "non".toList ++ '-' :: "sealed".toList) = true := by
    decide
  have hone := all_eq_true.mp hall w mem
  rw [Bool.or_eq_true, Bool.and_eq_true, beq_iff_eq] at hone
  rcases hone with ⟨hword, hforeign⟩ | rfl
  · exact .single (.of_all hword) (by simpa using hforeign)
  · exact .word (.of_all (by decide)) (by decide) (ends_word (by decide) _)
      (.mark (by decide) (.single (.of_all (by decide)) (by decide)))

/-- Whether a piece is the keyword that declares a type. -/
def Piece.opensType : Piece → Bool
  | item (.token t) => !t.isMember
  | _ => false

/-- What stands before the keyword in the header of a type. -/
def Header.lead {d : Declaration} (header : Header d) : Text :=
  spelling (header.pieces.takeWhile fun p => !p.opensType)

theorem Piece.eq_of_item? {p : Piece} (h : p.item? = some i) : p = .item i := by
  cases p with
  | gap c mem => cases h
  | item j => rw [Option.some.inj h]

/-- The pieces of the header of a type around its keyword: modifiers before it, and white space and
tokens of members behind it, of which the name of the type is the first. -/
theorem Header.exists_pieces (header : Header (.type h)) :
    ∃ before c mem after,
      header.pieces = before ++ .item (.token h.opening) :: .gap c mem :: after ∧
      (∀ i, .item i ∈ before → ∃ w, ∃ mem : w ∈ modifierWords,
        i = .token (.keyword w (mem_keywords_of_modifier mem))) ∧
      (∀ i, .item i ∈ after → ∃ t : Token, i = .token t ∧ t.isMember) ∧
      ∃ white rest, after = white ++ .item (.token (.name h.name.unqualified)) :: rest ∧
        ∀ p ∈ white, p.item? = none := by
  have hitems : header.pieces.filterMap Piece.item? =
      h.modifiers.map Modifier.item ++ (.token h.opening :: (.token (.name h.name.unqualified) ::
        (bracketed h.typeParameters ++ (h.supertypes.map Supertypes.tokens).getD []).map .token)) :=
    header.spells.items_eq
  obtain ⟨ps, qs, hpieces, hps, hqs⟩ := filterMap_eq_append_iff.mp hitems
  obtain ⟨gaps, p, after, rfl, hgaps, hp, hafter⟩ := filterMap_eq_cons_iff.mp hqs
  obtain rfl := Piece.eq_of_item? hp
  have hchain := header.spells.apart
  rw [hpieces, ← append_assoc] at hchain
  -- The name of the type is a word, so that white space precedes it.
  obtain ⟨c, mem, after, rfl⟩ : ∃ c mem rest, after = .gap c mem :: rest := by
    cases after with
    | nil => cases hafter
    | cons q after =>
      cases q with
      | gap c mem => exact ⟨c, mem, after, rfl⟩
      | item i =>
        obtain rfl : i = .token (.name h.name.unqualified) := (List.cons.inj hafter).1
        have hapart := (isChain_cons_cons.mp (isChain_append.mp hchain).2.1).1
        cases hapart
  refine ⟨ps ++ gaps, c, mem, after, by rw [hpieces, append_assoc], fun i hi => ?_,
    fun i hi => ?_, ?_⟩
  · have hmem : i ∈ h.modifiers.map Modifier.item := by
      rcases mem_append.mp hi with hi | hi
      · rw [← hps, mem_filterMap]
        exact ⟨_, hi, rfl⟩
      · cases hgaps _ hi
    obtain ⟨m, hm, rfl⟩ := mem_map.mp hmem
    cases m with
    | word w mem => exact ⟨w, mem, rfl⟩
    | annotationUse a =>
      have htoken := header.tokens (.annotationUse a) (by
        rw [← header.spells.items_eq, hitems]
        exact mem_append_left _ hmem)
      cases htoken
  · have hmem : i ∈ Item.token (.name h.name.unqualified) :: (bracketed h.typeParameters ++
        (h.supertypes.map Supertypes.tokens).getD []).map .token := by
      rw [← hafter, mem_filterMap]
      exact ⟨_, mem_cons_of_mem _ hi, rfl⟩
    rcases mem_cons.mp hmem with rfl | hmem
    · exact ⟨_, rfl, rfl⟩
    · obtain ⟨t, ht, rfl⟩ := mem_map.mp hmem
      refine ⟨t, rfl, ?_⟩
      rcases mem_append.mp ht with ht | ht
      · exact isMember_of_mem_bracketed ht
      · cases hsuper : h.supertypes with
        | none => simp [hsuper] at ht
        | some s =>
          rw [hsuper] at ht
          exact Supertypes.isMember_of_mem ht
  · obtain ⟨white, p, rest, rfl, hwhite, hp, -⟩ := filterMap_eq_cons_iff.mp
      (show after.filterMap Piece.item? = _ from hafter)
    exact ⟨white, rest, by rw [Piece.eq_of_item? hp], hwhite⟩

/-- The keyword in the header of a type has modifiers and white space before it, and white space
behind it. -/
theorem Header.exists_keyword (header : Header (.type h)) :
    ∃ c rest, header.text = header.lead ++ (h.keyword ++ c :: rest) ∧ c ∈ gapCharacters ∧
      (header.lead = [] ∨ ∃ m g, header.lead = m ++ [g] ∧ g ∈ gapCharacters ∧
        CodeText modifierMarks foreignWords m) ∧
      CodeText headerMarks foreignWords rest := by
  obtain ⟨before, c, mem, after, hpieces, hbefore, hafter, -⟩ := header.exists_pieces
  have hchain := header.spells.apart
  have hunclung := header.unclung
  rw [hpieces] at hchain
  rw [Unclung, hpieces] at hunclung
  have hlead : header.lead = spelling before := by
    have hmodifiers : ∀ p ∈ before, (!p.opensType) = true := by
      intro p hp
      cases p with
      | gap c mem => rfl
      | item i =>
        have hdisjoint : ∀ word ∈ modifierWords, word ∉ typeWords := by decide
        obtain ⟨w, hw, rfl⟩ := hbefore i hp
        simpa [Piece.opensType, Token.isMember] using hdisjoint w hw
    have hkeyword : ¬ (!(Piece.item (.token h.opening)).opensType) = true := by
      simp [Piece.opensType, Token.isMember, TypeHeader.opening, h.mem]
    rw [Header.lead, hpieces, takeWhile_append_of_pos hmodifiers,
      takeWhile_cons_of_neg (p := fun p : Piece => !p.opensType) hkeyword, append_nil]
  rw [hlead]
  refine ⟨c, spelling after, ?_, mem, ?_, ?_⟩
  · rw [Header.text, hpieces]
    simp [spelling, Piece.text, Item.text, Token.text, TypeHeader.opening]
  · rcases eq_nil_or_concat before with rfl | ⟨init, q, rfl⟩
    · exact .inl rfl
    · refine .inr ?_
      rw [concat_eq_append, append_assoc] at *
      cases q with
      | gap g hg =>
        refine ⟨spelling init, g, by simp [spelling, Piece.text], hg, ?_⟩
        refine codeText_spelling (isChain_append.mp hchain).1
          (fun c hc => mem_cons_of_mem _ hc) fun i hi => ?_
        obtain ⟨w, hw, rfl⟩ := hbefore i (mem_append_left _ hi)
        exact codeText_modifier hw
      | item i =>
        -- A modifier right before the keyword would be one word with it, or cling to it.
        obtain ⟨w, hw, rfl⟩ := hbefore i (by simp)
        have hapart := (isChain_cons_cons.mp (isChain_append.mp hchain).2.1).1
        have hclings := (isChain_cons_cons.mp (isChain_append.mp hunclung).2.1).1
        simp only [Piece.apart, Item.endsWord, Item.beginsWord, Token.endsWord, Bool.true_and,
          Bool.not_eq_true', TypeHeader.opening, Token.beginsWord, decide_eq_false_iff_not,
          not_not] at hapart
        simp [Piece.clings, Token.endsWord, TypeHeader.opening, Token.opensAnnotationType,
          hapart] at hclings
  · refine codeText_spelling (isChain_append.mp hchain).2.1.tail.tail
      (fun c hc => mem_append_left _ hc) fun i hi => ?_
    obtain ⟨t, rfl, ht⟩ := hafter i hi
    exact Token.codeText ht

end DocGraft.Declaration

namespace DocGraft

open List Text Signature Source Declaration

variable {c : Char}

/-! ### Masked literals -/

/-- The characters that the masked text shows of comments and literals. -/
def Source.maskMarks : Text :=
  ['/', '*', '"', '\'', ' ', '\n']

theorem Source.isWord_of_mem_maskMarks (h : c ∈ maskMarks) : Text.isWord c = false ∧ c ≠ '@' := by
  have hall : (maskMarks.all fun c => !Text.isWord c && c ≠ '@') = true := by decide
  simpa using all_eq_true.mp hall c h

theorem Source.mem_maskMarks_of_maskGrain {g : Grain} (hg : g.1 ≠ .code) (h : c ∈ maskGrain g) :
    c ∈ maskMarks := by
  have hc := mem_maskGrain hg h
  simp only [maskMarks, mem_cons, not_mem_nil, or_false]
  tauto

theorem Source.balanced_of_maskMarks {m : Text} (h : ∀ c ∈ m, c ∈ maskMarks) : Balanced m :=
  balanced_of_notMem (fun hmem => absurd (h _ hmem) (by decide))
    (fun hmem => absurd (h _ hmem) (by decide))

end DocGraft

/-! ## Code that the scans pass over -/

namespace DocGraft.Source

open List Text Signature Declaration

variable {c : Char} {gs hs : List Grain} {m s : Text}

/-- The scans of a source pass over grains. -/
structure Inert (gs : List Grain) : Prop where
  standing : ∀ t, Standing gs t
  uncommented : ∀ g ∈ gs, g.1.isComment = false
  /-- They declare no type. -/
  keyless : Keyless (maskText gs)
  /-- Their braces match. -/
  balanced : Balanced (maskText gs)

theorem Inert.ne_blockComment (h : Inert gs) : ∀ g ∈ gs, g.1 ≠ .blockComment := by
  intro g hg hblock
  have hcomment := h.uncommented g hg
  rw [hblock] at hcomment
  cases hcomment

theorem uncommented_codeGrains (w : Text) : ∀ g ∈ codeGrains w, g.1.isComment = false := by
  intro g hg
  obtain ⟨c, -, rfl⟩ := mem_map.mp hg
  rfl

/-- Whether a mark has no meaning to the scans of a source. -/
def isIdle (c : Char) : Bool :=
  !isWord c && c ∉ ['@', '/', '"', '\'', '{', '}']

theorem of_isIdle (h : isIdle c) : (isWord c = false ∧ c ≠ '@') ∧
    (c ≠ '/' ∧ c ≠ '"' ∧ c ≠ '\'') ∧ c ≠ '{' ∧ c ≠ '}' := by
  simp only [isIdle, Bool.and_eq_true, Bool.not_eq_true', decide_eq_true_eq, mem_cons, not_mem_nil,
    or_false, not_or] at h
  tauto

theorem isIdle_of_mem_gap (h : c ∈ gapCharacters) : isIdle c := by
  have hall : gapCharacters.all isIdle = true := by decide
  exact all_eq_true.mp hall c h

theorem inert_nil : Inert [] :=
  ⟨fun _ => trivial, by simp, keyless_nil, balanced_nil⟩

theorem keyless_append {t : Text} (hs : Keyless s) (ht : Keyless t)
    (hend : ∀ c ∈ t.head?, isWord c = false) : Keyless (s ++ t) := by
  intro pos before u hu
  have hhead : ∀ c ∈ (t ++ u).head?, isWord c = false := by
    cases t with
    | nil => exact hu
    | cons d t => exact hend
  obtain ⟨b, hb⟩ := hs pos before (t ++ u) hhead
  obtain ⟨b', hb'⟩ := ht (pos + s.length) b u hu
  exact ⟨b', by grind⟩

theorem Inert.append (h : Inert gs) (h' : Inert hs)
    (hhead : ∀ c ∈ (maskText hs).head?, isWord c = false) : Inert (gs ++ hs) where
  standing t := standing_append.mpr ⟨h.standing _, h'.standing t⟩
  uncommented g hg := (mem_append.mp hg).elim (h.uncommented g) (h'.uncommented g)
  keyless := by
    rw [maskText_append]
    exact keyless_append h.keyless h'.keyless hhead
  balanced := by
    rw [maskText_append]
    exact h.balanced.append h'.balanced

/-- Code before what the scans pass over. -/
theorem Inert.codeText {marks : List Char} {avoided : List Text} (hgs : Inert gs)
    (h : CodeText marks avoided s) (hmarks : marks.all isIdle = true)
    (hkeys : ∀ w ∈ typeWords, w ∈ avoided ∨ '@' ∈ w)
    (hend : (∀ c ∈ (maskText gs).head?, isWord c = false) ∨ ∀ c ∈ s.getLast?, isWord c = false) :
    Inert (codeGrains s ++ gs) := by
  have hidle : (marks.all fun c => !isWord c && c ≠ '@') = true := all_eq_true.mpr fun c hc => by
    simpa using (of_isIdle (all_eq_true.mp hmarks c hc)).1
  have hnot : ∀ c, isWord c = false → isIdle c = false → c ∉ s := fun c hword hc =>
    h.notMem hword fun hmem => by simp [all_eq_true.mp hmarks c hmem] at hc
  have hbare : Bare s := fun c hc =>
    ⟨fun h => hnot '/' (by decide) (by decide) (h ▸ hc),
      fun h => hnot '"' (by decide) (by decide) (h ▸ hc),
      fun h => hnot '\'' (by decide) (by decide) (h ▸ hc)⟩
  refine ⟨fun t => standing_append.mpr ⟨hbare.standing _, hgs.standing t⟩, fun g hg => ?_, ?_, ?_⟩
  · exact (mem_append.mp hg).elim (uncommented_codeGrains s g) (hgs.uncommented g)
  · rw [maskText_append, maskText_codeGrains]
    exact h.keyless_append hidle hkeys hgs.keyless hend
  · rw [maskText_append, maskText_codeGrains]
    exact (balanced_of_notMem (hnot _ (by decide) (by decide))
      (hnot _ (by decide) (by decide))).append hgs.balanced

theorem Inert.marks (h : Inert gs) (hm : ∀ c ∈ m, isIdle c) : Inert (codeGrains m ++ gs) := by
  have hcode : CodeText m typeWords m := by
    have hnil : CodeText m typeWords (m ++ []) := CodeText.marks_append (fun _ hc => hc) .nil
    rwa [append_nil] at hnil
  refine h.codeText hcode (all_eq_true.mpr hm) (fun w hw => .inl hw) (.inr fun c hc => ?_)
  exact (of_isIdle (hm c (mem_of_getLast? hc))).1.1

theorem inert_marks (hm : ∀ c ∈ m, isIdle c) : Inert (codeGrains m) := by
  have h := inert_nil.marks hm
  rwa [append_nil] at h

theorem inert_word {w : Text} (hw : IsWord w) (h : w ∉ foreignWords) : Inert (codeGrains w) := by
  have hword : CodeText headerMarks foreignWords w := .single hw h
  simpa using inert_nil.codeText hword (by decide) (by decide) (.inl (by simp))

/-- A literal before what the scans pass over. -/
theorem Inert.literal {g : Grain} (h : Inert gs) (hcode : g.1 ≠ .code)
    (hcomment : g.1.isComment = false) (hstands : ∀ t, Stands g (grainText gs ++ t)) :
    Inert (g :: gs) where
  standing t := ⟨hstands t, h.standing t⟩
  uncommented := forall_mem_cons.mpr ⟨hcomment, h.uncommented⟩
  keyless :=
    h.keyless.marks fun _ hc => isWord_of_mem_maskMarks (mem_maskMarks_of_maskGrain hcode hc)
  balanced :=
    (balanced_of_maskMarks fun _ hc => mem_maskMarks_of_maskGrain hcode hc).append h.balanced

/-- What the scans pass over may stand in braces. -/
theorem Inert.braces (h : Inert gs) : Inert (codeGrains ['{'] ++ (gs ++ codeGrains ['}'])) where
  standing t := standing_append.mpr ⟨(bare_singleton (by decide)).standing _, standing_append.mpr
    ⟨h.standing _, (bare_singleton (by decide)).standing t⟩⟩
  uncommented := forall_mem_append.mpr ⟨uncommented_codeGrains _,
    forall_mem_append.mpr ⟨h.uncommented, uncommented_codeGrains _⟩⟩
  keyless := by
    have hclosing : Keyless ['}'] := keyless_nil.mark (by decide) (by decide)
    have hinside := keyless_append h.keyless hclosing (ends_word (by decide) [])
    simpa using hinside.mark (c := '{') (by decide) (by decide)
  balanced := by simpa using h.balanced.braces

end DocGraft.Source

namespace DocGraft

open List Text Source

/-! ### Code in brackets -/

/-- Code between two marks over which, with the marks, the scans of a source pass. -/
structure CodeBlock (opening closing : Char) where
  grains : List Grain
  inert : Inert (codeGrains [opening] ++ (grains ++ codeGrains [closing]))

/-- Nothing in braces. -/
def CodeBlock.empty : CodeBlock '{' '}' :=
  ⟨[], inert_nil.braces⟩

/-- The grains of a body, or of the semicolon in its place. -/
def bodyGrains (body : Option (CodeBlock '{' '}')) : List Grain :=
  body.elim (codeGrains [';']) fun body => codeGrains ['{'] ++ (body.grains ++ codeGrains ['}'])

theorem inert_bodyGrains (body : Option (CodeBlock '{' '}')) : Inert (bodyGrains body) := by
  cases body with
  | none => exact inert_marks (by simpa using by decide)
  | some body => exact body.inert

theorem exists_maskText_bodyGrains (body : Option (CodeBlock '{' '}')) :
    ∃ c t, maskText (bodyGrains body) = c :: t ∧ c ∈ declarationEnds := by
  cases body with
  | none => exact ⟨';', [], rfl, by decide⟩
  | some body => exact ⟨'{', _, rfl, by decide⟩

theorem exists_bodyGrains_eq (body : Option (CodeBlock '{' '}')) :
    ∃ as c, bodyGrains body = as ++ [(.code, [c])] ∧ (c = ';' ∨ c = '}') := by
  cases body with
  | none => exact ⟨[], ';', rfl, .inl rfl⟩
  | some body => exact ⟨_, '}', (append_assoc ..).symm, .inr rfl⟩

end DocGraft
