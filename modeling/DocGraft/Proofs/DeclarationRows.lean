import Mathlib
import DocGraft.Proofs.DeclarationGrammar

/-!
# Rows of tokens

The first steps of the reduction of a declaration rewrite a row of tokens and spaces: annotations
and type arguments become spaces, variable arity becomes an array dimension, and supertypes are cut
off. Each step is a function of rows, and tokens that can stand side by side before it can do so
after it.
-/

namespace DocGraft.Declaration

open List Text Signature

variable {c : Char} {p : Option Token} {pieces : List Piece} {row : List (Option Token)} {s : Text}
  {t : Token}

/-! ### Texts of tokens -/

theorem QualifiedName.forall_text (q : QualifiedName) : ∀ c ∈ q.text, isWord c ∨ c = '.' := by
  intro c hc
  simp only [QualifiedName.text, mem_append, mem_flatMap, mem_singleton] at hc
  rcases hc with ⟨n, -, hc | hc⟩ | hc
  · exact .inl (n.isName.all c hc)
  · exact .inr hc
  · exact .inl (q.name.isName.all c hc)

theorem QualifiedName.exists_first (q : QualifiedName) :
    ∃ (n : Name) (s : Text), q.text = n.text ++ s ∧ ∀ c ∈ s.head?, c = '.' := by
  obtain ⟨qualifiers, name⟩ := q
  cases qualifiers with
  | nil => exact ⟨name, [], by simp [QualifiedName.text], by simp⟩
  | cons n ns =>
    exact ⟨n, '.' :: QualifiedName.text ⟨ns, name⟩, by simp [QualifiedName.text], by simp⟩

/-- The characters of a token that are not of words. -/
def Token.marks : Token → List Char
  | name _ => ['.']
  | arrayName _ => ['[', ']']
  | keyword _ _ => ['-', '@']
  | mark m => m.text

theorem of_mem_keywords {word : Text} (h : word ∈ keywords) :
    word ≠ [] ∧ ∀ c ∈ word, isWord c ∨ c ∈ ['-', '@'] := by
  have hall : (keywords.all fun word =>
      word ≠ [] && word.all fun c => isWord c || c ∈ ['-', '@']) = true := by
    decide
  simpa using all_eq_true.mp hall word h

theorem Token.forall_text (t : Token) : ∀ c ∈ t.text, isWord c ∨ c ∈ t.marks := by
  intro c hc
  cases t with
  | name q => simpa [marks] using q.forall_text c hc
  | arrayName n =>
    rcases mem_append.mp hc with hc | hc
    · exact .inl (n.isName.all c hc)
    · exact .inr hc
  | keyword word mem => exact (of_mem_keywords mem).2 c hc
  | mark m => exact .inr hc

theorem Token.notMem (hword : isWord c = false) (hmarks : c ∉ t.marks) : c ∉ t.text := by
  intro hc
  rcases t.forall_text c hc with h | h
  · exact absurd h (by simp [hword])
  · exact hmarks h

theorem Token.text_ne_nil (t : Token) : t.text ≠ [] := by
  cases t with
  | name q => simp [text, QualifiedName.text, q.name.isName.ne_nil]
  | arrayName n => simp [text]
  | keyword word mem => exact (of_mem_keywords mem).1
  | mark m => cases m <;> simp [text, Mark.text]

theorem Token.isBlank_of_mem (hc : c ∈ t.text) : isBlank c = false := by
  have hall : (['.', '[', ']', '-', '@', '(', ')', ',', '<', '>', '?', '&'].all fun d =>
      !isBlank d) = true := by
    decide
  have hmarks : ∀ d ∈ t.marks, d ∈ ['.', '[', ']', '-', '@', '(', ')', ',', '<', '>',
      '?', '&'] := by
    cases t with
    | name q => simp [marks]
    | arrayName n => simp [marks]
    | keyword word mem => simp [marks]
    | mark m => cases m <;> simp [marks, Mark.text]
  rcases t.forall_text c hc with h | h
  · exact isBlank_of_isWord h
  · grind

theorem Token.space_notMem (t : Token) : ' ' ∉ t.text := fun h =>
  absurd (isBlank_of_mem h) (by decide)

theorem Mark.exists_cons (m : Mark) : ∃ c s, m.text = c :: s ∧ isWord c = false := by
  cases m <;> exact ⟨_, _, rfl, by decide⟩

/-- A token that does not begin with a word begins with another character. -/
theorem Token.head_of_not_beginsWord (h : t.beginsWord = false) :
    ∀ c ∈ t.text.head?, isWord c = false := by
  cases t with
  | name q => cases h
  | arrayName n => cases h
  | keyword word mem =>
    obtain rfl : word = "@interface".toList := not_not.mp (of_decide_eq_false h)
    exact ends_word (by decide) "interface".toList
  | mark m =>
    obtain ⟨c, s, hm, hc⟩ := m.exists_cons
    rw [text, hm]
    exact ends_word hc s

/-! ### Rows of tokens -/

/-- The text of one space, or of a token. -/
def cellText : Option Token → Text
  | none => [' ']
  | some t => t.text

/-- The text of tokens and spaces. -/
def rowText (row : List (Option Token)) : Text :=
  row.flatMap cellText

@[simp] theorem rowText_nil : rowText [] = [] := rfl

@[simp] theorem rowText_cons_none (row : List (Option Token)) :
    rowText (none :: row) = ' ' :: rowText row := rfl

@[simp] theorem rowText_cons_some (t : Token) (row : List (Option Token)) :
    rowText (some t :: row) = t.text ++ rowText row := rfl

theorem rowText_append (row row' : List (Option Token)) :
    rowText (row ++ row') = rowText row ++ rowText row' := by
  simp [rowText]

/-- Whether a token is set off by itself: parentheses, commas, and what goes away with type
arguments. -/
def Token.isLoose : Token → Bool
  | mark m => m ≠ .dimension ∧ m ≠ .ellipsis
  | _ => false

/-- Whether a token belongs to the one before it. -/
def Token.isSuffix : Token → Bool
  | mark m => m = .dimension ∨ m = .ellipsis
  | _ => false

/-- Two tokens that can stand side by side. -/
def Token.Adjoins (t u : Token) : Prop :=
  t.isLoose ∨ u.isLoose ∨ u.isSuffix

/-- Two cells that can stand side by side. -/
def CellsAdjoin : Option Token → Option Token → Prop
  | some t, some u => t.Adjoins u
  | _, _ => True

@[simp] theorem cellsAdjoin_none_left (p : Option Token) : CellsAdjoin none p := trivial

@[simp] theorem cellsAdjoin_none_right (p : Option Token) : CellsAdjoin p none := by
  cases p <;> trivial

theorem Token.Adjoins.not_beginsWord {u : Token} (h : t.Adjoins u) (ht : t.isLoose = false) :
    u.beginsWord = false := by
  rcases h with h | h | h
  · exact absurd h (by simp [ht])
  · cases u with
    | mark m => rfl
    | name | arrayName | keyword => cases h
  · cases u with
    | mark m => rfl
    | name | arrayName | keyword => cases h

/-- A row goes on with no word behind a token that is not set off by itself. -/
theorem head_rowText (ht : t.isLoose = false) (h : (some t :: row).IsChain CellsAdjoin) :
    ∀ c ∈ (rowText row).head?, isWord c = false := by
  cases row with
  | nil => simp
  | cons p row =>
    cases p with
    | none => simpa using by decide
    | some u =>
      have hu := Token.Adjoins.not_beginsWord (isChain_cons_cons.mp h).1 ht
      rw [rowText_cons_some, head?_append_of_ne_nil _ u.text_ne_nil]
      exact u.head_of_not_beginsWord hu

/-! ### Annotations -/

/-- A token or a space in the place of a piece. -/
def Piece.cell : Piece → Option Token
  | gap _ _ | item (.annotationUse _) => none
  | item (.token t) => some t

/-- Tokens that are told apart can stand side by side. -/
theorem Piece.cellsAdjoin {p q : Piece} (hapart : p.apart q) (hclings : p.clings q = false) :
    CellsAdjoin p.cell q.cell := by
  rcases p with ⟨c, hc⟩ | ⟨a | t⟩
  · trivial
  · trivial
  rcases q with ⟨d, hd⟩ | ⟨b | u⟩
  · trivial
  · trivial
  have hwords : ¬ (t.endsWord = true ∧ u.beginsWord = true) := fun h =>
    absurd hapart (by simp [apart, Item.endsWord, Item.beginsWord, h])
  have hdimension : ¬ (t.endsDimension = true ∧ u.beginsWord = true) := fun h =>
    absurd hclings (by simp [clings, h])
  change t.Adjoins u
  by_cases ht : t.isLoose
  · exact .inl ht
  -- A token that is not set off by itself ends with a word or with a dimension.
  have hends : t.endsDimension ∨ t.endsWord := by
    cases t with
    | name | keyword => exact .inr rfl
    | arrayName n => exact .inl rfl
    | mark m => exact .inl (decide_eq_true (by simpa [Token.isLoose, or_iff_not_imp_left] using ht))
  cases u with
  | mark m =>
    by_cases hm : m = .dimension ∨ m = .ellipsis
    · exact .inr (.inr (decide_eq_true hm))
    · exact .inr (.inl (decide_eq_true (not_or.mp hm)))
  | name | arrayName =>
    rcases hends with h | h
    · exact absurd ⟨h, rfl⟩ hdimension
    · exact absurd ⟨h, rfl⟩ hwords
  | keyword word mem =>
    by_cases hword : word = "@interface".toList
    · refine absurd hclings ?_
      have hopens : (Token.keyword word mem).opensAnnotationType = true := decide_eq_true hword
      rcases hends with h | h <;> simp [clings, h, hopens]
    · rcases hends with h | h
      · exact absurd ⟨h, decide_eq_true hword⟩ hdimension
      · exact absurd ⟨h, decide_eq_true hword⟩ hwords

theorem flatten_append (s t : Text) : flatten (s ++ t) = flatten s ++ flatten t := by
  simp [Signature.flatten]

theorem length_flatten (s : Text) : (flatten s).length = s.length := by
  simp [Signature.flatten]

theorem flatten_token (t : Token) : flatten t.text = t.text := by
  have hall : (['\r', '\n', '\t'].all fun c => isBlank c) = true := by decide
  exact flatten_of_notMem fun c hc hmem =>
    absurd (Token.isBlank_of_mem hmem) (by simp [all_eq_true.mp hall c hc])

theorem flatten_gap (h : ∀ c ∈ s, c ∈ gapCharacters) : flatten s = List.replicate s.length ' ' := by
  rw [eq_replicate_iff]
  refine ⟨length_flatten s, fun d hd => ?_⟩
  obtain ⟨c, hc, rfl⟩ := mem_map.mp hd
  have hmem := h c hc
  simp only [gapCharacters, mem_cons, not_mem_nil, or_false] at hmem
  rcases hmem with rfl | rfl | rfl | rfl <;> rfl

theorem run_spaces (n : Nat) (hs : ∀ c ∈ s.head?, isBlank c = false) :
    run isBlank (List.replicate n ' ' ++ s) = n := by
  rw [run_append _ hs, length_replicate]
  intro c hc
  rw [eq_of_mem_replicate hc]
  decide

theorem argumentsTail?_flat (f : Flat) (inner : Bool) (s : Text) :
    argumentsTail? inner (flatten f.text ++ s) =
      (argumentsTail? inner s).map (· + f.text.length) := by
  obtain ⟨text, hopen, hclose⟩ := f
  induction text with
  | nil => simp [Signature.flatten]
  | cons c text ih =>
    rw [mem_cons, not_or] at hopen hclose
    have hc : ∀ d ∈ ['(', ')'], (if c = '\r' ∨ c = '\n' ∨ c = '\t' then ' ' else c) ≠ d := by
      intro d hd
      grind
    have hrest := ih hopen.2 hclose.2
    rw [Signature.flatten] at hrest ⊢
    rw [map_cons, cons_append]
    cases inner with
    | false =>
      rw [argumentsTail?, if_neg (hc _ (by simp)), decide_eq_false (hc '(' (by simp)), hrest]
      simp [Function.comp_def, Nat.add_assoc]
    | true =>
      rw [argumentsTail?, if_neg (hc _ (by simp)), decide_eq_true (hc ')' (by simp)), hrest]
      simp [Function.comp_def, Nat.add_assoc]

theorem ArgumentList.argumentsLength? (arguments : ArgumentList) (s : Text) :
    argumentsLength? (flatten arguments.text ++ s) = some arguments.text.length := by
  have hinner : ∀ inner : List (Flat × Flat),
      argumentsTail? false (flatten (inner.flatMap fun p => '(' :: (p.1.text ++ ')' :: p.2.text)) ++
          ')' :: s) =
        some ((inner.flatMap fun p => '(' :: (p.1.text ++ ')' :: p.2.text)).length + 1) := by
    intro inner
    induction inner with
    | nil => rfl
    | cons p inner ih =>
      have htext : flatten ((p :: inner).flatMap fun p => '(' :: (p.1.text ++ ')' :: p.2.text)) ++
          ')' :: s = '(' :: (flatten p.1.text ++ ')' :: (flatten p.2.text ++
            (flatten (inner.flatMap fun p => '(' :: (p.1.text ++ ')' :: p.2.text)) ++
              ')' :: s))) := by
        simp [Signature.flatten]
      rw [htext, argumentsTail?, if_neg (by decide), decide_eq_true rfl, argumentsTail?_flat,
        argumentsTail?, if_neg (by decide), decide_eq_false (by simp), argumentsTail?_flat, ih]
      simp
      omega
  have htext : flatten arguments.text ++ s = '(' :: (flatten arguments.head.text ++
      (flatten (arguments.inner.flatMap fun p => '(' :: (p.1.text ++ ')' :: p.2.text)) ++
        ')' :: s)) := by
    simp [Signature.flatten, ArgumentList.text]
  rw [htext, Signature.argumentsLength?, argumentsTail?_flat, hinner]
  simp [ArgumentList.text]
  omega

theorem isAnnotationChar_of_isWord (h : isWord c) : isAnnotationChar c := by
  simp [isAnnotationChar, h]

/-- A text that is followed by no word does not begin with the word `interface` if it is a name. -/
theorem QualifiedName.startsWithInterface (q : QualifiedName)
    (hs : ∀ c ∈ s.head?, isWord c = false) : startsWithInterface (q.text ++ s) = false := by
  obtain ⟨n, r, hq, hr⟩ := q.exists_first
  have hhead : ∀ c ∈ (r ++ s).head?, isWord c = false := by
    cases r with
    | nil => exact hs
    | cons d r =>
      obtain rfl := hr d rfl
      exact ends_word (by decide) _
  have hne : ∀ rest, after? "interface".toList (n.text ++ (r ++ s)) = some rest →
      ¬ ∀ c ∈ rest.head?, isWord c = false := by
    intro rest hafter hrest
    have hword : ∀ c ∈ "interface".toList, isWord c :=
      isWord_of_mem_reserved (by decide)
    have heq := (eq_of_after?_word hword n.isName.all hhead hrest hafter).1
    have hreserved : "interface".toList ∈ reservedWords := by decide
    exact n.isName.ne hreserved heq
  rw [hq, append_assoc, Signature.startsWithInterface]
  grind

theorem QualifiedName.annotationName? (q : QualifiedName) {t : Text}
    (ht : ∀ c ∈ t.head?, isAnnotationChar c = false) :
    annotationName? ('@' :: (q.text ++ t)) = some (q.text.length + 1) := by
  have hrun : run isAnnotationChar (q.text ++ t) = q.text.length := by
    refine run_append (fun c hc => ?_) ht
    rcases q.forall_text c hc with h | rfl
    · exact isAnnotationChar_of_isWord h
    · decide
  have hword : ∀ c ∈ t.head?, isWord c = false := by
    intro c hc
    by_contra hw
    exact absurd (isAnnotationChar_of_isWord (by simpa using hw)) (by simp [ht c hc])
  have hpos : q.text.length ≠ 0 := by
    simp [QualifiedName.text, q.name.isName.ne_nil]
  simp only [Signature.annotationName?, hrun, q.startsWithInterface hword]
  simp [hpos]

theorem QualifiedName.annotationLength?_name (q : QualifiedName)
    (hs : (∀ c ∈ s.head?, isAnnotationChar c = false) ∧
      argumentsLength? (s.drop (run isBlank s)) = none) :
    annotationLength? ('@' :: (q.text ++ s)) = some ('@' :: q.text).length := by
  have hdrop : ('@' :: (q.text ++ s)).drop (q.text.length + 1) = s := by simp
  rw [annotationLength?, q.annotationName? hs.1]
  simp only [Option.map_some, hdrop, hs.2, length_cons]

theorem QualifiedName.annotationLength?_arguments (q : QualifiedName) {w t : Text}
    (hw : ∀ c ∈ w, c ∈ gapCharacters) (ht : (t ++ s).head? = some '(')
    (hread : argumentsLength? (t ++ s) = some t.length) :
    annotationLength? ('@' :: (q.text ++ (w ++ (t ++ s)))) =
      some ('@' :: (q.text ++ (w ++ t))).length := by
  have hall : (gapCharacters.all fun c => isBlank c && !isAnnotationChar c) = true := by decide
  have hgap : ∀ c ∈ w, isBlank c = true ∧ isAnnotationChar c = false := fun c hc => by
    simpa using all_eq_true.mp hall c (hw c hc)
  have hhead : ∀ c ∈ (w ++ (t ++ s)).head?, isAnnotationChar c = false := by
    cases w with
    | nil =>
      rw [nil_append, ht]
      rintro c ⟨⟩
      decide
    | cons d w => simpa using (hgap d mem_cons_self).2
  have hrun : run isBlank (w ++ (t ++ s)) = w.length := by
    refine run_append (fun c hc => (hgap c hc).1) ?_
    rw [ht]
    rintro c ⟨⟩
    decide
  have hdrop : ('@' :: (q.text ++ (w ++ (t ++ s)))).drop (q.text.length + 1) = w ++ (t ++ s) := by
    simp
  rw [annotationLength?, q.annotationName? hhead]
  simp only [Option.map_some, hdrop, hrun, drop_left, hread]
  simp
  omega

/-- An annotation is read to its end, if what follows is not taken for a part of it. -/
theorem AnnotationUse.annotationLength? (a : AnnotationUse)
    (hs : a.arguments = none → (∀ c ∈ s.head?, isAnnotationChar c = false) ∧
      argumentsLength? (s.drop (run isBlank s)) = none) :
    annotationLength? (flatten a.text ++ s) = some a.text.length := by
  obtain ⟨name, gap, blank, arguments, hgap⟩ := a
  have hflat : flatten ('@' :: name.text) = '@' :: name.text :=
    congrArg _ (flatten_token (.name name))
  cases arguments with
  | none =>
    obtain rfl := hgap rfl
    have hread := name.annotationLength?_name (hs rfl)
    rw [← cons_append, ← hflat, length_flatten] at hread
    simpa [AnnotationUse.text] using hread
  | some arguments =>
    have hspace : ∀ c ∈ flatten gap, c ∈ gapCharacters := fun c hc => by
      rw [flatten_gap blank] at hc
      rw [eq_of_mem_replicate hc]
      decide
    have hread := name.annotationLength?_arguments (s := s) (t := flatten arguments.text) hspace
      rfl (by rw [arguments.argumentsLength?, length_flatten])
    rw [← cons_append, ← hflat] at hread
    simpa [AnnotationUse.text, Signature.flatten] using hread

/-- Whether an item can stand behind an annotation without being taken for a part of it. -/
def Item.isFresh : Item → Bool
  | token (.mark m) => m = .openAngle
  | _ => true

/-- Annotations have fresh items behind them. -/
def Led (items : List Item) : Prop :=
  items.IsChain fun i j => (∃ a, i = .annotationUse a) → j.isFresh

theorem Token.exists_cons (t : Token) :
    ∃ c s, t.text = c :: s ∧ (isWord c ∨ c = '@' ∨ ∃ m, t = .mark m) := by
  cases t with
  | name q =>
    obtain ⟨n, r, hq, -⟩ := q.exists_first
    obtain ⟨c, s, hn, hc⟩ := n.isName.toIsWord.exists_cons
    exact ⟨c, s ++ r, by simp [Token.text, hq, hn], .inl hc⟩
  | arrayName n =>
    obtain ⟨c, s, hn, hc⟩ := n.isName.toIsWord.exists_cons
    exact ⟨c, s ++ ['[', ']'], by simp [Token.text, hn], .inl hc⟩
  | keyword word mem =>
    have hall : (keywords.all fun word => word.head?.any fun c => isWord c || c = '@') = true := by
      decide
    have hhead := all_eq_true.mp hall word mem
    obtain ⟨c, s, rfl⟩ := exists_cons_of_ne_nil (of_mem_keywords mem).1
    exact ⟨c, s, rfl, (by simpa using hhead : isWord c = true ∨ c = '@').imp_right .inl⟩
  | mark m =>
    obtain ⟨c, s, hm, -⟩ := m.exists_cons
    exact ⟨c, s, hm, .inr (.inr ⟨m, rfl⟩)⟩

theorem Item.exists_cons_of_isFresh {i : Item} (h : i.isFresh) :
    ∃ c s, i.text = c :: s ∧ (isWord c ∨ c = '@' ∨ c = '<') := by
  cases i with
  | annotationUse a => exact ⟨_, _, rfl, .inr (.inl rfl)⟩
  | token t =>
    obtain ⟨c, s, ht, hc⟩ := t.exists_cons
    refine ⟨c, s, ht, hc.imp_right fun hc => hc.imp_right ?_⟩
    rintro ⟨m, rfl⟩
    obtain rfl : m = .openAngle := of_decide_eq_true h
    exact (List.cons.inj ht).1.symm

theorem spelling_cons (p : Piece) (pieces : List Piece) :
    spelling (p :: pieces) = p.text ++ spelling pieces := rfl

theorem flatten_gapPiece (c : Char) (mem : c ∈ gapCharacters) :
    flatten (Piece.gap c mem).text = [' '] :=
  flatten_gap (by simpa [Piece.text])

theorem flatten_cons_of_fresh (h : isWord c ∨ c = '@' ∨ c = '<') (s : Text) :
    isBlank c = false ∧ flatten (c :: s) = c :: flatten s := by
  have hblank : isBlank c = false := by
    rcases h with h | rfl | rfl
    · exact isBlank_of_isWord h
    · decide
    · decide
  refine ⟨hblank, ?_⟩
  rw [Signature.flatten, map_cons, if_neg]
  · rfl
  · rintro (rfl | rfl | rfl) <;> exact absurd hblank (by decide)

/-- No argument list follows if the next item is fresh. -/
theorem argumentsLength?_spelling (h : ∀ i ∈ (pieces.filterMap Piece.item?).head?, i.isFresh) :
    argumentsLength? ((flatten (spelling pieces)).drop (run isBlank (flatten (spelling pieces)))) =
      none := by
  rw [drop_run]
  induction pieces with
  | nil => rfl
  | cons p pieces ih =>
    rw [spelling_cons, flatten_append]
    cases p with
    | gap c mem =>
      rw [flatten_gapPiece]
      exact ih h
    | item i =>
      obtain ⟨c, s, hi, hc⟩ := i.exists_cons_of_isFresh (h i (by simp [Piece.item?]))
      obtain ⟨hblank, hflat⟩ := flatten_cons_of_fresh hc s
      have hparen : c ≠ '(' := by
        rintro rfl
        exact absurd hc (by decide)
      rw [Piece.text, hi, hflat, cons_append, dropWhile_cons_of_neg (by simp [hblank])]
      unfold argumentsLength?
      grind

/-- The name of an annotation without arguments ends where the next piece begins. -/
theorem head_spelling {a : AnnotationUse} (ha : a.arguments = none)
    (hapart : (Piece.item (.annotationUse a) :: pieces).IsChain fun p q => p.apart q)
    (h : ∀ i ∈ (pieces.filterMap Piece.item?).head?, i.isFresh) :
    ∀ c ∈ (flatten (spelling pieces)).head?, isAnnotationChar c = false := by
  cases pieces with
  | nil => simp [spelling, Signature.flatten]
  | cons p pieces =>
    rw [spelling_cons, flatten_append]
    cases p with
    | gap c mem =>
      rw [flatten_gapPiece]
      simpa using by decide
    | item i =>
      obtain ⟨c, s, hi, hc⟩ := i.exists_cons_of_isFresh (h i (by simp [Piece.item?]))
      have hbegins : i.beginsWord = false := by
        have h := (isChain_cons_cons.mp hapart).1
        simpa [Piece.apart, Item.endsWord, ha] using h
      have hword : isWord c = false := by
        cases i with
        | annotationUse b =>
          obtain rfl := (List.cons.inj hi).1
          decide
        | token t =>
          have ht : t.text = c :: s := hi
          exact t.head_of_not_beginsWord hbegins c (by rw [ht]; rfl)
      obtain ⟨-, hflat⟩ := flatten_cons_of_fresh hc s
      rw [Piece.text, hi, hflat]
      rcases hc with hc | rfl | rfl
      · exact absurd hc (by simp [hword])
      · simpa using by decide
      · simpa using by decide

/-- No word stands right behind a token that is not set off by itself. -/
theorem head_spelling_of_token (ht : t.isLoose = false)
    (hcells : (some t :: pieces.map Piece.cell).IsChain CellsAdjoin) :
    ∀ c ∈ (flatten (spelling pieces)).head?, isWord c = false := by
  cases pieces with
  | nil => simp [spelling, Signature.flatten]
  | cons p pieces =>
    rw [spelling_cons, flatten_append]
    rcases p with ⟨c, mem⟩ | ⟨a | u⟩
    · rw [flatten_gapPiece]
      exact ends_word (by decide) _
    · exact ends_word (d := '@') (by decide) _
    · have hu := Token.Adjoins.not_beginsWord (isChain_cons_cons.mp hcells).1 ht
      rw [Piece.text, Item.text, flatten_token, head?_append_of_ne_nil _ u.text_ne_nil]
      exact u.head_of_not_beginsWord hu

theorem annotationRule_of_ne (hc : c ≠ '@') (before : Option Char) (s : Text) :
    annotationRule before (c :: s) = none := by
  rw [annotationRule, annotationLength?, annotationName?_of_ne hc]
  rfl

/-- A token is not taken for an annotation. -/
theorem exists_substituteFrom_annotationRule
    (hs : t.isLoose = false → ∀ c ∈ s.head?, isWord c = false) (before : Option Char) :
    ∃ b, substituteFrom annotationRule 0 before (t.text ++ s) =
      t.text ++ substituteFrom annotationRule 0 b s := by
  by_cases hat : '@' ∈ t.text
  · have hinterface : t.text = "@interface".toList ∧ t.isLoose = false := by
      cases t with
      | keyword word mem =>
        have hall : ∀ word ∈ keywords, '@' ∈ word → word = "@interface".toList := by decide
        exact ⟨hall word mem hat, rfl⟩
      | name q => exact absurd hat (Token.notMem (by decide) (by simp [Token.marks]))
      | arrayName n => exact absurd hat (Token.notMem (by decide) (by simp [Token.marks]))
      | mark m => cases m <;> simp [Token.text, Mark.text] at hat
    have hnone : annotationRule before ('@' :: ("interface".toList ++ s)) = none := by
      have hstarts : startsWithInterface ("interface".toList ++ s) = true := by
        rw [startsWithInterface, after?_append]
        cases s with
        | nil => rfl
        | cons c s => simp [hs hinterface.2 c rfl]
      rw [annotationRule, annotationLength?, annotationName?]
      simp only [hstarts, or_true, if_true, Option.map_none]
    have hinside : ∀ c ∈ "interface".toList, ∀ before t, annotationRule before (c :: t) = none :=
      fun c hc before t => annotationRule_of_ne (by rintro rfl; exact absurd hc (by decide)) before
        t
    obtain ⟨b, hb⟩ := exists_substituteFrom_append hinside (some '@') s
    refine ⟨b, ?_⟩
    have htext : t.text = '@' :: "interface".toList := hinterface.1
    rw [htext, cons_append, substituteFrom_cons_of_none hnone, hb, cons_append]
  · exact exists_substituteFrom_append (fun c hc => annotationRule_of_ne fun h => hat (h ▸ hc)) _ _

/-- **Annotations become spaces.** -/
theorem substituteFrom_annotationRule (hapart : pieces.IsChain fun p q => p.apart q)
    (hcells : (pieces.map Piece.cell).IsChain CellsAdjoin)
    (hled : Led (pieces.filterMap Piece.item?)) (before : Option Char) :
    substituteFrom annotationRule 0 before (flatten (spelling pieces)) =
      rowText (pieces.map Piece.cell) := by
  induction pieces generalizing before with
  | nil => rfl
  | cons p pieces ih =>
    rw [spelling_cons, flatten_append]
    rcases p with ⟨c, mem⟩ | ⟨a | t⟩
    · have hrest := ih hapart.tail hcells.tail hled (some ' ')
      rw [flatten_gapPiece, singleton_append,
        substituteFrom_cons_of_none (annotationRule_of_ne (by decide) _ _), hrest]
      rfl
    · have hfresh : ∀ i ∈ (pieces.filterMap Piece.item?).head?, i.isFresh := by
        intro i hi
        exact (isChain_cons.mp hled).1 i hi ⟨a, rfl⟩
      have hrule : annotationRule before (flatten a.text ++ flatten (spelling pieces)) =
          some ([' '], (flatten a.text).length) := by
        rw [annotationRule, a.annotationLength? fun ha =>
          ⟨head_spelling ha hapart hfresh, argumentsLength?_spelling hfresh⟩, length_flatten]
        rfl
      obtain ⟨b, hb⟩ :=
        exists_substituteFrom_of_some (by simp [Signature.flatten, AnnotationUse.text]) hrule
      rw [Piece.text, Item.text, hb, ih hapart.tail hcells.tail hled.tail b]
      rfl
    · obtain ⟨b, hb⟩ := exists_substituteFrom_annotationRule (t := t)
        (fun ht => head_spelling_of_token ht hcells) before
      rw [Piece.text, Item.text, flatten_token, hb, ih hapart.tail hcells.tail hled.tail b]
      rfl

theorem isChain_none_cons (h : (p :: row).IsChain CellsAdjoin) :
    (none :: row).IsChain CellsAdjoin :=
  isChain_cons.mpr ⟨fun _ _ => trivial, h.tail⟩

/-! ### Variable arity -/

/-- Whether a token stands for variable arity. -/
def Token.isEllipsis : Token → Bool
  | mark m => m = .ellipsis
  | _ => false

/-- Variable arity is an array dimension. -/
def Token.asDimension (t : Token) : Token :=
  if t.isEllipsis then .mark .dimension else t

/-- Variable arity becomes an array dimension right behind the token before it; `n` spaces have just
been passed. -/
def arrayed (n : Nat) : List (Option Token) → List (Option Token)
  | [] => List.replicate n none
  | none :: row => arrayed (n + 1) row
  | some t :: row =>
    if t.isEllipsis then some (.mark .dimension) :: arrayed 0 row
    else List.replicate n none ++ some t :: arrayed 0 row

theorem Token.eq_of_isEllipsis (h : t.isEllipsis) : t = .mark .ellipsis := by
  cases t with
  | mark m => rw [show m = .ellipsis from of_decide_eq_true h]
  | name | arrayName | keyword => cases h

theorem reduceOption_arrayed (n : Nat) (row : List (Option Token)) :
    (arrayed n row).reduceOption = row.reduceOption.map Token.asDimension := by
  induction row generalizing n with
  | nil => simp [arrayed, reduceOption_replicate_none]
  | cons p row ih =>
    cases p with
    | none => simpa [arrayed] using ih (n + 1)
    | some t =>
      rw [arrayed]
      split_ifs with ht
      · simp [ih, Token.asDimension, ht]
      · simp [reduceOption_append, ih, Token.asDimension, ht]

theorem isChain_arrayed {n : Nat} (h : ((if n = 0 then p else none) :: row).IsChain CellsAdjoin) :
    (p :: arrayed n row).IsChain CellsAdjoin := by
  have hspaces : ∀ (n : Nat) (p : Option Token) (row : List (Option Token)),
      (none :: row).IsChain CellsAdjoin →
        (p :: (List.replicate (n + 1) none ++ row)).IsChain CellsAdjoin := by
    intro n p row hrow
    induction n generalizing p with
    | zero => exact .cons_cons (cellsAdjoin_none_right p) hrow
    | succ n ih => exact .cons_cons (cellsAdjoin_none_right p) (ih none)
  induction row generalizing p n with
  | nil =>
    cases n with
    | zero => exact .singleton _
    | succ n => simpa [arrayed] using hspaces n p [] (.singleton _)
  | cons q row ih =>
    cases q with
    | none => exact ih (by simpa using h.tail)
    | some t =>
      have hrest : (some t :: arrayed 0 row).IsChain CellsAdjoin := ih (by simpa using h.tail)
      rw [arrayed]
      split_ifs with ht
      · have hchain : (some (.mark .dimension) :: row).IsChain CellsAdjoin := by
          refine isChain_cons.mpr ⟨fun q hq => ?_, h.tail.tail⟩
          have hadjoin := (isChain_cons.mp h.tail).1 q hq
          cases q with
          | none => trivial
          | some u =>
            exact .inr (hadjoin.resolve_left (by simp [Token.eq_of_isEllipsis ht, Token.isLoose]))
        refine .cons_cons ?_ (ih (by simpa using hchain))
        cases p <;> simp [CellsAdjoin, Token.Adjoins, Token.isSuffix]
      · cases n with
        | zero => grind
        | succ n => grind

/-- The first character of a token other than variable arity is no dot. -/
theorem Token.exists_cons_of_not_isEllipsis (h : t.isEllipsis = false) :
    ∃ c s, t.text = c :: s ∧ c ≠ '.' ∧ isBlank c = false := by
  obtain ⟨c, s, hcs, hc⟩ := t.exists_cons
  refine ⟨c, s, hcs, ?_, isBlank_of_mem (hcs ▸ mem_cons_self)⟩
  rintro rfl
  rcases hc with hc | hc | ⟨m, rfl⟩
  · exact absurd hc (by decide)
  · exact absurd hc (by decide)
  · cases m <;> simp_all [Token.text, Mark.text, Token.isEllipsis]

theorem varargsRule_of_ne (hdot : c ≠ '.') (hblank : isBlank c = false) (before : Option Char)
    (s : Text) : varargsRule before (c :: s) = none := by
  simp [run, hblank, startsWith, after?, Ne.symm hdot, varargsRule]

/-- Spaces stay where no variable arity follows. -/
theorem exists_substituteFrom_spaces
    (hs : startsWith ['.', '.', '.'] s = false ∧ ∀ c ∈ s.head?, isBlank c = false) (n : Nat)
    (before : Option Char) :
    ∃ b, substituteFrom varargsRule 0 before (List.replicate n ' ' ++ s) =
      List.replicate n ' ' ++ substituteFrom varargsRule 0 b s := by
  refine exists_substituteFrom_of_none (fun c v hv b => ?_) before
  have hspaces : c :: v = List.replicate (v.length + 1) ' ' :=
    eq_replicate_iff.mpr ⟨rfl, fun d hd => eq_of_mem_replicate (hv.subset hd)⟩
  have hrun := run_spaces (v.length + 1) hs.2
  rw [← hspaces, cons_append] at hrun
  simp [varargsRule, hrun, hs.1]

/-- A qualified name has no two dots side by side. -/
theorem QualifiedName.exists_substituteFrom_varargsRule (q : QualifiedName) (before : Option Char)
    (s : Text) : ∃ b, substituteFrom varargsRule 0 before (q.text ++ s) =
      q.text ++ substituteFrom varargsRule 0 b s := by
  have hword : ∀ (n : Name) (before : Option Char) (s : Text),
      ∃ b, substituteFrom varargsRule 0 before (n.text ++ s) =
        n.text ++ substituteFrom varargsRule 0 b s := by
    intro n before s
    have hblank : ∀ c ∈ n.text, isBlank c = false := fun c hc =>
      Token.isBlank_of_mem (t := .arrayName n) (mem_append_left _ hc)
    refine exists_substituteFrom_append (fun c hc => varargsRule_of_ne ?_ (hblank c hc)) before s
    rintro rfl
    exact n.isName.notMem (by decide) hc
  obtain ⟨qualifiers, name⟩ := q
  induction qualifiers generalizing before with
  | nil => simpa [QualifiedName.text] using hword name before s
  | cons n qualifiers ih =>
    have htext : QualifiedName.text ⟨n :: qualifiers, name⟩ ++ s =
        n.text ++ '.' :: (QualifiedName.text ⟨qualifiers, name⟩ ++ s) := by
      simp [QualifiedName.text]
    -- A name follows the dot.
    have hdot : ∀ b, varargsRule b ('.' :: (QualifiedName.text ⟨qualifiers, name⟩ ++ s)) =
        none := by
      intro b
      obtain ⟨c, r, hc, hne, -⟩ :=
        Token.exists_cons_of_not_isEllipsis (t := .name ⟨qualifiers, name⟩) rfl
      have hcons : QualifiedName.text ⟨qualifiers, name⟩ = c :: r := hc
      have hrun : run isBlank ('.' :: c :: (r ++ s)) = 0 := by
        have hblank : isBlank '.' = false := by decide
        simp [run, hblank]
      simp [startsWith, after?, Ne.symm hne, hcons, varargsRule, hrun]
    obtain ⟨b, hb⟩ := hword n before ('.' :: (QualifiedName.text ⟨qualifiers, name⟩ ++ s))
    obtain ⟨b', hb'⟩ := ih (some '.')
    refine ⟨b', ?_⟩
    rw [htext, hb, substituteFrom_cons_of_none (hdot b), hb']
    simp [QualifiedName.text]

theorem Token.exists_substituteFrom_varargsRule (h : t.isEllipsis = false) (before : Option Char)
    (s : Text) :
    ∃ b, substituteFrom varargsRule 0 before (t.text ++ s) =
      t.text ++ substituteFrom varargsRule 0 b s := by
  by_cases hdot : '.' ∈ t.text
  · cases t with
    | name q => exact q.exists_substituteFrom_varargsRule before s
    | arrayName n => exact absurd hdot (notMem (by decide) (by simp [marks]))
    | keyword word mem => exact absurd hdot (notMem (by decide) (by simp [marks]))
    | mark m => cases m <;> simp_all [text, Mark.text, isEllipsis]
  · refine exists_substituteFrom_append (fun c hc => varargsRule_of_ne ?_ (isBlank_of_mem hc))
      before s
    rintro rfl
    exact hdot hc

theorem rowText_spaces (n : Nat) : rowText (List.replicate n none) = List.replicate n ' ' := by
  induction n with
  | zero => rfl
  | succ n ih => simp [replicate_succ, ih]

/-- **Variable arity becomes an array dimension.** -/
theorem substituteFrom_varargsRule (n : Nat) (row : List (Option Token)) (before : Option Char) :
    substituteFrom varargsRule 0 before (List.replicate n ' ' ++ rowText row) =
      rowText (arrayed n row) := by
  induction row generalizing n before with
  | nil =>
    obtain ⟨b, hb⟩ := exists_substituteFrom_spaces (s := []) ⟨rfl, by simp⟩ n before
    rw [rowText_nil, hb, arrayed, rowText_spaces]
    simp [substituteFrom]
  | cons p row ih =>
    cases p with
    | none =>
      have hshift : List.replicate n ' ' ++ ' ' :: rowText row =
          List.replicate (n + 1) ' ' ++ rowText row := by
        rw [replicate_succ']
        simp
      rw [rowText_cons_none, hshift, ih, arrayed]
    | some t =>
      rw [rowText_cons_some, arrayed]
      split_ifs with ht
      · have hrule : varargsRule before ((List.replicate n ' ' ++ t.text) ++ rowText row) =
            some (['[', ']'], (List.replicate n ' ' ++ t.text).length) := by
          rw [Token.eq_of_isEllipsis ht, append_assoc, Token.text, Mark.text]
          have hrun : run isBlank (List.replicate n ' ' ++ (['.', '.', '.'] ++ rowText row)) = n :=
            run_spaces n (by simpa using by decide)
          have hdrop : (List.replicate n ' ' ++ (['.', '.', '.'] ++ rowText row)).drop n =
              ['.', '.', '.'] ++ rowText row := by
            rw [drop_append_of_le_length (by simp)]
            simp
          simp only [varargsRule, hrun, hdrop, startsWith, after?_append,
            Option.isSome_some, if_true]
          simp
        obtain ⟨b, hb⟩ := exists_substituteFrom_of_some (by simp [t.text_ne_nil]) hrule
        rw [← append_assoc, hb]
        exact congrArg (['[', ']'] ++ ·) (ih 0 b)
      · have ht' : t.isEllipsis = false := by simpa using ht
        obtain ⟨c, s, hcs, hdot, hblank⟩ := Token.exists_cons_of_not_isEllipsis ht'
        obtain ⟨b, hb⟩ := exists_substituteFrom_spaces (s := t.text ++ rowText row)
          ⟨by simp [hcs, startsWith, after?, Ne.symm hdot], by simp [hcs, hblank]⟩ n before
        obtain ⟨b', hb'⟩ := Token.exists_substituteFrom_varargsRule ht' b (rowText row)
        rw [hb, hb', rowText_append, rowText_spaces, rowText_cons_some]
        exact congrArg (fun r => List.replicate n ' ' ++ (t.text ++ r)) (ih 0 b')

/-! ### Type arguments -/

def Token.opensAngle : Token → Bool
  | mark m => m = .openAngle
  | _ => false

def Token.closesAngle : Token → Bool
  | mark m => m = .closeAngle
  | _ => false

/-- The tokens outside of angle brackets, `depth` of which are open. -/
def outer (depth : Nat) : List Token → List Token
  | [] => []
  | t :: ts =>
    if t.opensAngle then outer (depth + 1) ts
    else if t.closesAngle then outer (depth - 1) ts
    else if depth = 0 then t :: outer 0 ts
    else outer depth ts

/-- All angle brackets are closed, `depth` that are open before and all others. -/
def Balanced (depth : Nat) : List Token → Prop
  | [] => depth = 0
  | t :: ts =>
    if t.opensAngle then Balanced (depth + 1) ts
    else if t.closesAngle then 0 < depth ∧ Balanced (depth - 1) ts
    else Balanced depth ts

/-- The row outside of angle brackets, `depth` of which are open; a space stands for each outermost
pair. -/
def outerRow (depth : Nat) : List (Option Token) → List (Option Token)
  | [] => []
  | none :: row => if depth = 0 then none :: outerRow 0 row else outerRow depth row
  | some t :: row =>
    if t.opensAngle then outerRow (depth + 1) row
    else if t.closesAngle then
      if depth ≤ 1 then none :: outerRow 0 row else outerRow (depth - 1) row
    else if depth = 0 then some t :: outerRow 0 row
    else outerRow depth row

theorem reduceOption_outerRow {depth : Nat} :
    (outerRow depth row).reduceOption = outer depth row.reduceOption := by
  induction row generalizing depth with
  | nil => rfl
  | cons p row ih =>
    cases p with
    | none =>
      rw [outerRow, reduceOption_cons_of_none]
      split_ifs with hdepth
      · rw [reduceOption_cons_of_none, ih, hdepth]
      · exact ih
    | some t =>
      rw [outerRow, reduceOption_cons_of_some, outer]
      split_ifs with hopen hclose hdepth hdepth
      · exact ih
      · rw [reduceOption_cons_of_none, ih, Nat.sub_eq_zero_of_le hdepth]
      · exact ih
      · rw [reduceOption_cons_of_some, ih]
      · exact ih

theorem isChain_outerRow {q : Option Token} {depth : Nat} (h : (q :: row).IsChain CellsAdjoin)
    (hpq : depth = 0 → q = p) : (p :: outerRow depth row).IsChain CellsAdjoin := by
  induction row generalizing p q depth with
  | nil => exact .singleton _
  | cons r row ih =>
    have hrest : ∀ q', (none :: outerRow 0 row).IsChain CellsAdjoin ∧ (depth ≠ 0 →
        (q' :: outerRow depth row).IsChain CellsAdjoin) := fun q' =>
      ⟨ih (isChain_none_cons h.tail) fun _ => rfl, fun hdepth => ih h.tail fun h => absurd h hdepth⟩
    cases r with
    | none =>
      rw [outerRow]
      split_ifs with hdepth
      · exact .cons_cons (cellsAdjoin_none_right p) (hrest none).1
      · exact (hrest p).2 hdepth
    | some t =>
      rw [outerRow]
      split_ifs with hopen hclose hdepth hdepth
      · exact ih h.tail fun h => absurd h (by omega)
      · exact .cons_cons (cellsAdjoin_none_right p) (hrest none).1
      · exact ih h.tail fun h => absurd h (by omega)
      · obtain rfl := hpq hdepth
        exact .cons_cons (isChain_cons_cons.mp h).1 (ih h.tail fun _ => rfl)
      · exact (hrest p).2 hdepth

theorem Token.eq_of_opensAngle (h : t.opensAngle) : t = .mark .openAngle := by
  cases t with
  | mark m => rw [show m = .openAngle from of_decide_eq_true h]
  | name | arrayName | keyword => cases h

theorem Token.eq_of_closesAngle (h : t.closesAngle) : t = .mark .closeAngle := by
  cases t with
  | mark m => rw [show m = .closeAngle from of_decide_eq_true h]
  | name | arrayName | keyword => cases h

theorem Token.dropTypeArgumentsFrom (hopen : t.opensAngle = false) (hclose : t.closesAngle = false)
    (current : Text) (outers : List Text) (s : Text) :
    dropTypeArgumentsFrom current outers (t.text ++ s) =
      dropTypeArgumentsFrom (t.text.reverse ++ current) outers s := by
  have hpass : ∀ w : Text, '<' ∉ w → '>' ∉ w → ∀ current,
      Signature.dropTypeArgumentsFrom current outers (w ++ s) =
        Signature.dropTypeArgumentsFrom (w.reverse ++ current) outers s := by
    intro w
    induction w with
    | nil => exact fun _ _ _ => rfl
    | cons c w ih =>
      intro hopen hclose current
      rw [mem_cons, not_or] at hopen hclose
      rw [cons_append, Signature.dropTypeArgumentsFrom.eq_def]
      simp only [if_neg (Ne.symm hopen.1), if_neg (Ne.symm hclose.1), ih hopen.2 hclose.2]
      simp
  have hmarks : '<' ∉ t.marks ∧ '>' ∉ t.marks := by
    cases t with
    | mark m => cases m <;> simp_all [marks, Mark.text, opensAngle, closesAngle]
    | name | arrayName | keyword => simp [marks]
  exact hpass t.text (notMem (by decide) hmarks.1) (notMem (by decide) hmarks.2) current

/-- **Type arguments become spaces.** The text before the outermost bracket that is open stays, and
so does what stands behind it once it is closed. -/
theorem dropTypeArgumentsFrom_rowText (current : Text) (outers : List Text)
    (h : Balanced outers.length row.reduceOption) :
    dropTypeArgumentsFrom current outers (rowText row) =
      (outers.getLast?.getD current).reverse ++ rowText (outerRow outers.length row) := by
  induction row generalizing current outers with
  | nil =>
    obtain rfl : outers = [] := length_eq_zero_iff.mp h
    simp [dropTypeArgumentsFrom, unwind, outerRow]
  | cons p row ih =>
    -- Text outside of all brackets stays, text inside goes away with them.
    have hstep : ∀ w : Text, Balanced outers.length row.reduceOption →
        dropTypeArgumentsFrom (w.reverse ++ current) outers (rowText row) =
          (outers.getLast?.getD current).reverse ++ ((if outers.length = 0 then w else []) ++
            rowText (outerRow outers.length row)) := by
      intro w hbalanced
      rw [ih _ _ hbalanced]
      cases outers with
      | nil => simp
      | cons outer outers => simp [getLast?_cons]
    cases p with
    | none =>
      have hspace : dropTypeArgumentsFrom current outers (rowText (none :: row)) =
          dropTypeArgumentsFrom ([' '].reverse ++ current) outers (rowText row) := by
        rw [rowText_cons_none, dropTypeArgumentsFrom.eq_def]
        rfl
      rw [hspace, hstep _ h, outerRow]
      split_ifs with hdepth
      · rw [hdepth]
        rfl
      · rfl
    | some t =>
      rw [reduceOption_cons_of_some, Balanced] at h
      rw [outerRow]
      split_ifs at h ⊢ with hopen hclose hdepth hdepth
      · obtain rfl := Token.eq_of_opensAngle hopen
        have hopened :
            dropTypeArgumentsFrom current outers (rowText (some (.mark .openAngle) :: row)) =
            dropTypeArgumentsFrom [] (current :: outers) (rowText row) := by
          rw [rowText_cons_some, dropTypeArgumentsFrom.eq_def]
          rfl
        rw [hopened, ih [] (current :: outers) h, getLast?_cons]
        rfl
      · obtain rfl := Token.eq_of_closesAngle hclose
        obtain ⟨outer, rfl⟩ : ∃ outer, outers = [outer] :=
          length_eq_one_iff.mp (by omega)
        have hclosed :
            dropTypeArgumentsFrom current [outer] (rowText (some (.mark .closeAngle) :: row)) =
            dropTypeArgumentsFrom (' ' :: outer) [] (rowText row) := rfl
        rw [hclosed, ih _ [] h.2]
        simp
      · obtain rfl := Token.eq_of_closesAngle hclose
        obtain ⟨outer, next, rest, rfl⟩ : ∃ outer next rest, outers = outer :: next :: rest := by
          match outers, hdepth with
          | outer :: next :: rest, _ => exact ⟨outer, next, rest, rfl⟩
          | [], hdepth | [_], hdepth => exact absurd (by simp) hdepth
        have hclosed : dropTypeArgumentsFrom current (outer :: next :: rest)
            (rowText (some (.mark .closeAngle) :: row)) =
            dropTypeArgumentsFrom (' ' :: outer) (next :: rest) (rowText row) := rfl
        rw [hclosed, ih _ (next :: rest) h.2]
        simp [getLast?_cons]
      · have hpass := Token.dropTypeArgumentsFrom (by simpa using hopen) (by simpa using hclose)
          current outers (rowText row)
        rw [rowText_cons_some, hpass, hstep _ h, if_pos hdepth, hdepth, rowText_cons_some]
      · have hpass := Token.dropTypeArgumentsFrom (by simpa using hopen) (by simpa using hclose)
          current outers (rowText row)
        rw [rowText_cons_some, hpass, hstep _ h, if_neg hdepth]
        rfl

/-! ### Supertypes -/

/-- Whether a token begins the supertypes of a type. -/
def Token.opensSupertypes : Token → Bool
  | keyword word _ => word = "extends".toList ∨ word = "implements".toList
  | _ => false

/-- A token that reads like a reserved word is a keyword. -/
theorem Token.eq_keyword_of_text {word : Text} (hword : word ∈ reservedWords) (h : t.text = word) :
    ∃ mem, t = .keyword word mem := by
  have hforeign : ∀ c, isWord c = false → c ∉ t.text := fun c hc hmem =>
    absurd (isWord_of_mem_reserved hword c (h ▸ hmem)) (by simp [hc])
  cases t with
  | name q =>
    obtain ⟨n, r, hq, hr⟩ := q.exists_first
    cases r with
    | nil => exact absurd (by rw [← h, text, hq, append_nil]) (n.isName.ne hword)
    | cons d r =>
      obtain rfl := hr d rfl
      exact absurd (by simp [text, hq]) (hforeign '.' (by decide))
  | arrayName n => exact absurd (by simp [text]) (hforeign '[' (by decide))
  | keyword w mem =>
    obtain rfl : w = word := h
    exact ⟨mem, rfl⟩
  | mark m =>
    obtain ⟨d, s, hm, hd⟩ := m.exists_cons
    exact absurd (by simp [text, hm]) (hforeign d hd)

theorem Token.opensSupertypes_of_text {word : Text}
    (hword : word ∈ ["extends", "implements"].map String.toList) (h : t.text = word) :
    t.opensSupertypes := by
  have hreserved : ∀ word ∈ ["extends", "implements"].map String.toList, word ∈ reservedWords := by
    decide
  obtain ⟨mem, rfl⟩ := Token.eq_keyword_of_text (hreserved word hword) h
  exact decide_eq_true (by simpa using hword)

/-- No supertypes begin before a token that does not open them. -/
theorem supertypesRule_token (h : t.opensSupertypes = false)
    (hs : t.isLoose = false → ∀ c ∈ s.head?, isWord c = false) (before : Option Char) (c : Char) :
    supertypesRule before (c :: (t.text ++ s)) = none := by
  have hafter : ∀ word ∈ ["extends", "implements"].map String.toList, ∀ d rest,
      after? word (t.text ++ s) = some (d :: rest) → isBlank d = false := by
    intro word hword d rest hrest
    by_contra hblank
    have hisWord : ∀ c ∈ word, isWord c := by
      have hall : ∀ word ∈ ["extends", "implements"].map String.toList, word ∈ reservedWords := by
        decide
      exact isWord_of_mem_reserved (hall word hword)
    rcases append_eq_append_iff.mp (after?_eq_some_iff.mp hrest) with ⟨a, ha, hs'⟩ | ⟨a, ha, ha'⟩
    · -- The token is the keyword, or goes on with a word.
      cases a with
      | nil =>
        exact absurd (Token.opensSupertypes_of_text hword (by simpa using ha.symm)) (by simp [h])
      | cons e a =>
        have he : isWord e := hisWord e (ha ▸ by simp)
        cases hloose : t.isLoose with
        | false => exact absurd he (by simp [hs hloose e (hs' ▸ rfl)])
        | true =>
          cases t with
          | mark m =>
            obtain ⟨f, r, hm, hf⟩ := m.exists_cons
            have hmem : f ∈ word := by
              rw [ha, show Token.text (.mark m) = f :: r from hm]
              simp
            exact absurd (hisWord f hmem) (by simp [hf])
          | name | arrayName | keyword => cases hloose
    · -- White space would stand in the token.
      cases a with
      | nil =>
        exact absurd (Token.opensSupertypes_of_text hword (by simpa using ha)) (by simp [h])
      | cons e a =>
        obtain rfl := (List.cons.inj ha').1
        exact hblank (Token.isBlank_of_mem (by rw [ha]; simp))
  unfold supertypesRule
  simp only
  split
  · next d rest hrest =>
    have hd : isBlank d = false := by
      rcases Option.or_eq_some_iff.mp hrest with h | ⟨-, h⟩
      · exact hafter _ (by simp) d rest h
      · exact hafter _ (by simp) d rest h
    simp [hd]
  · rfl

/-- No supertypes begin in a space with another cell behind it. -/
theorem supertypesRule_space (hchain : row.IsChain CellsAdjoin)
    (h : ∀ t, row.head? = some (some t) → t.opensSupertypes = false) (before : Option Char) :
    supertypesRule before (' ' :: rowText row) = none := by
  cases row with
  | nil => rfl
  | cons p row =>
    cases p with
    | none => rfl
    | some t => exact supertypesRule_token (h t rfl) (fun ht => head_rowText ht hchain) before ' '

theorem supertypesRule_of_mem (t : Token) (hc : c ∈ t.text) (before : Option Char) (s : Text) :
    supertypesRule before (c :: s) = none :=
  supertypesRule_of_not_isBlank (t.isBlank_of_mem hc) before s

/-- Without supertypes a row stays as it is. -/
theorem unmatched_supertypesRule (hchain : row.IsChain CellsAdjoin)
    (h : ∀ t ∈ row.reduceOption, t.opensSupertypes = false) :
    Unmatched supertypesRule (rowText row) := by
  induction row with
  | nil => exact unmatched_nil fun _ => rfl
  | cons p row ih =>
    cases p with
    | none =>
      have hrest := ih hchain.tail h
      refine unmatched_cons (fun before => supertypesRule_space hchain.tail ?_ before) hrest
      intro t ht
      exact h t (reduceOption_mem_iff.mpr (mem_cons_of_mem _ (mem_of_head? ht)))
    | some t =>
      have hrest := ih hchain.tail fun u hu => h u (by simp [hu])
      exact hrest.append fun c hc before s => supertypesRule_of_mem t hc before s

/-- **The supertypes go away.** -/
theorem substituteFirst_supertypesRule {rest : List (Option Token)} (ht : t.opensSupertypes)
    (hchain : (row ++ none :: some t :: none :: rest).IsChain CellsAdjoin)
    (h : ∀ u ∈ row.reduceOption, u.opensSupertypes = false) (before : Option Char) :
    substituteFirstFrom? supertypesRule before (rowText (row ++ none :: some t :: none :: rest)) =
      some (rowText (row ++ [none])) := by
  induction row generalizing before with
  | nil =>
    have hrule : supertypesRule before (' ' :: (t.text ++ ' ' :: rowText rest)) =
        some ([' '], (' ' :: (t.text ++ ' ' :: rowText rest)).length) := by
      cases t with
      | keyword word mem =>
        have hword : word = "extends".toList ∨ word = "implements".toList := of_decide_eq_true ht
        rcases hword with rfl | rfl
        · rw [supertypesRule, Token.text, after?_append]
          rfl
        · have hnone : after? "extends".toList ("implements".toList ++ ' ' :: rowText rest) =
              none := rfl
          rw [supertypesRule, Token.text, after?_append, hnone]
          rfl
      | name | arrayName | mark => cases ht
    rw [nil_append, rowText_cons_none, rowText_cons_some, rowText_cons_none,
      substituteFirstFrom?, hrule]
    simp
  | cons p row ih =>
    have hrest := ih hchain.tail fun u hu => h u (by
      cases p with
      | none => exact hu
      | some v => simp [hu])
    cases p with
    | none =>
      have hnone : supertypesRule before
          (' ' :: rowText (row ++ none :: some t :: none :: rest)) = none := by
        refine supertypesRule_space hchain.tail (fun u hu => ?_) before
        cases row with
        | nil => simp at hu
        | cons q row =>
          obtain rfl : q = some u := by simpa using hu
          exact h u (by simp)
      rw [cons_append, rowText_cons_none, substituteFirstFrom?, hnone]
      simp [hrest]
    | some u =>
      rw [cons_append, rowText_cons_some,
        substituteFirstFrom?_append (fun c hc => supertypesRule_of_mem u hc) hrest]
      rfl

end DocGraft.Declaration
