import Mathlib
import DocGraft.Proofs.DeclarationLines

/-!
# The reduction of declarations

What the first steps of the reduction leave of the tokens of a declaration can be said phrase by
phrase: type arguments and package names go away, and variable arity becomes an array dimension. A
spelling of a declaration is then reduced to a line of the tokens that are left, whatever white
space it has.
-/

namespace DocGraft.Declaration

open List Text Signature

variable {items rest : List Item} {pieces : List Piece} {t : Token} {ts us : List Token}

/-! ### What is left of tokens -/

/-- Tokens that are reduced to others: their type arguments and package names go away, and variable
arity becomes an array dimension. -/
structure Reduces (ts us : List Token) : Prop where
  balanced : ∀ rest, Balanced 0 rest → Balanced 0 (ts.map Token.asDimension ++ rest)
  outer_eq : ∀ rest, (outer 0 (ts.map Token.asDimension ++ rest)).map Token.simple =
    us ++ (outer 0 rest).map Token.simple

theorem Reduces.nil : Reduces [] [] :=
  ⟨fun _ h => h, fun _ => rfl⟩

theorem Reduces.append {ts' us' : List Token} (h : Reduces ts us) (h' : Reduces ts' us') :
    Reduces (ts ++ ts') (us ++ us') where
  balanced rest hrest := by
    rw [map_append, append_assoc]
    exact h.balanced _ (h'.balanced rest hrest)
  outer_eq rest := by
    rw [map_append, append_assoc, h.outer_eq, h'.outer_eq, append_assoc]

/-- A token that is no angle bracket. -/
theorem Reduces.single (hopen : t.asDimension.opensAngle = false)
    (hclose : t.asDimension.closesAngle = false) : Reduces [t] [t.asDimension.simple] where
  balanced rest hrest := by simpa [Balanced, hopen, hclose] using hrest
  outer_eq rest := by simp [outer, hopen, hclose]

theorem Reduces.name (q : QualifiedName) : Reduces [.name q] [.name q.name.unqualified] :=
  .single rfl rfl

theorem Reduces.keyword {word : Text} (mem : word ∈ keywords) :
    Reduces [.keyword word mem] [.keyword word mem] :=
  .single rfl rfl

theorem Reduces.dimensions (n : Nat) :
    Reduces (List.replicate n (.mark .dimension)) (List.replicate n (.mark .dimension)) := by
  induction n with
  | zero => exact .nil
  | succ n ih => exact Reduces.append (.single (t := .mark .dimension) rfl rfl) ih

theorem Token.of_isInner {t : Token} (inner : t.isInner) :
    t.asDimension = t ∧ t.opensAngle = false ∧ t.closesAngle = false := by
  cases t with
  | mark m => cases m <;> first | exact ⟨rfl, rfl, rfl⟩ | exact absurd inner (by decide)
  | name | arrayName | keyword => exact ⟨rfl, rfl, rfl⟩

/-- Tokens between angle brackets go away. -/
theorem Enclosed.outer_tokens (e : Enclosed) (depth : Nat) (rest : List Token) :
    (Balanced (depth + 1) rest → Balanced (depth + 1) (e.tokens.map Token.asDimension ++ rest)) ∧
      outer (depth + 1) (e.tokens.map Token.asDimension ++ rest) = outer (depth + 1) rest := by
  induction e generalizing depth rest with
  | nil => exact ⟨id, rfl⟩
  | cons t inner tail ih =>
    obtain ⟨hbalanced, houter⟩ := ih depth rest
    have ht := Token.of_isInner inner
    rw [Enclosed.tokens, map_cons, cons_append, ht.1]
    simp only [Balanced, outer, ht.2.1, ht.2.2]
    exact ⟨hbalanced, houter⟩
  | group inside tail ihInside ihTail =>
    obtain ⟨hbalanced, houter⟩ := ihTail depth rest
    obtain ⟨hbalanced', houter'⟩ := ihInside (depth + 1)
      (.mark .closeAngle :: (tail.tokens.map Token.asDimension ++ rest))
    have htokens : (Enclosed.group inside tail).tokens.map Token.asDimension ++ rest =
        .mark .openAngle :: (inside.tokens.map Token.asDimension ++
          .mark .closeAngle :: (tail.tokens.map Token.asDimension ++ rest)) := by
      simp [Enclosed.tokens, Token.asDimension, Token.isEllipsis]
    rw [htokens]
    constructor
    · intro hrest
      exact hbalanced' ⟨by omega, hbalanced hrest⟩
    · exact houter'.trans houter

theorem Reduces.bracketed (o : Option Enclosed) : Reduces (bracketed o) [] := by
  cases o with
  | none => exact .nil
  | some e =>
    have htokens : ∀ rest, (Declaration.bracketed (some e)).map Token.asDimension ++ rest =
        .mark .openAngle :: (e.tokens.map Token.asDimension ++ .mark .closeAngle :: rest) := by
      intro rest
      simp [Declaration.bracketed, Token.asDimension, Token.isEllipsis]
    constructor
    · intro rest hrest
      rw [htokens]
      exact (e.outer_tokens 0 _).1 ⟨by omega, hrest⟩
    · intro rest
      rw [htokens]
      exact congrArg (List.map Token.simple) (e.outer_tokens 0 _).2

theorem TypeUse.reduces (type : TypeUse) :
    Reduces type.tokens
      (.name type.name.name.unqualified :: List.replicate type.dimensions (.mark .dimension)) := by
  have h := (Reduces.name type.name).append
    ((Reduces.bracketed type.arguments).append (.dimensions type.dimensions))
  simpa [TypeUse.tokens] using h

/-- The tokens of a parameter before its type in a key. -/
def Parameter.finals (p : Parameter) : List Token :=
  if p.isFinal then [finalToken] else []

theorem Parameter.reduces (p : Parameter) :
    Reduces p.tokens (p.finals ++ (p.typeTokens ++ [.name p.name.unqualified])) := by
  have hfinal : Reduces p.finals p.finals := by
    unfold finals
    split_ifs
    · exact .keyword _
    · exact .nil
  have hvariadic : Reduces (if p.variadic then [.mark .ellipsis] else [])
      (List.replicate p.variadic.toNat (.mark .dimension)) := by
    cases p.variadic with
    | true => exact .single rfl rfl
    | false => exact .nil
  have h := hfinal.append (p.type.reduces.append (hvariadic.append (.name p.name.unqualified)))
  have htokens : p.typeTokens ++ [.name p.name.unqualified] =
      (.name p.type.name.name.unqualified :: List.replicate p.type.dimensions (.mark .dimension)) ++
        (List.replicate p.variadic.toNat (.mark .dimension) ++ [.name p.name.unqualified]) := by
    rw [typeTokens, replicate_add, cons_append, cons_append, append_assoc]
  rw [htokens]
  exact h

/-- The tokens that are left of a parameter before its name goes away. -/
def ArrayParameter.keptTokens (p : ArrayParameter) : List Token :=
  p.base.finals ++ p.plainTokens

theorem ArrayParameter.reduces (p : ArrayParameter) : Reduces p.tokens p.keptTokens := by
  simpa [tokens, keptTokens, plainTokens, nameTokens] using p.base.reduces.append
    (.dimensions p.trailing)

theorem Reduces.parameterTokens (ps : List ArrayParameter) :
    Reduces (parameterTokens ArrayParameter.tokens ps)
      (parameterTokens ArrayParameter.keptTokens ps) :=
  have hend : Reduces [.mark .closeParen] [.mark .closeParen] := .single rfl rfl
  separated_rel hend hend (fun h => Reduces.append (.single (t := .mark .comma) rfl rfl) h)
    (fun p _ _ h => p.reduces.append h) ps

/-- The token of an item. -/
def Item.token? : Item → Option Token
  | annotationUse _ => none
  | token t => some t

def Modifier.token? (m : Modifier) : Option Token :=
  m.item.token?

theorem Reduces.modifiers (ms : List Modifier) :
    Reduces (ms.filterMap Modifier.token?) (ms.filterMap Modifier.token?) := by
  induction ms with
  | nil => exact .nil
  | cons m ms ih =>
    cases m with
    | word w mem => exact (Reduces.keyword (by simp [keywords, mem])).append ih
    | annotationUse a => exact ih

theorem filterMap_token_map (ts : List Token) : (ts.map Item.token).filterMap Item.token? = ts := by
  induction ts with
  | nil => rfl
  | cons t ts ih => simp [Item.token?, ih]

theorem filterMap_token_modifiers (ms : List Modifier) :
    (ms.map Modifier.item).filterMap Item.token? = ms.filterMap Modifier.token? := by
  rw [filterMap_map]
  rfl

theorem filterMap_token_parameters (ps : List ArrayParameter) :
    (Declaration.separated (Item.token (.mark .comma)) ArrayParameter.items ps ++
      [Item.token (.mark .closeParen)]).filterMap Item.token? =
      parameterTokens ArrayParameter.tokens ps := by
  refine separated_rel (R := fun is ts => is.filterMap Item.token? = ts)
    (E := fun is ts => is.filterMap Item.token? = ts) rfl rfl (fun h => ?_) (fun p is ts h => ?_) ps
  · exact congrArg (Token.mark .comma :: ·) h
  · rw [filterMap_append, h, ArrayParameter.items, filterMap_append, filterMap_token_map,
      filterMap_map]
    simp [Item.token?, Function.comp_def]

/-- The tokens of a method before its name. -/
def Method.leadTokens (m : Method) : List Token :=
  m.modifiers.filterMap Modifier.token? ++ (m.returnType.map fun type =>
    .name type.name.name.unqualified :: List.replicate type.dimensions (.mark .dimension)).getD []

/-- The tokens that are left of a method. -/
def Method.keptTokens (m : Method) (ps : List ArrayParameter) : List Token :=
  m.leadTokens ++ (.name m.name.unqualified :: .mark .openParen ::
    parameterTokens ArrayParameter.keptTokens ps)

theorem Method.reduces (m : Method) (ps : List ArrayParameter) :
    Reduces ((m.itemsWith ps).filterMap Item.token?) (m.keptTokens ps) := by
  have hreturn : Reduces ((m.returnType.map TypeUse.tokens).getD []) ((m.returnType.map fun type =>
      Token.name type.name.name.unqualified ::
        List.replicate type.dimensions (.mark .dimension)).getD []) := by
    cases m.returnType with
    | none => exact .nil
    | some type => exact type.reduces
  have h := ((Reduces.modifiers m.modifiers).append ((Reduces.bracketed m.typeParameters).append
    hreturn)).append ((Reduces.name m.name.unqualified).append
      ((Reduces.single (t := .mark .openParen) rfl rfl).append (.parameterTokens ps)))
  have htokens : (m.itemsWith ps).filterMap Item.token? = (m.modifiers.filterMap Modifier.token? ++
      (Declaration.bracketed m.typeParameters ++ (m.returnType.map TypeUse.tokens).getD [])) ++
      ([.name m.name.unqualified] ++ ([.mark .openParen] ++
        parameterTokens ArrayParameter.tokens ps)) := by
    rw [Method.itemsWith, filterMap_append, filterMap_append, filterMap_token_parameters,
      filterMap_token_modifiers, filterMap_token_map, Method.tokens]
    simp
  rw [htokens]
  simpa [Method.keptTokens, Method.leadTokens, Name.unqualified, Token.asDimension,
    Token.isEllipsis, Token.simple] using h

theorem Field.reduces (f : Field) :
    Reduces (f.items.filterMap Item.token?) (f.modifiers.filterMap Modifier.token? ++
      (.name f.type.name.name.unqualified ::
        (List.replicate f.type.dimensions (.mark .dimension) ++
          [if f.isArray then .arrayName f.name else .name f.name.unqualified]))) := by
  have hname : Reduces [if f.isArray then .arrayName f.name else .name f.name.unqualified]
      [if f.isArray then .arrayName f.name else .name f.name.unqualified] := by
    cases f.isArray with
    | true => exact .single rfl rfl
    | false => exact .name _
  rw [Field.items, filterMap_append, filterMap_token_modifiers, filterMap_token_map]
  exact (Reduces.modifiers f.modifiers).append (f.type.reduces.append hname)

theorem Enclosed.reduces (e : Enclosed) : ∃ us, Reduces e.tokens us := by
  induction e with
  | nil => exact ⟨[], .nil⟩
  | cons t inner tail ih =>
    obtain ⟨us, h⟩ := ih
    have ht := Token.of_isInner inner
    exact ⟨_, Reduces.append (.single (t := t) (by rw [ht.1, ht.2.1]) (by rw [ht.1, ht.2.2])) h⟩
  | group inside tail _ ih =>
    obtain ⟨us, h⟩ := ih
    have htokens : (Enclosed.group inside tail).tokens = bracketed (some inside) ++
        tail.tokens := by
      simp [Enclosed.tokens, bracketed]
    exact ⟨_, htokens ▸ (Reduces.bracketed (some inside)).append h⟩

/-- The tokens of a type up to its supertypes. -/
def TypeHeader.leadTokens (h : TypeHeader) : List Token :=
  h.modifiers.filterMap Modifier.token? ++
    [h.opening, .name h.name.unqualified]

theorem Supertypes.reduces (s : Supertypes) :
    ∃ us, Reduces s.tokens (s.opening :: .name s.first.name.unqualified :: us) := by
  obtain ⟨us, h⟩ := s.rest.reduces
  have hopening : Reduces [s.opening] [s.opening] := by
    unfold opening
    split_ifs
    · exact .keyword _
    · exact .keyword _
  exact ⟨us, hopening.append ((Reduces.name s.first).append h)⟩

theorem TypeHeader.reduces (h : TypeHeader) : ∃ us,
    Reduces (h.items.filterMap Item.token?) (h.leadTokens ++ us) ∧
      (us = [] ∨ ∃ (s : Supertypes) (q : QualifiedName) (vs : List Token),
        us = s.opening :: .name q :: vs) := by
  have hopening : Reduces [h.opening] [h.opening] := .keyword _
  have hlead := (Reduces.modifiers h.modifiers).append
    ((hopening.append (Reduces.name h.name.unqualified)).append
      (Reduces.bracketed h.typeParameters))
  have htokens : ∀ us, Reduces ((h.supertypes.map Supertypes.tokens).getD []) us →
      Reduces (h.items.filterMap Item.token?) (h.leadTokens ++ us) := by
    intro us hus
    have htext : h.items.filterMap Item.token? = (h.modifiers.filterMap Modifier.token? ++
        (([h.opening] ++ [.name h.name.unqualified]) ++
          bracketed h.typeParameters)) ++ (h.supertypes.map Supertypes.tokens).getD [] := by
      rw [TypeHeader.items, filterMap_append, filterMap_token_modifiers, filterMap_token_map,
        TypeHeader.tokens]
      simp
    rw [htext]
    simpa [TypeHeader.leadTokens, Name.unqualified] using hlead.append hus
  cases hsupertypes : h.supertypes with
  | none => exact ⟨[], htokens [] (by rw [hsupertypes]; exact .nil), .inl rfl⟩
  | some s =>
    obtain ⟨us, hus⟩ := s.reduces
    exact ⟨_, htokens _ (by rw [hsupertypes]; exact hus), .inr ⟨s, _, us, rfl⟩⟩

/-! ### Annotations stand before other items -/

/-- A list that can stand behind an annotation. -/
def Fresh (items : List Item) : Prop :=
  ∀ i ∈ items.head?, i.isFresh

theorem led_tokens (ts : List Token) : Led (ts.map .token) := by
  induction ts with
  | nil => exact .nil
  | cons t ts ih => exact isChain_cons.mpr ⟨fun _ _ h => (by simp at h), ih⟩

theorem led_append (h : ∀ i ∈ items, i.isFresh) (hfresh : Fresh rest) (hled : Led rest) :
    Led (items ++ rest) ∧ Fresh (items ++ rest) := by
  induction items with
  | nil => exact ⟨hled, hfresh⟩
  | cons i items ih =>
    obtain ⟨hi, h⟩ := forall_mem_cons.mp h
    refine ⟨isChain_cons.mpr ⟨fun j hj _ => (ih h).2 j hj, (ih h).1⟩, ?_⟩
    rintro j hj
    obtain rfl : i = j := by simpa using hj
    exact hi

theorem led_token_cons (t : Token) (h : Led rest) : Led (.token t :: rest) :=
  isChain_cons.mpr ⟨fun _ _ h => (by simp at h), h⟩

theorem led_tokens_append (ts : List Token) (h : Led rest) : Led (ts.map .token ++ rest) := by
  induction ts with
  | nil => exact h
  | cons t ts ih => exact led_token_cons t ih

theorem Modifier.isFresh_item (m : Modifier) : m.item.isFresh := by
  cases m <;> rfl

theorem led_parameters (ps : List ArrayParameter) :
    Led (separated (.token (.mark .comma)) ArrayParameter.items ps ++
      [.token (.mark .closeParen)]) := by
  refine separated_rel (g := ArrayParameter.items) (d := .token (.mark .comma))
    (R := fun is _ => Led is) (E := fun is _ => Led is) (t := [.token (.mark .closeParen)])
    (.singleton _) (.singleton _) (led_token_cons _) (fun p is _ h => ?_) ps
  have hannotations : ∀ i ∈ p.base.annotations.map Item.annotationUse, i.isFresh := by
    intro i hi
    obtain ⟨a, -, rfl⟩ := mem_map.mp hi
    rfl
  have hfresh : Fresh (p.tokens.map .token ++ is) := by
    intro i hi
    cases hfinal : p.base.isFinal <;>
      simp [ArrayParameter.tokens, Parameter.tokens, hfinal, TypeUse.tokens] at hi <;>
      subst hi <;> rfl
  rw [ArrayParameter.items, append_assoc]
  exact (led_append hannotations hfresh (led_tokens_append _ h)).1

theorem led_modifiers (ms : List Modifier) (hfresh : Fresh rest) (hled : Led rest) :
    Led (ms.map Modifier.item ++ rest) := by
  refine (led_append (fun i hi => ?_) hfresh hled).1
  obtain ⟨m, -, rfl⟩ := mem_map.mp hi
  exact m.isFresh_item

/-- Annotations of a method stand before modifiers, types and type parameters. -/
theorem Method.led_itemsWith (m : Method) (ps : List ArrayParameter) : Led (m.itemsWith ps) := by
  refine led_modifiers _ ?_ (led_tokens_append _ (led_parameters ps))
  intro i hi
  cases htype : m.typeParameters <;> cases hreturn : m.returnType <;>
    simp [Method.tokens, bracketed, htype, hreturn, TypeUse.tokens] at hi <;> subst hi <;> rfl

theorem Method.items_eq (m : Method) :
    m.items = m.itemsWith (m.parameters.map ({ base := · })) := by
  have hitems : ∀ ps : List Parameter, separated (.token (.mark .comma)) ArrayParameter.items
      (ps.map ({ base := · })) = parameterItems ps := by
    have hone : ∀ p : Parameter, ArrayParameter.items { base := p } = p.items := by
      intro p
      simp [ArrayParameter.items, ArrayParameter.tokens, Parameter.items]
    intro ps
    induction ps with
    | nil => rfl
    | cons p ps ih =>
      cases ps with
      | nil => exact hone p
      | cons q ps =>
        rw [map_cons] at ih
        rw [map_cons, map_cons, separated_cons_cons, ih, hone]
        rfl
  rw [Method.items, Method.itemsWith, hitems]

theorem Field.led_items (f : Field) : Led f.items := by
  refine led_modifiers _ ?_ (led_tokens _)
  intro i hi
  simp [Field.tokens, TypeUse.tokens] at hi
  subst hi
  rfl

theorem TypeHeader.led_items (h : TypeHeader) : Led h.items := by
  refine led_modifiers _ ?_ (led_tokens _)
  intro i hi
  simp [TypeHeader.tokens] at hi
  subst hi
  rfl

/-! ### From spellings to lines -/

theorem Token.opensSupertypes_simple (t : Token) : t.simple.opensSupertypes =
    t.opensSupertypes := by
  cases t <;> rfl

theorem Token.isPlain_simple (t : Token) : t.simple.isPlain = t.isPlain := by
  cases t <;> rfl

theorem Token.isLoose_simple (t : Token) : t.simple.isLoose = t.isLoose := by
  cases t <;> rfl

theorem isChain_cell (hapart : pieces.IsChain fun p q => p.apart q) (hunclung : Unclung pieces) :
    (pieces.map Piece.cell).IsChain CellsAdjoin := by
  induction pieces with
  | nil => exact .nil
  | cons p pieces ih =>
    have hrest := ih hapart.tail hunclung.tail
    cases pieces with
    | nil => exact .singleton _
    | cons q pieces =>
      exact .cons_cons (Piece.cellsAdjoin (isChain_cons_cons.mp hapart).1
        (isChain_cons_cons.mp hunclung).1) hrest

theorem reduceOption_cell (pieces : List Piece) :
    (pieces.map Piece.cell).reduceOption = (pieces.filterMap Piece.item?).filterMap
      Item.token? := by
  induction pieces with
  | nil => rfl
  | cons p pieces ih =>
    rcases p with ⟨c, mem⟩ | ⟨a | t⟩
    · exact ih
    · exact ih
    · simp [Piece.cell, Piece.item?, Item.token?, ih]

/-- The row of a spelling once annotations, variable arity and type arguments are reduced. -/
theorem exists_row (hspells : Spells pieces items) (hunclung : Unclung pieces) (hled : Led items)
    (hbalanced : Balanced 0 ((items.filterMap Item.token?).map Token.asDimension)) :
    ∃ row : List (Option Token), row.IsChain CellsAdjoin ∧
      row.reduceOption = outer 0 ((items.filterMap Item.token?).map Token.asDimension) ∧
      dropTypeArguments (substitute varargsRule (substitute annotationRule
        (flatten (spelling pieces)))) = rowText row := by
  have hcells := isChain_cell hspells.apart hunclung
  have htokens : (pieces.map Piece.cell).reduceOption = items.filterMap Item.token? := by
    rw [reduceOption_cell, hspells.items_eq]
  have harrayed := reduceOption_arrayed 0 (pieces.map Piece.cell)
  rw [htokens] at harrayed
  refine ⟨outerRow 0 (arrayed 0 (pieces.map Piece.cell)), ?_, ?_, ?_⟩
  · have hchain : (none :: pieces.map Piece.cell).IsChain CellsAdjoin :=
      isChain_cons.mpr ⟨fun _ _ => trivial, hcells⟩
    exact (isChain_outerRow (isChain_arrayed (n := 0) hchain) fun _ => rfl).tail
  · rw [reduceOption_outerRow, harrayed]
  · have hannotations : substitute annotationRule (flatten (spelling pieces)) =
        rowText (pieces.map Piece.cell) :=
      substituteFrom_annotationRule hspells.apart hcells (hspells.items_eq ▸ hled) none
    have hvarargs : substitute varargsRule (rowText (pieces.map Piece.cell)) =
        rowText (arrayed 0 (pieces.map Piece.cell)) := substituteFrom_varargsRule 0 _ none
    rw [hannotations, hvarargs]
    exact dropTypeArgumentsFrom_rowText [] [] (harrayed ▸ hbalanced)

/-- A row around one of its tokens. -/
theorem exists_of_reduceOption {row : List (Option Token)} (h : row.reduceOption = ts ++ t :: us) :
    ∃ left right, row = left ++ some t :: right ∧ left.reduceOption = ts ∧
      right.reduceOption = us := by
  induction row generalizing ts with
  | nil => simp at h
  | cons p row ih =>
    cases p with
    | none =>
      obtain ⟨left, right, rfl, hleft, hright⟩ := ih h
      exact ⟨none :: left, right, rfl, hleft, hright⟩
    | some u =>
      rw [reduceOption_cons_of_some] at h
      cases ts with
      | nil =>
        obtain ⟨rfl, rfl⟩ := List.cons.inj h
        exact ⟨[], row, rfl, rfl, rfl⟩
      | cons v ts =>
        obtain ⟨rfl, htail⟩ := List.cons.inj h
        obtain ⟨left, right, rfl, hleft, hright⟩ := ih htail
        exact ⟨some u :: left, right, rfl, by simp [hleft], hright⟩

/-- Supertypes are cut off behind the other tokens. -/
theorem exists_row_of_supertypes {row : List (Option Token)} {u : Token}
    (hchain : row.IsChain CellsAdjoin) (hrow : row.reduceOption = ts ++ t :: u :: us)
    (ht : t.opensSupertypes) (hu : u.isLoose = false ∧ u.isSuffix = false) (hne : ts ≠ [])
    (hts : ∀ v ∈ ts, v.opensSupertypes = false ∧ v.isLoose = false) :
    ∃ left, left.IsChain CellsAdjoin ∧ left.reduceOption = ts ∧
      substituteFirst supertypesRule (rowText row) = rowText left := by
  obtain ⟨left, right, rfl, hleft, hright⟩ := exists_of_reduceOption hrow
  have ht' : t.isLoose = false ∧ t.isSuffix = false := by
    cases t with
    | keyword word mem => exact ⟨rfl, rfl⟩
    | name | arrayName | mark => cases ht
  -- A space stands on either side of the keyword.
  obtain ⟨right, rfl⟩ : ∃ right', right = none :: right' := by
    cases right with
    | nil => simp at hright
    | cons p right =>
      cases p with
      | none => exact ⟨right, rfl⟩
      | some v =>
        obtain ⟨rfl, -⟩ := List.cons.inj hright
        have hadjoin := (isChain_cons_cons.mp (isChain_append.mp hchain).2.1).1
        simp [CellsAdjoin, Token.Adjoins, ht'.1, hu.1, hu.2] at hadjoin
  obtain ⟨left, rfl⟩ : ∃ left', left = left' ++ [none] := by
    rcases eq_nil_or_concat left with rfl | ⟨left, p, rfl⟩
    · exact absurd hleft.symm (by simpa using hne)
    · cases p with
      | none => exact ⟨left, concat_eq_append⟩
      | some v =>
        have hv : v ∈ ts := by
          rw [← hleft]
          simp [reduceOption_append]
        have hadjoin := (isChain_append.mp hchain).2.2 (some v) (by simp) (some t) (by simp)
        simp [CellsAdjoin, Token.Adjoins, (hts v hv).2, ht'.1, ht'.2] at hadjoin
  refine ⟨left ++ [none], (isChain_append.mp hchain).1, hleft, ?_⟩
  have hleft' : left.reduceOption = ts := by simpa [reduceOption_append] using hleft
  rw [append_assoc, singleton_append] at hchain ⊢
  rw [substituteFirst, substituteFirst?, substituteFirst_supertypesRule ht hchain
    (fun v hv => (hts v (hleft' ▸ hv)).1), Option.getD_some]

/-- What is left in front of supertypes. -/
structure Remains (ts us : List Token) : Prop where
  supertypes : ∀ t ∈ ts, t.opensSupertypes = false
  plain : ∀ t ∈ ts, t.isPlain
  rest : us = [] ∨ (∃ (s : Supertypes) (q : QualifiedName) (vs : List Token),
    us = s.opening :: .name q :: vs) ∧ ts ≠ [] ∧ ∀ t ∈ ts, t.isLoose = false

/-- **A spelling is reduced to a line of its tokens.** -/
theorem exists_line (us : List Token) (hspells : Spells pieces items) (hunclung : Unclung pieces)
    (hled : Led items) (hreduces : Reduces (items.filterMap Item.token?) (ts ++ us))
    (hremains : Remains ts us) :
    ∃ line, Lined line ∧ line.map Prod.snd = ts ∧
      reduce (spelling pieces) = reduceParameters (lineText line) := by
  have hbalanced := hreduces.balanced [] rfl
  have houter := hreduces.outer_eq []
  rw [append_nil] at hbalanced houter
  obtain ⟨row, hchain, hrow, htext⟩ := exists_row hspells hunclung hled hbalanced
  -- Before package names go away, the tokens are the same but for these.
  obtain ⟨vs, ws, hvws, rfl, rfl⟩ : ∃ vs ws, row.reduceOption = vs ++ ws ∧
      vs.map Token.simple = ts ∧ ws.map Token.simple = us := by
    rw [← hrow] at houter
    exact map_eq_append_iff.mp (by simpa [outer] using houter)
  have hvs : ∀ v ∈ vs, v.opensSupertypes = false ∧ v.isPlain := by
    intro v hv
    have hmem := mem_map_of_mem (f := Token.simple) hv
    exact ⟨v.opensSupertypes_simple ▸ hremains.supertypes _ hmem,
      v.isPlain_simple ▸ hremains.plain _ hmem⟩
  obtain ⟨left, hleftChain, hleft, hsupertypes⟩ : ∃ left : List (Option Token),
      left.IsChain CellsAdjoin ∧ left.reduceOption = vs ∧
        substituteFirst supertypesRule (rowText row) = rowText left := by
    rcases hremains.rest with hnil | ⟨⟨s, q, rest, hrest⟩, hne, hloose⟩
    · obtain rfl := map_eq_nil_iff.mp hnil
      rw [append_nil] at hvws
      refine ⟨row, hchain, hvws, (unmatched_supertypesRule hchain fun t ht => ?_).substituteFirst⟩
      exact (hvs t (hvws ▸ ht)).1
    · obtain ⟨t, ws, rfl, ht, hws⟩ := map_eq_cons_iff.mp hrest
      obtain ⟨u, ws, rfl, hu, -⟩ := map_eq_cons_iff.mp hws
      refine exists_row_of_supertypes hchain hvws ?_ ?_ (by simpa using hne) fun v hv => ?_
      · rw [← t.opensSupertypes_simple, ht, Supertypes.opening]
        split_ifs <;> rfl
      · cases u with
        | name => exact ⟨rfl, rfl⟩
        | arrayName | keyword | mark => cases hu
      · exact ⟨(hvs v hv).1, v.isLoose_simple ▸ hloose _ (mem_map_of_mem hv)⟩
  have hline : Lined (lined true left) := fun t ht => eq_dimension_of_mem_lined
    (p := none) (isChain_cons.mpr ⟨fun _ _ => trivial, hleftChain⟩) (by simp)
    (fun t ht => (hvs t (hleft ▸ ht)).2) ht
  have htokens := map_snd_lined true left
  refine ⟨(lined true left).map fun p => (p.1, p.2.simple), ?_, ?_, ?_⟩
  · intro t ht
    obtain ⟨p, hp, heq⟩ := mem_map.mp ht
    obtain ⟨hfalse, rfl⟩ := Prod.mk.inj heq
    rw [hline p.2 (hfalse ▸ hp)]
    rfl
  · rw [map_map, ← hleft, ← htokens, map_map]
    rfl
  · have hqualifiers : substitute qualifierRule (lineText (lined true left)) =
        lineText ((lined true left).map fun p => (p.1, p.2.simple)) := by
      refine substituteFrom_qualifierRule hline (fun p hp => ?_) none
      have hmem : p.2 ∈ vs := by
        rw [← hleft, ← htokens]
        exact mem_map_of_mem hp
      have hplain := (hvs p.2 hmem).2
      simp only [Token.isPlain, Bool.and_eq_true, Bool.not_eq_true'] at hplain
      exact hplain.1
    rw [reduce, htext, hsupertypes, squeezeSpaces_rowText, hqualifiers]

end DocGraft.Declaration
