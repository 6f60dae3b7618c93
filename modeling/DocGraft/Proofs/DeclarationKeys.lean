import Mathlib
import DocGraft.Proofs.DeclarationReduction

/-!
# Keys of declarations

Every spelling of a declaration has the key of the declaration, unless two of its tokens cling to
each other: a word right behind an array dimension is taken for a part of the type. One array
dimension behind the name of a parameter belongs to its type; with two or more of them the name is
kept.

The main results are `Declaration.ofDeclaration_spelling`,
`Declaration.Method.ofDeclaration_trailing_iff` and `Declaration.spelling_key`.
-/

namespace DocGraft.Declaration

open List Text Signature

variable {line : List (Bool × Token)} {pieces : List Piece} {t : Token} {ts : List Token} {α : Type}

/-! ### Owners -/

/-- The simple name of a qualified name is its last segment. -/
theorem simpleName_qualified (q : QualifiedName) : simpleName q.text = q.name.text := by
  obtain ⟨qualifiers, name⟩ := q
  have hline : '\n' ∉ QualifiedName.text ⟨qualifiers, name⟩ :=
    Token.notMem (t := .name ⟨qualifiers, name⟩) (by decide) (by simp [Token.marks])
  have hdot : '.' ∉ name.text := name.isName.notMem (by decide)
  rcases eq_nil_or_concat qualifiers with rfl | ⟨qualifiers, n, rfl⟩
  · have hname := simpleName_word name.isName.toIsWord
    simpa [QualifiedName.text] using hname
  · have htext : QualifiedName.text ⟨qualifiers.concat n, name⟩ =
        QualifiedName.text ⟨qualifiers, n⟩ ++ '.' :: name.text := by
      simp [QualifiedName.text]
    obtain ⟨c, s, hcs, -⟩ := Token.exists_cons (.name ⟨qualifiers, n⟩)
    have hfirst : QualifiedName.text ⟨qualifiers, n⟩ = c :: s := hcs
    rw [simpleName, fields_of_notMem hline, dropQualifier, htext, if_pos (by simp [hfirst]),
      afterLast, cutLast_append_cons hdot]
    rfl

/-- The key of a declaration whose tokens end with a member. -/
theorem ofDeclaration_of_reduce {owner : QualifiedName} {raw tokens text : Text}
    (htokens : reduce raw = tokens) (hlast : lastMember? tokens = some text) :
    SignatureKey.ofDeclaration owner.text raw = .ok {
      owner := (declaredType? tokens).getD owner.name.text
      member := (text.filter (· ≠ ' ')).takeWhile (· ≠ '(')
      arguments := (text.filter (· ≠ ' ')).dropWhile (· ≠ '(')
      declaresInner := (declaredType? tokens).isSome &&
        declaredType? tokens ≠ some owner.name.text } := by
  rw [SignatureKey.ofDeclaration]
  simp only [htokens, hlast, simpleName_qualified]

/-! ### Fields and types -/

/-- Whether a token can be left of a declaration, and does not declare a type. -/
def Token.isSettled (t : Token) : Prop :=
  t.opensSupertypes = false ∧ t.isPlain ∧ t.text ∉ typeWords

theorem isSettled_modifier {ms : List Modifier} (h : t ∈ ms.filterMap Modifier.token?) :
    t.isSettled ∧ t.isLoose = false ∧ t.isDimension = false ∧ t.endsParameter = false := by
  obtain ⟨m, -, hm⟩ := mem_filterMap.mp h
  cases m with
  | word w mem =>
    obtain rfl := Option.some.inj hm
    have hall : ∀ w ∈ modifierWords, w ≠ "extends".toList ∧ w ≠ "implements".toList ∧
        w ∉ typeWords := by decide
    obtain ⟨hextends, himplements, htype⟩ := hall w mem
    exact ⟨⟨decide_eq_false (not_or.mpr ⟨hextends, himplements⟩), rfl, htype⟩, rfl, rfl, rfl⟩
  | annotationUse a => cases hm

theorem Name.isSettled (n : Name) : (Token.name n.unqualified).isSettled :=
  ⟨rfl, rfl, by rw [Token.text, n.text_unqualified]; exact n.isName.not_keyword⟩

/-- The tokens of a type, or of another name with array dimensions. -/
theorem of_mem_dimensioned {name : Name} {n : Nat}
    (h : t ∈ .name name.unqualified :: List.replicate n (Token.mark .dimension)) :
    t.isSettled ∧ t.isLoose = false ∧ t.isFinal = false ∧ t.endsParameter = false := by
  rcases mem_cons.mp h with rfl | h
  · exact ⟨name.isSettled, rfl, rfl, rfl⟩
  · rw [eq_of_mem_replicate h]
    exact ⟨⟨rfl, rfl, by decide⟩, rfl, rfl, rfl⟩

theorem reduceParameters_of_notMem {s : Text} (h : '(' ∉ s) : reduceParameters s = s := by
  rw [reduceParameters, if_neg h]

theorem paren_notMem_lineText (h : ∀ p ∈ line, p.2.isLoose = false) : '(' ∉ lineText line := by
  induction line with
  | nil => decide
  | cons p line ih =>
    obtain ⟨hp, h⟩ := forall_mem_cons.mp h
    have htext : '(' ∉ p.2.text := by
      refine Token.notMem (by decide) ?_
      cases ht : p.2 with
      | mark m => rw [ht] at hp; cases m <;> first | exact absurd hp (by decide) | decide
      | name | arrayName | keyword => simp [Token.marks]
    simp [lineText, htext, ih h]

theorem exists_concat_of_map (hline : Lined line) (h : line.map Prod.snd = ts ++ [t])
    (ht : t.isDimension = false) : ∃ lead, line = lead ++ [(true, t)] ∧ lead.map Prod.snd = ts := by
  obtain ⟨lead, last, rfl, hlead, hlast⟩ := map_eq_append_iff.mp h
  obtain ⟨⟨spaced, u⟩, rest, rfl, rfl, hrest⟩ := map_eq_cons_iff.mp hlast
  obtain rfl := map_eq_nil_iff.mp hrest
  cases spaced with
  | true => exact ⟨lead, rfl, hlead⟩
  | false =>
    have hdim : u = .mark .dimension := hline u (by simp)
    rw [hdim] at ht
    cases ht

/-- **The key of a field.** -/
theorem Field.ofDeclaration (f : Field) (owner : QualifiedName) (hspells : Spells pieces f.items)
    (hunclung : Unclung pieces) :
    SignatureKey.ofDeclaration owner.text (spelling pieces) =
      .ok { owner := owner.name.text, member := f.name.text } := by
  have hsettled : ∀ t ∈ f.modifiers.filterMap Modifier.token? ++
      (.name f.type.name.name.unqualified :: (List.replicate f.type.dimensions (.mark .dimension) ++
        [if f.isArray then .arrayName f.name else .name f.name.unqualified])),
      t.isSettled ∧ t.isLoose = false := by
    intro t ht
    rw [← cons_append, mem_append, mem_append, mem_singleton] at ht
    rcases ht with ht | ht | rfl
    · exact ⟨(isSettled_modifier ht).1, (isSettled_modifier ht).2.1⟩
    · exact ⟨(of_mem_dimensioned ht).1, (of_mem_dimensioned ht).2.1⟩
    · cases f.isArray with
      | true =>
        refine ⟨⟨rfl, rfl, fun hmem => ?_⟩, rfl⟩
        have hall : ∀ word ∈ typeWords, '[' ∉ word := by decide
        exact hall _ hmem (by simp [Token.text])
      | false => exact ⟨f.name.isSettled, rfl⟩
  have hreduces := f.reduces
  obtain ⟨line, hline, htokens, hreduce⟩ := exists_line [] hspells hunclung
    f.led_items (by rw [append_nil]; exact hreduces)
    ⟨fun t ht => (hsettled t ht).1.1, fun t ht => (hsettled t ht).1.2.1, .inl rfl⟩
  have hmem : ∀ p ∈ line, p.2.isSettled ∧ p.2.isLoose = false := fun p hp =>
    hsettled p.2 (htokens ▸ mem_map_of_mem hp)
  rw [reduceParameters_of_notMem (paren_notMem_lineText fun p hp => (hmem p hp).2)] at hreduce
  -- The name is the last token, with or without a dimension.
  obtain ⟨dims, hdims, htext⟩ : ∃ dims : Text, (dims = [] ∨ dims = ['[', ']']) ∧
      (if f.isArray then Token.arrayName f.name else .name f.name.unqualified).text =
        f.name.text ++ dims := by
    cases f.isArray with
    | true => exact ⟨['[', ']'], .inr rfl, rfl⟩
    | false => simp [Token.text, f.name.text_unqualified]
  have hlast : lastMember? (lineText line) = some f.name.text := by
    rw [← cons_append, ← append_assoc] at htokens
    obtain ⟨lead, rfl, -⟩ := exists_concat_of_map hline htokens (by cases f.isArray <;> rfl)
    rw [lineText_append]
    refine lastMember?_append_of_some ?_
    have hmember := lastMember?_name f.name.isName.toIsWord hdims
    rw [← append_assoc, ← htext] at hmember
    exact hmember
  rw [ofDeclaration_of_reduce hreduce hlast,
    declaredType?_lineText_eq_none hline fun p hp => (hmem p hp).1.2.2,
    (compact_word f.name.isName.toIsWord).1, (compact_word f.name.isName.toIsWord).2]
  rfl

theorem declaredType?_lineText_append {lead : List (Bool × Token)} (hline : Lined (lead ++ line))
    (h : ∀ p ∈ lead, p.2.text ∉ typeWords) :
    declaredType? (lineText (lead ++ line)) = declaredType? (lineText line) := by
  induction lead with
  | nil => rfl
  | cons p lead ih =>
    obtain ⟨hp, h⟩ := forall_mem_cons.mp h
    have htail : Lined (lead ++ line) := hline.tail
    rw [cons_append, declaredType?_lineText htail hp, ih htail h]

theorem declaredType?_type {keyword name : Text} (hkeyword : keyword ∈ typeWords)
    (hname : IsWord name) : declaredType? (tokenText [keyword, name]) = some name := by
  have htake : (name ++ [' ']).takeWhile isWord = name :=
    takeWhile_word hname.all (ends_word (by decide) _)
  have hafter : afterTypeKeyword? (keyword ++ tokenText [name]) = some (name ++ [' ']) := by
    rw [tokenText_cons, tokenText_nil, afterTypeKeyword?_append hkeyword]
  rw [tokenText_cons, declaredType?, if_pos rfl, hafter, Option.bind_some, htake]
  simp only [drop_left]
  rw [if_pos ⟨hname.ne_nil, rfl⟩, Option.some_or]

/-- **The key of a type.** -/
theorem TypeHeader.ofDeclaration (h : TypeHeader) (owner : QualifiedName)
    (hspells : Spells pieces h.items) (hunclung : Unclung pieces) :
    SignatureKey.ofDeclaration owner.text (spelling pieces) =
      .ok { owner := h.name.text, member := h.name.text,
            declaresInner := h.name.text ≠ owner.name.text } := by
  have hopening : h.opening.opensSupertypes = false := by
    have hall : ∀ w ∈ typeWords, w ≠ "extends".toList ∧ w ≠ "implements".toList := by decide
    exact decide_eq_false (not_or.mpr (hall h.keyword h.mem))
  have hsettled : ∀ t ∈ h.leadTokens, t.opensSupertypes = false ∧ t.isPlain ∧
      t.isLoose = false := by
    intro t ht
    simp only [TypeHeader.leadTokens, mem_append, mem_cons, not_mem_nil, or_false] at ht
    rcases ht with ht | rfl | rfl
    · obtain ⟨hsettled, hloose, -⟩ := isSettled_modifier ht
      exact ⟨hsettled.1, hsettled.2.1, hloose⟩
    · exact ⟨hopening, rfl, rfl⟩
    · exact ⟨rfl, rfl, rfl⟩
  obtain ⟨us, hreduces, hus⟩ := h.reduces
  obtain ⟨line, hline, htokens, hreduce⟩ := exists_line _ hspells hunclung h.led_items hreduces
    ⟨fun t ht => (hsettled t ht).1, fun t ht => (hsettled t ht).2.1,
      hus.imp_right fun hus => ⟨hus, by simp [TypeHeader.leadTokens],
        fun t ht => (hsettled t ht).2.2⟩⟩
  rw [reduceParameters_of_notMem (paren_notMem_lineText fun p hp =>
    (hsettled p.2 (htokens ▸ mem_map_of_mem hp)).2.2)] at hreduce
  have htokens' : line.map Prod.snd = (h.modifiers.filterMap Modifier.token? ++ [h.opening]) ++
      [.name h.name.unqualified] := by
    rw [htokens]
    simp [TypeHeader.leadTokens]
  obtain ⟨lead, rfl, hlead⟩ := exists_concat_of_map hline htokens' rfl
  obtain ⟨lead, rfl, hmodifiers⟩ := exists_concat_of_map
    (fun t ht => hline t (mem_append_left _ ht)) hlead rfl
  rw [append_assoc] at hreduce hline
  have htext : lineText ([(true, h.opening)] ++ [(true, Token.name h.name.unqualified)]) =
      tokenText [h.keyword, h.name.text] := by
    simp [lineText, tokenText, TypeHeader.opening, Token.text, h.name.text_unqualified]
  have hlast : lastMember? (lineText (lead ++ ([(true, h.opening)] ++
      [(true, Token.name h.name.unqualified)]))) = some h.name.text := by
    rw [lineText_append, htext, tokenText_cons, tokenText_cons, tokenText_nil]
    exact lastMember?_append_of_some (lastMember?_append_of_some (s := ' ' :: h.keyword)
      (lastMember?_name h.name.isName.toIsWord (.inl rfl)))
  have hdeclared : declaredType? (lineText (lead ++ ([(true, h.opening)] ++
      [(true, Token.name h.name.unqualified)]))) = some h.name.text := by
    rw [declaredType?_lineText_append hline fun p hp =>
      (isSettled_modifier (hmodifiers ▸ mem_map_of_mem hp)).1.2.2, htext,
      declaredType?_type h.mem h.name.isName.toIsWord]
  rw [ofDeclaration_of_reduce hreduce hlast, hdeclared, (compact_word h.name.isName.toIsWord).1,
    (compact_word h.name.isName.toIsWord).2]
  simp

/-! ### Methods -/

theorem map_dropFinal (token : α → Token) (line : List α) :
    (dropFinal token line).map token = dropFinal id (line.map token) := by
  induction line using dropFinal.induct token with
  | case1 => rfl
  | case2 p hp => simp [dropFinal, hp]
  | case3 p hp => simp [dropFinal, hp]
  | case4 p q line hp ih => simp [dropFinal, hp, ih]
  | case5 p q line hp ih =>
    rw [map_cons] at ih
    simp [dropFinal, hp, ih]

theorem dropFinal_subset (token : α → Token) (line : List α) : dropFinal token line ⊆ line := by
  induction line using dropFinal.induct token with
  | case1 => simp [dropFinal]
  | case2 p hp => simp [dropFinal, hp]
  | case3 p hp => simp [dropFinal, hp]
  | case4 p q line hp ih =>
    rw [dropFinal, if_pos hp]
    grind
  | case5 p q line hp ih =>
    rw [dropFinal, if_neg hp]
    exact cons_subset_cons p ih

theorem dropFinal_cons (ht : t.isFinal = false) (ts : List Token) :
    dropFinal id (t :: ts) = t :: dropFinal id ts := by
  cases ts with
  | nil => simp [dropFinal, ht]
  | cons u ts => simp [dropFinal, ht]

theorem dropFinal_append (h : ∀ t ∈ ts, t.isFinal = false) (us : List Token) :
    dropFinal id (ts ++ us) = ts ++ dropFinal id us := by
  induction ts with
  | nil => rfl
  | cons t ts ih =>
    obtain ⟨ht, h⟩ := forall_mem_cons.mp h
    rw [cons_append, dropFinal_cons ht, ih h, cons_append]

theorem dropFinal_append_cons (ht : t.isFinal = false) (ts us : List Token) :
    dropFinal id (ts ++ t :: us) = dropFinal id ts ++ t :: dropFinal id us := by
  induction ts using dropFinal.induct id with
  | case1 => exact dropFinal_cons ht us
  | case2 u hu => simp [dropFinal, show u.isFinal from hu]
  | case3 u hu => simp [dropFinal, show ¬ u.isFinal from hu, dropFinal_cons ht us]
  | case4 u v ts hu ih => simp [dropFinal, show u.isFinal from hu, ih]
  | case5 u v ts hu ih =>
    rw [cons_append] at ih
    simp [dropFinal, show ¬ u.isFinal from hu, ih]

theorem ArrayParameter.of_mem_plainTokens {p : ArrayParameter} (ht : t ∈ p.plainTokens) :
    t.isSettled ∧ t.isFinal = false := by
  rcases mem_append.mp ht with ht | ht
  · exact ⟨(of_mem_dimensioned ht).1, (of_mem_dimensioned ht).2.2.1⟩
  · exact ⟨(of_mem_dimensioned ht).1, (of_mem_dimensioned ht).2.2.1⟩

/-- The word `final` goes away before the types of parameters. -/
theorem dropFinal_parameters (ps : List ArrayParameter) :
    dropFinal id (parameterTokens ArrayParameter.keptTokens ps) =
      parameterTokens ArrayParameter.plainTokens ps := by
  refine separated_rel (R := fun ts us => dropFinal id ts = us)
    (E := fun ts us => dropFinal id ts = us) rfl rfl (fun h => ?_) (fun p ts us h => ?_) ps
  · rw [dropFinal_cons rfl, h]
  · have hplain : dropFinal id (p.plainTokens ++ ts) = p.plainTokens ++ us := by
      rw [dropFinal_append fun t ht => (p.of_mem_plainTokens ht).2, h]
    rw [ArrayParameter.keptTokens, Parameter.finals]
    split_ifs
    · -- What stands behind the word is kept.
      obtain ⟨u, vs, hvs, hu⟩ : ∃ u vs, p.plainTokens ++ ts = u :: vs ∧ u.isFinal = false :=
        ⟨.name p.base.type.name.name.unqualified, _, rfl, rfl⟩
      rw [append_assoc, hvs, ← hplain, hvs, dropFinal_cons hu]
      exact if_pos rfl
    · exact hplain

/-- No array dimension stands behind `final`. -/
def Steady (ts : List Token) : Prop :=
  ts.IsChain fun t u => t.isFinal → u.isDimension = false

theorem Steady.cons (ht : t.isFinal = false) (h : Steady ts) : Steady (t :: ts) :=
  isChain_cons.mpr ⟨fun _ _ hfinal => absurd hfinal (by simp [ht]), h⟩

theorem Steady.append {us : List Token} (h : Steady ts) (hus : Steady us)
    (hhead : ∀ u ∈ us.head?, u.isDimension = false) : Steady (ts ++ us) :=
  isChain_append.mpr ⟨h, hus, fun _ _ u hu _ => hhead u hu⟩

theorem steady_of_isFinal (h : ∀ t ∈ ts, t.isFinal = false) : Steady ts := by
  induction ts with
  | nil => exact .nil
  | cons t ts ih =>
    obtain ⟨ht, h⟩ := forall_mem_cons.mp h
    exact Steady.cons ht (ih h)

theorem steady_of_isDimension (h : ∀ t ∈ ts, t.isDimension = false) : Steady ts := by
  induction ts with
  | nil => exact .nil
  | cons t ts ih =>
    obtain ⟨-, h⟩ := forall_mem_cons.mp h
    exact isChain_cons.mpr ⟨fun u hu _ => h u (mem_of_mem_head? hu), ih h⟩

theorem steady_parameters (ps : List ArrayParameter) :
    Steady (parameterTokens ArrayParameter.keptTokens ps) := by
  have hend : Steady [.mark .closeParen] ∧
      ∀ u ∈ [Token.mark .closeParen].head?, u.isDimension = false :=
    ⟨.singleton _, by simp [Token.isDimension]⟩
  refine separated_rel (g := ArrayParameter.keptTokens) (d := .mark .comma)
    (R := fun ts _ => Steady ts)
    (E := fun ts _ => Steady ts ∧ ∀ u ∈ ts.head?, u.isDimension = false)
    (t := [.mark .closeParen]) hend.1 hend (fun h => ?_) (fun p ts _ h => ?_) ps
  · exact ⟨Steady.cons rfl h, by simp [Token.isDimension]⟩
  · refine Steady.append (Steady.append ?_ ?_ ?_) h.1 h.2
    · unfold Parameter.finals
      split_ifs
      · exact .singleton _
      · exact .nil
    · exact steady_of_isFinal fun t ht => (p.of_mem_plainTokens ht).2
    · intro u hu
      obtain rfl : Token.name p.base.type.name.name.unqualified = u := by
        simpa [ArrayParameter.plainTokens, Parameter.typeTokens] using hu
      rfl

theorem Method.isSettled_leadTokens (m : Method) (ht : t ∈ m.leadTokens) :
    t.isSettled ∧ t.endsParameter = false := by
  rcases mem_append.mp ht with ht | ht
  · exact ⟨(isSettled_modifier ht).1, (isSettled_modifier ht).2.2.2⟩
  · cases hreturn : m.returnType with
    | none => simp [hreturn] at ht
    | some type =>
      rw [hreturn, Option.map_some, Option.getD_some] at ht
      exact ⟨(of_mem_dimensioned ht).1, (of_mem_dimensioned ht).2.2.2⟩

theorem Method.steady_leadTokens (m : Method) : Steady m.leadTokens := by
  refine Steady.append (steady_of_isDimension fun t ht => (isSettled_modifier ht).2.2.1)
    (steady_of_isFinal fun t ht => ?_) fun u hu => ?_
  · cases hreturn : m.returnType with
    | none => simp [hreturn] at ht
    | some type =>
      rw [hreturn, Option.map_some, Option.getD_some] at ht
      exact (of_mem_dimensioned ht).2.2.1
  · cases hreturn : m.returnType with
    | none => simp [hreturn] at hu
    | some type =>
      obtain rfl : Token.name type.name.name.unqualified = u := by simpa [hreturn] using hu
      rfl

/-- Parameters, and what is left of them, have no tokens that declare types. -/
theorem isSettled_parameters {f : ArrayParameter → List Token} {ps : List ArrayParameter}
    (hf : ∀ p, f p ⊆ p.keptTokens) (ht : t ∈ parameterTokens f ps) : t.isSettled := by
  rcases mem_append.mp ht with ht | ht
  · rcases of_mem_separated ht with rfl | ⟨p, -, ht⟩
    · exact ⟨rfl, rfl, by decide⟩
    · rcases mem_append.mp (hf p ht) with hmem | hmem
      · obtain rfl : t = finalToken := by
          unfold Parameter.finals at hmem
          grind
        exact ⟨rfl, rfl, by decide⟩
      · exact (p.of_mem_plainTokens hmem).1
  · obtain rfl : t = .mark .closeParen := by simpa using ht
    exact ⟨rfl, rfl, by decide⟩

theorem ArrayParameter.shownTokens_subset (p : ArrayParameter) : p.shownTokens ⊆ p.keptTokens := by
  refine List.Subset.trans ?_ (subset_append_right _ _)
  refine append_subset.mpr ⟨subset_append_left _ _, List.Subset.trans ?_ (subset_append_right _ _)⟩
  split_ifs
  · exact subset_cons_self _ _
  · exact List.Subset.refl _

theorem mem_lineText {c : Char} (ht : t ∈ line.map Prod.snd) (hc : c ∈ t.text) :
    c ∈ lineText line := by
  induction line with
  | nil => simp at ht
  | cons p line ih =>
    rw [map_cons, mem_cons] at ht
    rcases ht with rfl | ht
    · simp [lineText, hc]
    · simp [lineText, ih ht]

/-- Names of parameters go away behind the name of a method. -/
theorem substitute_parameterNameRule (ps : List ArrayParameter) {name : Name}
    (hts : ∀ t ∈ ts, t.endsParameter = false) :
    substitute parameterNameRule (gluedText (ts ++ .name name.unqualified :: .mark .openParen ::
        parameterTokens ArrayParameter.plainTokens ps)) =
      gluedText (ts ++ .name name.unqualified :: .mark .openParen ::
        parameterTokens ArrayParameter.shownTokens ps) := by
  have htext :
      ∀ us : List Token, gluedText (ts ++ .name name.unqualified :: .mark .openParen :: us) =
      cells (ts ++ [.name name.unqualified]) ++ ' ' :: '(' :: gluedText us := by
    intro us
    simp [gluedText_eq, Token.isDimension, Token.text, Mark.text, cells]
  have hall : ∀ t ∈ ts ++ [.name name.unqualified], t.endsParameter = false := by
    intro t ht
    rcases mem_append.mp ht with ht | ht
    · exact hts t ht
    · obtain rfl : t = .name name.unqualified := by simpa using ht
      rfl
  obtain ⟨b, hb⟩ := exists_substituteFrom_cells hall (c := '(') (by decide) none
    (gluedText (parameterTokens ArrayParameter.plainTokens ps))
  rw [htext, htext, substitute, hb,
    substituteFrom_cons_of_none (parameterNameRule_mark (by decide) b _),
    substituteFrom_cons_of_none (parameterNameRule_of_ne (by decide) _ _),
      substituteFrom_parameters]

theorem filter_dropLast_tokenText (ws : List Text) :
    (tokenText ws).dropLast.filter (· ≠ ' ') = (tokenText ws).filter (· ≠ ' ') := by
  rcases eq_nil_or_concat ws with rfl | ⟨ws, w, rfl⟩
  · rfl
  · have htext : tokenText (ws.concat w) = (tokenText ws ++ w) ++ [' '] := by simp [tokenText]
    grind

/-- The key of a method with array dimensions behind the names of its parameters. -/
theorem Method.ofDeclaration_itemsWith (m : Method) (ps : List ArrayParameter)
    (owner : QualifiedName) (hspells : Spells pieces (m.itemsWith ps)) (hunclung : Unclung pieces) :
    SignatureKey.ofDeclaration owner.text (spelling pieces) = .ok {
      owner := owner.name.text, member := m.name.text
      arguments := '(' :: (joinWith [','] (ps.map ArrayParameter.shownText) ++ [')']) } := by
  have hname := m.name.isName.toIsWord
  have hsettled : ∀ t ∈ m.keptTokens ps, t.isSettled := by
    intro t ht
    rw [keptTokens, mem_append, mem_cons, mem_cons] at ht
    rcases ht with ht | rfl | rfl | ht
    · exact (m.isSettled_leadTokens ht).1
    · exact m.name.isSettled
    · exact ⟨rfl, rfl, by decide⟩
    · exact isSettled_parameters (fun p => List.Subset.refl _) ht
  obtain ⟨line, hline, htokens, hreduce⟩ := exists_line [] hspells hunclung
    (m.led_itemsWith ps) (by rw [append_nil]; exact m.reduces ps)
    ⟨fun t ht => (hsettled t ht).1, fun t ht => (hsettled t ht).2.1, .inl rfl⟩
  -- The words `final` go away, dimensions are attached, and then the names of parameters go away.
  have hparen : '(' ∈ lineText line :=
    mem_lineText (t := .mark .openParen) (by rw [htokens]; simp [keptTokens]) (by decide)
  have hsteady : line.IsChain fun p q => p.2.isFinal → q.1 = true := by
    have htokens' : Steady (line.map Prod.snd) := by
      rw [htokens]
      exact m.steady_leadTokens.append (Steady.cons rfl (Steady.cons rfl (steady_parameters _)))
        (by simp [Token.isDimension])
    refine ((isChain_map _).mp htokens').imp_of_mem_imp fun p q _ hq h hp => ?_
    by_contra hspaced
    have hfalse : q.1 = false := by simpa using hspaced
    have hdim := hline q.2 (hfalse ▸ hq)
    exact absurd (h hp) (by rw [hdim]; decide)
  set lead := dropFinal id m.leadTokens
  have hdrop : (dropFinal Prod.snd line).map Prod.snd = lead ++ .name m.name.unqualified ::
      .mark .openParen :: parameterTokens ArrayParameter.plainTokens ps := by
    rw [map_dropFinal, htokens, keptTokens, dropFinal_append_cons rfl, dropFinal_cons rfl,
      dropFinal_parameters]
  have hleadSettled : ∀ t ∈ lead, t.isSettled ∧ t.endsParameter = false := fun t ht =>
    m.isSettled_leadTokens (dropFinal_subset _ _ ht)
  rw [reduceParameters, if_pos hparen, replace_final hline hsteady,
    replace_dimension fun t ht => hline t (dropFinal_subset _ _ ht), hdrop,
    substitute_parameterNameRule _ fun t ht => (hleadSettled t ht).2] at hreduce
  -- The name with the types is the last member, and no type is declared.
  have htext : gluedText (lead ++ .name m.name.unqualified :: .mark .openParen ::
      parameterTokens ArrayParameter.shownTokens ps) =
      cells lead ++ tokenText (m.name.text :: ['('] :: (parameterWords ps ++ [[')']])) := by
    rw [gluedText_eq, cells_append, append_assoc, ← gluedText_eq, gluedText_cons rfl,
      gluedText_cons rfl, gluedText_shownTokens, tokenText_cons, tokenText_cons, Token.text,
      m.name.text_unqualified]
    rfl
  have hlast := lastMember?_append_of_some (s := cells lead) (lastMember?_parameters hname ps)
  rw [← htext] at hlast
  have hdeclared : declaredType? (gluedText (lead ++ .name m.name.unqualified :: .mark .openParen ::
      parameterTokens ArrayParameter.shownTokens ps)) = none := by
    rw [← lineText_glued]
    refine declaredType?_lineText_eq_none (lined_glued _) fun p hp => ?_
    obtain ⟨t, ht, rfl⟩ := mem_map.mp hp
    rw [mem_append, mem_cons, mem_cons] at ht
    rcases ht with ht | rfl | rfl | ht
    · exact (hleadSettled t ht).1.2.2
    · exact m.name.isSettled.2.2
    · decide
    · exact (isSettled_parameters ArrayParameter.shownTokens_subset ht).2.2
  have hspaces : ∀ w ∈ ['('] :: (parameterWords ps ++ [[')']]), ' ' ∉ w := by
    intro w hw
    simp only [mem_cons, mem_append, not_mem_nil, or_false] at hw
    rcases hw with rfl | hw | rfl
    · decide
    · rcases of_mem_parameterWords hw with rfl | hw
      · decide
      · exact hw.space_notMem
    · decide
  have hcompact :
      (m.name.text ++ (tokenText (['('] :: (parameterWords ps ++ [[')']]))).dropLast).filter
      (· ≠ ' ') = m.name.text ++ '(' ::
        (joinWith [','] (ps.map ArrayParameter.shownText) ++ [')']) := by
    grind [filter_word hname, filter_dropLast_tokenText, filter_words hspaces,
      flatten_parameterWords]
  rw [ofDeclaration_of_reduce hreduce hlast, hdeclared, hcompact,
    takeWhile_append_of_pos (ne_paren_of_mem_word hname),
    dropWhile_append_of_pos (ne_paren_of_mem_word hname)]
  simp

theorem ArrayParameter.shownText_base (p : Parameter) :
    ArrayParameter.shownText { base := p } = p.typeText := by
  simp [shownText, words, dimensionText]

/-- **The key of a method.** -/
theorem Method.ofDeclaration (m : Method) (owner : QualifiedName) (hspells : Spells pieces m.items)
    (hunclung : Unclung pieces) :
    SignatureKey.ofDeclaration owner.text (spelling pieces) = .ok {
      owner := owner.name.text, member := m.name.text
      arguments := '(' :: (joinWith [','] (m.parameters.map Parameter.typeText) ++ [')']) } := by
  rw [m.ofDeclaration_itemsWith _ owner (m.items_eq ▸ hspells) hunclung, map_map]
  simp only [Function.comp_def, ArrayParameter.shownText_base]

/-! ### Array dimensions behind names -/

theorem ArrayParameter.comma_notMem_shownText (p : ArrayParameter) : ',' ∉ p.shownText := by
  have htype := p.base.type.name.name.isName.notMem (c := ',') (by decide)
  have hname := p.base.name.isName.notMem (c := ',') (by decide)
  unfold shownText words
  split_ifs <;> simp [Parameter.typeText, dimensionText, htype, hname]

/-- What is left of a parameter in a key is its type with all dimensions, unless there are two or
more of them behind the name: then the name is left too. -/
theorem ArrayParameter.shownText_eq_iff (p : ArrayParameter) :
    p.shownText = p.leading.typeText ↔ p.trailing ≤ 1 := by
  have hleading : p.leading.typeText = p.base.typeText ++ dimensionText p.trailing := by
    have hnumber : p.base.type.dimensions + p.trailing + p.base.variadic.toNat =
        p.base.type.dimensions + p.base.variadic.toNat + p.trailing := by omega
    simp [leading, Parameter.typeText, hnumber, dimensionText_add]
  unfold shownText words
  split_ifs with h
  · simp [hleading, h]
  · simp [hleading, h, p.base.name.isName.ne_nil]

/-- **Array dimensions behind the names of parameters.** A method whose parameters have any numbers
of array dimensions behind their names has the key it has with all of them behind the types if and
only if there is at most one behind each name. -/
theorem Method.ofDeclaration_trailing_iff (m : Method) (ps : List ArrayParameter)
    (owner : QualifiedName) {pieces pieces' : List Piece}
    (hspells : Spells pieces (m.itemsWith ps)) (hunclung : Unclung pieces)
    (hspells' : Spells pieces' (items { m with parameters := ps.map ArrayParameter.leading }))
    (hunclung' : Unclung pieces') :
    ∃ key, SignatureKey.ofDeclaration owner.text (spelling pieces') = .ok key ∧
      (SignatureKey.ofDeclaration owner.text (spelling pieces) = .ok key ↔
        ∀ p ∈ ps, p.trailing ≤ 1) := by
  refine ⟨_, Method.ofDeclaration _ owner hspells' hunclung', ?_⟩
  rw [m.ofDeclaration_itemsWith ps owner hspells hunclung]
  have hshown : ps.map ArrayParameter.shownText =
      (ps.map ArrayParameter.leading).map Parameter.typeText ↔ ∀ p ∈ ps, p.trailing ≤ 1 := by
    rw [map_map, map_inj_left]
    exact forall₂_congr fun p _ => p.shownText_eq_iff
  rw [← hshown]
  constructor
  · intro h
    simp only [Except.ok.injEq, SignatureKey.mk.injEq, cons.injEq, append_cancel_right_eq, true_and,
      and_true] at h
    -- No type has a comma, so the types can be read off the arguments.
    refine eq_of_joinWith_eq ?_ ?_ (by simp) h
    · intro t ht
      obtain ⟨p, -, rfl⟩ := mem_map.mp ht
      exact p.comma_notMem_shownText
    · intro t ht
      obtain ⟨p, -, rfl⟩ := mem_map.mp ht
      exact ArrayParameter.shownText_base p ▸ ArrayParameter.comma_notMem_shownText _
  · intro h
    rw [h]

/-! ### All declarations -/

/-- The key of a spelling is that of the declaration. -/
theorem ofDeclaration_spelling (d : Declaration) (owner : QualifiedName)
    (hspells : Spells pieces d.items) (hunclung : Unclung pieces) :
    SignatureKey.ofDeclaration owner.text (spelling pieces) = .ok (d.key owner.name.text) := by
  cases d with
  | method m => exact m.ofDeclaration owner hspells hunclung
  | field f => exact f.ofDeclaration owner hspells hunclung
  | type h => exact h.ofDeclaration owner hspells hunclung

/-- The parameter types in the key of a method are those of its parameters. -/
theorem parameterTypes_key (d : Declaration) (owner : Text) :
    (d.key owner).parameterTypes = d.parameterTypes := by
  cases d with
  | method m =>
    have hcomma : ∀ t ∈ m.parameters.map Parameter.typeText, ',' ∉ t := by
      intro t ht
      obtain ⟨p, -, rfl⟩ := mem_map.mp ht
      exact ArrayParameter.shownText_base p ▸ ArrayParameter.comma_notMem_shownText _
    have hne : ∀ t ∈ m.parameters.map Parameter.typeText, t ≠ [] := by
      intro t ht
      obtain ⟨p, -, rfl⟩ := mem_map.mp ht
      simp [Parameter.typeText, p.type.name.name.isName.ne_nil]
    have hinner : ∀ s : Text, (('(' :: (s ++ [')'])).drop 1).dropLast = s := by simp
    simp only [key, SignatureKey.parameterTypes, parameterTypes, hinner, if_neg (cons_ne_nil _ _)]
    cases hps : m.parameters.map Parameter.typeText with
    | nil => rfl
    | cons t ts =>
      rw [hps] at hcomma hne
      have hjoin : joinWith [','] (t :: ts) ≠ [] := by
        cases ts with
        | nil => exact hne t mem_cons_self
        | cons u ts => simp [joinWith, hne t mem_cons_self]
      rw [if_neg hjoin, fields_joinWith hcomma]
  | field f => rfl
  | type h => rfl

/-- **The key of a declaration.** Every spelling of a declaration, met in a class with any name, has
the key of the declaration in the class with its simple name, and the types in that key are those of
its parameters. -/
theorem spelling_key (d : Declaration) (owner : QualifiedName) {pieces : List Piece}
    (hspells : Spells pieces d.items) (hunclung : Unclung pieces) :
    ∃ key, SignatureKey.ofDeclaration owner.text (spelling pieces) = .ok key ∧
      key = d.key owner.name.text ∧ key.parameterTypes = d.parameterTypes :=
  ⟨_, ofDeclaration_spelling d owner hspells hunclung, rfl, parameterTypes_key d _⟩

/-! ### Names of samples -/

namespace Name

def lowerA : Name := .ofText "a".toList (by decide)

def lowerM : Name := .ofText "m".toList (by decide)

def lowerP : Name := .ofText "p".toList (by decide)

def lowerX : Name := .ofText "x".toList (by decide)

def upperA : Name := .ofText "A".toList (by decide)

def upperB : Name := .ofText "B".toList (by decide)

def upperC : Name := .ofText "C".toList (by decide)

def upperX : Name := .ofText "X".toList (by decide)

def typeInt : Name := .ofText "int".toList (by decide)

def typeVoid : Name := .ofText "void".toList (by decide)

end Name

/-- The modifier `public` of samples. -/
def publicModifier : Modifier :=
  .word "public".toList (by decide)

section Samples

/-- The method `@a.m((a)) public <a extends int<? super a[]>> m(final a.m<int>[] ... a, int a)`. -/
private def sampleMethod : Method where
  modifiers := [.annotationUse {
      name := ⟨[.lowerA], .lowerM⟩, gap := ['\n'], blank := by simp [gapCharacters]
      arguments := some ⟨⟨[], by simp, by simp⟩,
        [(⟨['a'], by simp, by simp⟩, ⟨[], by simp, by simp⟩)]⟩
      gap_eq_nil := by simp },
    publicModifier]
  typeParameters :=
    some (.cons (.name Name.lowerA.unqualified) rfl
      (.cons (.keyword "extends".toList extends_mem_keywords) (by decide)
        (.cons (.name Name.typeInt.unqualified) rfl
          (.group
            (.cons (.mark .wildcard) rfl
              (.cons (.keyword "super".toList (by decide)) (by decide)
                (.cons (.name Name.lowerA.unqualified) rfl (.cons (.mark .dimension) rfl .nil))))
            .nil))))
  name := .lowerM
  parameters := [
    { isFinal := true
      type := ⟨⟨[.lowerA], .lowerM⟩, some (.cons (.name Name.typeInt.unqualified) rfl .nil), 1⟩
      variadic := true, name := .lowerA },
    { type := { name := Name.typeInt.unqualified }, name := .lowerA }]

/-- Items with a character of white space between any two of them. -/
private def spaced (c : Char) (mem : c ∈ gapCharacters) (items : List Item) : List Piece :=
  (items.map Piece.item).intersperse (.gap c mem)

theorem spelling_key_generic :
    Spells (spaced '\t' (by decide) sampleMethod.items) (Declaration.method sampleMethod).items ∧
      Unclung (spaced '\t' (by decide) sampleMethod.items) ∧
      ∃ key, SignatureKey.ofDeclaration "a.m".toList
          (spelling (spaced '\t' (by decide) sampleMethod.items)) = .ok key ∧
        key = ⟨"m".toList, "m".toList, "(m[][],int)".toList, false⟩ ∧
        key.parameterTypes = some ["m[][]".toList, "int".toList] := by
  have hspells : Spells (spaced '\t' (by decide) sampleMethod.items) sampleMethod.items :=
    ⟨rfl, by decide⟩
  have hunclung : Unclung (spaced '\t' (by decide) sampleMethod.items) := by
    unfold Unclung
    decide
  exact ⟨hspells, hunclung, spelling_key (.method sampleMethod) ⟨[.lowerA], .lowerM⟩
    hspells hunclung⟩

/-- The method `void m(int[] a)`. -/
private def arrayMethod : Method where
  returnType := some { name := Name.typeVoid.unqualified }
  name := .lowerM
  parameters := [{ type := { name := Name.typeInt.unqualified, dimensions := 1 }, name := .lowerA }]

/-- The method `void m(int[] a)` with no white space behind the brackets. -/
private def clungPieces : List Piece :=
  match arrayMethod.items with
  | [] => []
  | first :: rest => .item first :: .space :: rest.map .item

/-- A parameter name right behind an array dimension is kept in the key. -/
theorem spelling_key_clung :
    Spells clungPieces (Declaration.method arrayMethod).items ∧
      spelling clungPieces = "void m(int[]a)".toList ∧
      (Declaration.method arrayMethod).key "A".toList =
        ⟨"A".toList, "m".toList, "(int[])".toList, false⟩ ∧
      SignatureKey.ofDeclaration "A".toList (spelling clungPieces) =
        .ok ⟨"A".toList, "m".toList, "(int[]a)".toList, false⟩ :=
  ⟨⟨rfl, by decide⟩, rfl, rfl, by decide +kernel⟩

/-- The method `void m(int a[], int[] ... a, m[] a[])` without its parameters. -/
private def trailingMethod : Method :=
  { arrayMethod with parameters := [] }

/-- The parameters of that method. -/
private def trailingParameters : List ArrayParameter := [
  { base := { type := { name := Name.typeInt.unqualified }, name := .lowerA }, trailing := 1 },
  { base :=
      { type := { name := Name.typeInt.unqualified, dimensions := 1 }
        variadic := true, name := .lowerA } },
  { base := { type := { name := Name.lowerM.unqualified, dimensions := 1 }, name := .lowerA }
    trailing := 1 }]

/-- That method, spelled with tabulators. -/
private def trailingPieces : List Piece :=
  spaced '\t' (by decide) (trailingMethod.itemsWith trailingParameters)

/-- The same method with all dimensions behind the types, spelled with spaces. -/
private def leadingPieces : List Piece :=
  spaced ' ' (by decide) (Method.items
    { trailingMethod with parameters := trailingParameters.map ArrayParameter.leading })

theorem Method.ofDeclaration_trailing_mixed :
    Spells trailingPieces (trailingMethod.itemsWith trailingParameters) ∧ Unclung trailingPieces ∧
      Unclung leadingPieces ∧ ∃ key,
        SignatureKey.ofDeclaration "a.m".toList (spelling leadingPieces) = .ok key ∧
        SignatureKey.ofDeclaration "a.m".toList (spelling trailingPieces) = .ok key := by
  have hspells : Spells trailingPieces (trailingMethod.itemsWith trailingParameters) :=
    ⟨rfl, by decide⟩
  have hunclung : Unclung trailingPieces := by
    unfold Unclung
    decide
  have hspells' : Spells leadingPieces (items
      { trailingMethod with parameters := trailingParameters.map ArrayParameter.leading }) :=
    ⟨rfl, by decide⟩
  have hunclung' : Unclung leadingPieces := by
    unfold Unclung
    decide
  obtain ⟨key, hkey, hiff⟩ := Method.ofDeclaration_trailing_iff trailingMethod trailingParameters
    ⟨[.lowerA], .lowerM⟩ hspells hunclung hspells' hunclung'
  exact ⟨hspells, hunclung, hunclung', key, hkey, hiff.mpr (by decide)⟩

/-- With two array dimensions behind it, the name of a parameter is kept in the key. -/
theorem Method.ofDeclaration_trailing_two :
    SignatureKey.ofDeclaration "A".toList "void m(int[][] a)".toList =
        .ok ⟨"A".toList, "m".toList, "(int[][])".toList, false⟩ ∧
      SignatureKey.ofDeclaration "A".toList "void m(int a[][])".toList =
        .ok ⟨"A".toList, "m".toList, "(inta[][])".toList, false⟩ :=
  ⟨by decide +kernel, by decide +kernel⟩

end Samples

end DocGraft.Declaration
