import Mathlib
import DocGraft.Proofs.DeclarationRows

/-!
# Lines of tokens

The last steps of the reduction of a declaration rewrite a line of tokens with single spaces between
them: package names and `final` go away, array dimensions are attached to what stands before them,
and the names of parameters go away. Then the member with which the line ends is read.
-/

namespace DocGraft.Declaration

open List Text Signature

variable {c : Char} {line : List (Bool × Token)} {s w : Text} {t : Token}

/-! ### Single spaces -/

/-- Whether a token stands between spaces in any case. -/
def Token.isDelimiter : Token → Bool
  | mark m => m = .openParen ∨ m = .closeParen ∨ m = .comma
  | _ => false

/-- The text of tokens, each with a space before it if so marked, and with a space behind the
last. -/
def lineText : List (Bool × Token) → Text
  | [] => [' ']
  | (spaced, t) :: line => (if spaced then [' '] else []) ++ (t.text ++ lineText line)

/-- The tokens of a row with marks for those that have spaces before them; `spaced` tells whether
there is one before the row. -/
def lined (spaced : Bool) : List (Option Token) → List (Bool × Token)
  | [] => []
  | none :: row => lined true row
  | some t :: row => (spaced || t.isDelimiter, t) :: lined t.isDelimiter row

theorem map_snd_lined (spaced : Bool) (row : List (Option Token)) :
    (lined spaced row).map Prod.snd = row.reduceOption := by
  induction row generalizing spaced with
  | nil => rfl
  | cons p row ih =>
    cases p with
    | none => exact ih true
    | some t => simp [lined, ih]

/-- The row has only tokens that are left once type arguments and variable arity are gone. -/
def Token.isPlain (t : Token) : Bool :=
  !t.isEllipsis && (!t.isLoose || t.isDelimiter)

/-- A token that has no space before it is an array dimension. -/
theorem eq_dimension_of_mem_lined {row : List (Option Token)} {spaced : Bool} {p : Option Token}
    (hchain : (p :: row).IsChain CellsAdjoin)
    (hspaced : spaced = false → ∃ u, p = some u ∧ u.isLoose = false)
    (hplain : ∀ t ∈ row.reduceOption, t.isPlain) (ht : (false, t) ∈ lined spaced row) :
    t = .mark .dimension := by
  induction row generalizing spaced p with
  | nil => simp [lined] at ht
  | cons q row ih =>
    cases q with
    | none =>
      exact ih hchain.tail (by simp) hplain ht
    | some v =>
      have hv : v.isPlain := hplain v (by simp)
      rw [lined, mem_cons] at ht
      rcases ht with ht | ht
      · obtain ⟨hfalse, rfl⟩ := Prod.mk.inj ht
        have hboth : spaced = false ∧ t.isDelimiter = false := by simpa using hfalse.symm
        obtain ⟨u, rfl, hu⟩ := hspaced hboth.1
        have hadjoin : t.isLoose ∨ t.isSuffix :=
          Or.resolve_left (isChain_cons_cons.mp hchain).1 (by simp [hu])
        cases t with
        | mark m =>
          cases m with
          | dimension => rfl
          | openParen | closeParen | comma => exact absurd hboth.2 (by decide)
          | openAngle | closeAngle | wildcard | ampersand | ellipsis => exact absurd hv (by decide)
        | name | arrayName | keyword => rcases hadjoin with h | h <;> cases h
      · refine ih hchain.tail (fun hd => ⟨v, rfl, ?_⟩) (fun u hu => hplain u (by simp [hu])) ht
        have hboth : v.isEllipsis = false ∧ v.isLoose =
            false := by simpa [Token.isPlain, hd] using hv
        exact hboth.2

theorem spaceDelimiters_token (h : t.isDelimiter = false) : spaceDelimiters t.text = t.text := by
  have hmarks : ∀ c ∈ ['(', ')', ','], c ∉ t.marks := by
    cases t with
    | mark m => cases m <;> simp_all [Token.marks, Mark.text, Token.isDelimiter]
    | name | arrayName | keyword => simp [Token.marks]
  exact spaceDelimiters_of_notMem (Token.notMem (by decide) (hmarks _ (by simp)))
    (Token.notMem (by decide) (hmarks _ (by simp))) (Token.notMem (by decide) (hmarks _ (by simp)))

theorem spaceDelimiters_delimiter (h : t.isDelimiter) :
    ∃ c, t.text = [c] ∧ c ≠ ' ' ∧ spaceDelimiters t.text = [' ', c, ' '] := by
  cases t with
  | mark m =>
    cases m with
    | openParen => exact ⟨'(', rfl, by decide, rfl⟩
    | closeParen => exact ⟨')', rfl, by decide, rfl⟩
    | comma => exact ⟨',', rfl, by decide, rfl⟩
    | openAngle | closeAngle | wildcard | ampersand | dimension | ellipsis => cases h
  | name | arrayName | keyword => cases h

/-- Runs of spaces become single spaces, and delimiters stand between spaces. -/
theorem squeezeSpacesFrom_rowText (row : List (Option Token)) (spaced : Bool) :
    (if spaced then [' '] else []) ++ squeezeSpacesFrom spaced
      (spaceDelimiters (rowText row ++ [' '])) =
      lineText (lined spaced row) := by
  induction row generalizing spaced with
  | nil => cases spaced <;> rfl
  | cons p row ih =>
    cases p with
    | none =>
      rw [lined, ← ih true, rowText_cons_none, cons_append, spaceDelimiters_cons]
      cases spaced <;> rfl
    | some t =>
      rw [lined, lineText, ← ih, rowText_cons_some, append_assoc, spaceDelimiters_append]
      cases ht : t.isDelimiter with
      | false =>
        rw [spaceDelimiters_token ht, squeezeSpacesFrom_append t.text_ne_nil t.space_notMem]
        simp
      | true =>
        obtain ⟨c, htext, hc, hspaced⟩ := spaceDelimiters_delimiter ht
        rw [hspaced, htext]
        cases spaced <;> simp [squeezeSpacesFrom, hc]

/-- **Spaces become single spaces.** -/
theorem squeezeSpaces_rowText (row : List (Option Token)) :
    squeezeSpaces (spaceDelimiters (' ' :: (rowText row ++ [' ']))) =
      lineText (lined true row) := by
  rw [← squeezeSpacesFrom_rowText, squeezeSpaces, spaceDelimiters_cons]
  rfl

/-! ### Package names -/

/-- Only array dimensions have no space before them. -/
def Lined (line : List (Bool × Token)) : Prop :=
  ∀ t, (false, t) ∈ line → t = .mark .dimension

theorem Lined.tail {p : Bool × Token} (h : Lined (p :: line)) : Lined line :=
  fun t ht => h t (mem_cons_of_mem _ ht)

/-- Behind a token there is a space or an array dimension. -/
theorem Lined.exists_cons (h : Lined line) :
    ∃ c s, lineText line = c :: s ∧ (c = ' ' ∨ c = '[') := by
  cases line with
  | nil => exact ⟨' ', [], rfl, .inl rfl⟩
  | cons p line =>
    obtain ⟨spaced, t⟩ := p
    cases spaced with
    | true => exact ⟨' ', _, rfl, .inl rfl⟩
    | false =>
      obtain rfl := h t mem_cons_self
      exact ⟨'[', _, rfl, .inr rfl⟩

theorem Lined.head (h : Lined line) : ∀ c ∈ (lineText line).head?, isWord c = false ∧ c ≠ '.' := by
  obtain ⟨c, s, htext, hc⟩ := h.exists_cons
  rw [htext]
  rintro d hd
  obtain rfl : c = d := by simpa using hd
  rcases hc with rfl | rfl <;> decide

/-- A token of a line is read up to the next space. -/
theorem eq_text_of_append {r : Text} (hline : Lined line) (hspace : ' ' ∉ w) (hbracket : '[' ∉ w)
    (h : w ++ ' ' :: r = t.text ++ lineText line) : t.text = w := by
  obtain ⟨d, s, htext, hd⟩ := hline.exists_cons
  rcases append_eq_append_iff.mp h with ⟨a, ha, ha'⟩ | ⟨a, ha, ha'⟩
  · cases a with
    | nil => simpa using ha
    | cons e a =>
      obtain rfl := (List.cons.inj ha').1
      exact absurd (ha ▸ by simp) t.space_notMem
  · cases a with
    | nil => simpa using ha.symm
    | cons e a =>
      have he : e ∈ w := by
        rw [ha]
        simp
      rw [htext] at ha'
      obtain rfl := (List.cons.inj ha').1
      rcases hd with rfl | rfl
      · exact absurd he hspace
      · exact absurd he hbracket

/-- A token without its package. -/
def Token.simple : Token → Token
  | name q => name q.name.unqualified
  | t => t

theorem qualifierLengthFrom_word (hw : ∀ c ∈ w, isWord c) (hne : w ≠ []) (n best : Nat)
    (named : Bool) (s : Text) :
    qualifierLengthFrom n best named (w ++ s) = qualifierLengthFrom (n + w.length) best true s := by
  induction w generalizing n named with
  | nil => exact absurd rfl hne
  | cons c w ih =>
    obtain ⟨hc, hw⟩ := forall_mem_cons.mp hw
    rw [cons_append, qualifierLengthFrom, if_pos hc]
    cases w with
    | nil => rfl
    | cons d w =>
      rw [ih hw (by simp)]
      simp only [length_cons]
      congr 1
      omega

theorem qualifierLengthFrom_end (hs : ∀ c ∈ s.head?, isWord c = false ∧ c ≠ '.') (n best : Nat)
    (named : Bool) : qualifierLengthFrom n best named s = best := by
  cases s with
  | nil => rfl
  | cons c s =>
    obtain ⟨hword, hdot⟩ := hs c rfl
    simp [qualifierLengthFrom, hword, hdot]

/-- The package of a qualified name. -/
theorem qualifierLength_name (q : QualifiedName) (hs : ∀ c ∈ s.head?, isWord c = false ∧ c ≠ '.') :
    qualifierLength (q.text ++ s) = (q.qualifiers.flatMap fun n => n.text ++ ['.']).length := by
  have hfrom : ∀ (qualifiers : List Name) (n : Nat),
      qualifierLengthFrom n n false (QualifiedName.text ⟨qualifiers, q.name⟩ ++ s) =
        n + (qualifiers.flatMap fun n => n.text ++ ['.']).length := by
    intro qualifiers
    induction qualifiers with
    | nil =>
      intro n
      simp [QualifiedName.text, qualifierLengthFrom_word q.name.isName.all q.name.isName.ne_nil,
        qualifierLengthFrom_end hs]
    | cons m qualifiers ih =>
      intro n
      have htext : QualifiedName.text ⟨m :: qualifiers, q.name⟩ ++ s =
          m.text ++ '.' :: (QualifiedName.text ⟨qualifiers, q.name⟩ ++ s) := by
        simp [QualifiedName.text]
      have hdot : isWord '.' = false := by decide
      rw [htext, qualifierLengthFrom_word m.isName.all m.isName.ne_nil, qualifierLengthFrom, hdot]
      grind
  have h := hfrom q.qualifiers 0
  rwa [Nat.zero_add] at h

theorem qualifierLength_of_notMem (hdot : '.' ∉ w)
    (hs : ∀ c ∈ s.head?, isWord c = false ∧ c ≠ '.') : qualifierLength (w ++ s) = 0 := by
  have hfrom : ∀ (w : Text), '.' ∉ w → ∀ n named, qualifierLengthFrom n 0 named (w ++ s) = 0 := by
    intro w
    induction w with
    | nil => exact fun _ n named => qualifierLengthFrom_end hs n 0 named
    | cons c w ih =>
      intro hdot n named
      rw [mem_cons, not_or] at hdot
      grind [qualifierLengthFrom]
  exact hfrom w hdot 0 false

theorem qualifierRule_of_ne (hc : c ≠ ' ') (before : Option Char) (s : Text) :
    qualifierRule before (c :: s) = none := by
  unfold qualifierRule
  grind

theorem qualifierRule_space (h : qualifierLength s = 0) (before : Option Char) :
    qualifierRule before (' ' :: s) = none := by
  simp [qualifierRule, h]

theorem Token.text_simple (t : Token) : ∃ w, t.text = w ++ t.simple.text ∧
    ∀ s : Text, (∀ c ∈ s.head?, isWord c = false ∧ c ≠ '.') → t.isEllipsis = false →
      qualifierLength (t.text ++ s) = w.length := by
  cases t with
  | name q =>
    refine ⟨q.qualifiers.flatMap fun n => n.text ++ ['.'], by simp [text, simple,
      QualifiedName.text, Name.unqualified], ?_⟩
    exact fun s hs _ => qualifierLength_name q hs
  | arrayName n =>
    exact ⟨[], rfl, fun s hs _ => qualifierLength_of_notMem (notMem (by decide) (by simp [marks]))
      hs⟩
  | keyword word mem =>
    exact ⟨[], rfl, fun s hs _ => qualifierLength_of_notMem (notMem (by decide) (by simp [marks]))
      hs⟩
  | mark m =>
    refine ⟨[], rfl, fun s hs hm => qualifierLength_of_notMem ?_ hs⟩
    cases m <;> simp_all [text, Mark.text, isEllipsis]

/-- **Package names go away.** -/
theorem substituteFrom_qualifierRule (hline : Lined line)
    (hplain : ∀ p ∈ line, p.2.isEllipsis = false) (before : Option Char) :
    substituteFrom qualifierRule 0 before (lineText line) =
      lineText (line.map fun p => (p.1, p.2.simple)) := by
  induction line generalizing before with
  | nil =>
    exact substituteFrom_cons_of_none (qualifierRule_space rfl before)
  | cons p line ih =>
    obtain ⟨spaced, t⟩ := p
    have hpass : ∀ b, ∃ b', substituteFrom qualifierRule 0 b (t.simple.text ++ lineText line) =
        t.simple.text ++ substituteFrom qualifierRule 0 b' (lineText line) := fun b =>
      exists_substituteFrom_append (fun c hc => qualifierRule_of_ne fun h =>
        t.simple.space_notMem (h ▸ hc)) b _
    have hrest := ih hline.tail fun p hp => hplain p (mem_cons_of_mem _ hp)
    cases spaced with
    | false =>
      obtain rfl := hline t mem_cons_self
      obtain ⟨b', hb'⟩ := hpass before
      rw [map_cons, lineText, lineText, ← hrest b', ← hb']
      rfl
    | true =>
      obtain ⟨w, hw, hlength⟩ := t.text_simple
      have hn := hlength (lineText line) hline.tail.head (hplain _ mem_cons_self)
      have htext : lineText ((true, t) :: line) =
          (' ' :: w) ++ (t.simple.text ++ lineText line) := by
        simp [lineText, hw]
      have hspace : ∃ b, substituteFrom qualifierRule 0 before (lineText ((true, t) :: line)) =
          [' '] ++ substituteFrom qualifierRule 0 b (t.simple.text ++ lineText line) := by
        rw [htext]
        by_cases hnil : w = []
        · subst hnil
          rw [singleton_append, substituteFrom_cons_of_none]
          · exact ⟨some ' ', rfl⟩
          · exact qualifierRule_space (by simpa [hw] using hn) before
        · refine exists_substituteFrom_of_some (by simp) ?_
          rw [hw, append_assoc] at hn
          simp [qualifierRule, hn, hnil]
      obtain ⟨b, hb⟩ := hspace
      obtain ⟨b', hb'⟩ := hpass b
      rw [hb, hb', hrest b']
      rfl

/-! ### Parameters that do not change -/

/-- Whether a token is `final`. -/
def Token.isFinal : Token → Bool
  | keyword word _ => word = "final".toList
  | _ => false

/-- What is left of tokens, or of what has tokens, without `final`; what stands behind it is
kept. -/
def dropFinal {α : Type} (token : α → Token) : List α → List α
  | [] => []
  | [p] => if (token p).isFinal then [] else [p]
  | p :: q :: line =>
    if (token p).isFinal then q :: dropFinal token line else p :: dropFinal token (q :: line)

theorem Token.text_of_isFinal (h : t.isFinal) : t.text = "final".toList := by
  cases t with
  | keyword word mem => exact of_decide_eq_true h
  | name | arrayName | mark => cases h

theorem Token.isFinal_of_text (h : t.text = "final".toList) : t.isFinal := by
  have hreserved : "final".toList ∈ reservedWords := by decide
  obtain ⟨mem, rfl⟩ := Token.eq_keyword_of_text hreserved h
  rfl

/-- A token is kept by a replacement that begins with a space and not in front of the token. -/
theorem replace_lineText {p : Bool × Token} (old new : Text)
    (h : p.1 = true → ¬ old <+: p.2.text ++ lineText line) :
    replace (' ' :: old) new (lineText (p :: line)) =
      (if p.1 then [' '] else []) ++ (p.2.text ++ replace (' ' :: old) new (lineText line)) := by
  obtain ⟨spaced, t⟩ := p
  have htoken : replace (' ' :: old) new (t.text ++ lineText line) = _ :=
    replace_append_of_notMem t.space_notMem old new (lineText line)
  cases spaced with
  | false => exact htoken
  | true =>
    refine (replace_cons fun hstart => h rfl ?_).trans (congrArg (' ' :: ·) htoken)
    exact (cons_prefix_cons.mp hstart).2

/-- **`final` goes away.** -/
theorem replace_final (hline : Lined line)
    (hfinal : line.IsChain fun p q => p.2.isFinal → q.1 = true) :
    replace " final ".toList [' '] (lineText line) = lineText (dropFinal Prod.snd line) := by
  have hspaced : ∀ {p : Bool × Token} {line}, Lined (p :: line) → p.2.isFinal → p.1 = true := by
    rintro ⟨spaced, t⟩ line h ht
    cases spaced with
    | true => rfl
    | false =>
      obtain rfl := h t mem_cons_self
      cases ht
  -- A token that is not `final` is kept.
  have hkeep : ∀ (p : Bool × Token) line, Lined (p :: line) → p.2.isFinal = false →
      replace " final ".toList [' '] (lineText (p :: line)) = (if p.1 then [' '] else []) ++
        (p.2.text ++ replace " final ".toList [' '] (lineText line)) := by
    refine fun p line h hp => replace_lineText "final ".toList [' '] fun _ ⟨r, hr⟩ => ?_
    have htext : p.2.text = "final".toList := eq_text_of_append h.tail (by decide) (by decide) hr
    exact absurd (Token.isFinal_of_text htext) (by simp [hp])
  -- `final` goes away with the space behind it, so that what follows takes its place.
  have hdrop : ∀ (t : Token) s, t.isFinal → replace " final ".toList [' ']
      ([' '] ++ (t.text ++ ' ' :: s)) = [' '] ++ replace " final ".toList [' '] s := by
    intro t s ht
    rw [Token.text_of_isFinal ht]
    exact replace_append (by decide) [' '] s
  induction line using dropFinal.induct Prod.snd with
  | case1 => rfl
  | case2 p hp =>
    have htext : lineText [p] = [' '] ++ (p.2.text ++ [' ']) := by
      simp [lineText, hspaced hline hp]
    rw [dropFinal, if_pos hp, htext, hdrop p.2 [] hp]
    rfl
  | case3 p hp =>
    rw [dropFinal, if_neg hp, hkeep p [] hline (by simpa using hp)]
    rfl
  | case4 p q line hp ih =>
    have hq : q.1 = true := (isChain_cons_cons.mp hfinal).1 hp
    have htext : lineText (p :: q :: line) =
        [' '] ++ (p.2.text ++ ' ' :: (q.2.text ++ lineText line)) := by
      simp [lineText, hspaced hline hp, hq]
    rw [dropFinal, if_pos hp, htext, hdrop p.2 _ hp, lineText, if_pos hq,
      ← ih hline.tail.tail hfinal.tail.tail]
    exact congrArg ([' '] ++ ·) (replace_append_of_notMem q.2.space_notMem _ _ _)
  | case5 p q line hp ih =>
    rw [dropFinal, if_neg hp, hkeep p (q :: line) hline (by simpa using hp),
      ih hline.tail hfinal.tail]
    rfl

/-! ### Array dimensions -/

/-- Whether a token is an array dimension. -/
def Token.isDimension : Token → Bool
  | mark m => m = .dimension
  | _ => false

/-- The text of tokens with a space before each of them but array dimensions. -/
def gluedText (ts : List Token) : Text :=
  ts.flatMap (fun t => if t.isDimension then t.text else ' ' :: t.text) ++ [' ']

theorem Token.eq_of_isDimension (h : t.isDimension) : t = .mark .dimension := by
  cases t with
  | mark m => rw [show m = .dimension from of_decide_eq_true h]
  | name | arrayName | keyword => cases h

theorem Token.text_of_not_isDimension (h : t.isDimension = false) (s : Text) :
    ¬ ['[', ']'] <+: t.text ++ s := by
  obtain ⟨c, r, hcs, hc⟩ := t.exists_cons
  have hne : c ≠ '[' := by
    rintro rfl
    rcases hc with hc | hc | ⟨m, rfl⟩
    · exact absurd hc (by decide)
    · exact absurd hc (by decide)
    · cases m <;> first | exact absurd h (by decide) | exact absurd hcs (by simp [text, Mark.text])
  simp [hcs, Ne.symm hne]

/-- **Array dimensions are attached.** -/
theorem replace_dimension (hline : Lined line) :
    replace " []".toList "[]".toList (lineText line) = gluedText (line.map Prod.snd) := by
  induction line with
  | nil => rfl
  | cons p line ih =>
    have hglued : gluedText ((p :: line).map Prod.snd) =
        (if p.2.isDimension then p.2.text else ' ' :: p.2.text) ++
          gluedText (line.map Prod.snd) := by
      simp [gluedText]
    rw [hglued, ← ih hline.tail]
    obtain ⟨spaced, t⟩ := p
    cases ht : t.isDimension with
    | true =>
      obtain rfl := Token.eq_of_isDimension ht
      cases spaced with
      | true => exact replace_append (by decide) "[]".toList (lineText line)
      | false => exact replace_append_of_notMem (Token.space_notMem _) _ _ (lineText line)
    | false =>
      cases spaced with
      | true =>
        exact replace_lineText ['[', ']'] _ fun _ =>
          Token.text_of_not_isDimension ht (lineText line)
      | false =>
        obtain rfl := hline t mem_cons_self
        cases ht

/-! ### Names of parameters -/

/-- The text of tokens with a space before each of them but array dimensions. -/
def cells (ts : List Token) : Text :=
  ts.flatMap fun t => if t.isDimension then t.text else ' ' :: t.text

theorem gluedText_eq (ts : List Token) : gluedText ts = cells ts ++ [' '] := rfl

theorem cells_append (ts us : List Token) : cells (ts ++ us) = cells ts ++ cells us := by
  simp [cells]

theorem cells_cons (t : Token) (ts : List Token) :
    cells (t :: ts) = (if t.isDimension then t.text else ' ' :: t.text) ++ cells ts := rfl

theorem parameterNameRule_space (hw : ' ' ∉ w) (hc : c ≠ ',' ∧ c ≠ ')') (before : Option Char)
    (s : Text) : parameterNameRule before (' ' :: (w ++ ' ' :: c :: s)) = none := by
  have hrun : (w ++ ' ' :: c :: s).drop (run isWord (w ++ ' ' :: c :: s)) =
      w.dropWhile isWord ++ ' ' :: c :: s := by
    have hspace : isWord ' ' = false := by decide
    rw [drop_run, dropWhile_append]
    split_ifs with h
    · rw [List.isEmpty_iff.mp h, dropWhile_cons_of_neg (by simp [hspace]), nil_append]
    · rfl
  have hsuffix : ' ' ∉ w.dropWhile isWord := fun h => hw ((dropWhile_sublist _).subset h)
  simp only [parameterNameRule, hrun]
  split_ifs
  · rfl
  · split
    · next d r heq =>
      have hd := (eq_of_append_space (w := []) hsuffix (by simp) heq).2
      obtain rfl := (List.cons.inj hd).1
      exact if_neg (not_or.mpr hc)
    · next d r heq =>
      have hd := (eq_of_append_space (w := ['[', ']']) hsuffix (by decide) heq).2
      obtain rfl := (List.cons.inj hd).1
      exact if_neg (not_or.mpr hc)
    · rfl

theorem dimensionText_add (m n : Nat) :
    dimensionText (m + n) = dimensionText m ++ dimensionText n := by
  rw [dimensionText, replicate_add, List.flatten_append]
  rfl

theorem head_dimensionText (n : Nat) (s : Text) :
    ∀ d ∈ (dimensionText n ++ ' ' :: s).head?, isWord d = false := by
  cases n with
  | zero => exact ends_word (by decide) s
  | succ n => exact ends_word (by decide) _

/-- A parameter name goes away, and an array dimension behind it stays. -/
theorem parameterNameRule_name (hw : IsWord w) (hc : c = ',' ∨ c = ')') {n : Nat} (hn : n ≤ 1)
    (before : Option Char) (s : Text) :
    parameterNameRule before (' ' :: (w ++ (dimensionText n ++ [' ', c])) ++ s) =
      some (dimensionText n ++ [' ', c], (' ' :: (w ++ (dimensionText n ++ [' ', c]))).length) := by
  have htext : ' ' :: (w ++ (dimensionText n ++ [' ', c])) ++ s =
      ' ' :: (w ++ (dimensionText n ++ ' ' :: c :: s)) := by simp
  simp only [htext, parameterNameRule, run_append hw.all (head_dimensionText n _),
    length_eq_zero_iff, if_neg hw.ne_nil, drop_left]
  rcases Nat.le_one_iff_eq_zero_or_eq_one.mp hn with rfl | rfl <;> simp [dimensionText, hc]

/-- A name with more than one array dimension behind it is kept. -/
theorem parameterNameRule_dimensions (hw : IsWord w) (n : Nat) (before : Option Char) (s : Text) :
    parameterNameRule before (' ' :: (w ++ (dimensionText (n + 2) ++ s))) = none := by
  have hrun : run isWord (w ++ (dimensionText (n + 2) ++ s)) = w.length :=
    run_append hw.all (ends_word (by decide) _)
  simp only [parameterNameRule, hrun, length_eq_zero_iff, if_neg hw.ne_nil, drop_left]
  rfl

/-- The characters of tokens are kept. -/
theorem exists_substituteFrom_parameterNameRule (hw : ' ' ∉ w) (before : Option Char) (s : Text) :
    ∃ b, substituteFrom parameterNameRule 0 before (w ++ s) =
      w ++ substituteFrom parameterNameRule 0 b s :=
  exists_substituteFrom_append
    (fun _ hc => parameterNameRule_of_ne (by rintro rfl; exact hw hc)) before s

/-- Whether a token ends a parameter. -/
def Token.endsParameter : Token → Bool
  | mark m => m = .comma ∨ m = .closeParen
  | _ => false

theorem Token.exists_cons_of_not_endsParameter (h : t.endsParameter = false) :
    ∃ c s, t.text = c :: s ∧ c ≠ ',' ∧ c ≠ ')' := by
  obtain ⟨c, s, hcs, hc⟩ := t.exists_cons
  refine ⟨c, s, hcs, ?_⟩
  rcases hc with hc | rfl | ⟨m, rfl⟩
  · constructor <;> (rintro rfl; exact absurd hc (by decide))
  · decide
  · obtain rfl : c = m.text.headD ' ' := by rw [show m.text = c :: s from hcs]; rfl
    cases m with
    | comma | closeParen => exact absurd h (by decide)
    | openParen | openAngle | closeAngle | wildcard | ampersand | dimension | ellipsis => decide

theorem exists_substituteFrom_cells {ts : List Token} (h : ∀ t ∈ ts, t.endsParameter = false)
    (hc : c ≠ ',' ∧ c ≠ ')') (before : Option Char) (s : Text) :
    ∃ b, substituteFrom parameterNameRule 0 before (cells ts ++ ' ' :: c :: s) =
      cells ts ++ substituteFrom parameterNameRule 0 b (' ' :: c :: s) := by
  -- The token with the dimensions attached to it ends with the next space.
  have hnext : ∀ ts : List Token, (∀ t ∈ ts, t.endsParameter = false) → ∃ w d r, ' ' ∉ w ∧
      (d ≠ ',' ∧ d ≠ ')') ∧ cells ts ++ ' ' :: c :: s = w ++ ' ' :: d :: r := by
    intro ts
    induction ts with
    | nil => exact fun _ => ⟨[], c, s, by simp, hc, rfl⟩
    | cons t ts ih =>
      intro h
      obtain ⟨ht, hts⟩ := forall_mem_cons.mp h
      cases hdim : t.isDimension with
      | true =>
        obtain ⟨w, d, r, hw, hd, heq⟩ := ih hts
        exact ⟨t.text ++ w, d, r, by simp [hw, t.space_notMem], hd,
          by simp [cells_cons, hdim, heq]⟩
      | false =>
        obtain ⟨d, r, hd, hne⟩ := t.exists_cons_of_not_endsParameter ht
        exact ⟨[], d, r ++ (cells ts ++ ' ' :: c :: s), by simp,
          hne, by simp [cells_cons, hdim, hd]⟩
  induction ts generalizing before with
  | nil => exact ⟨before, rfl⟩
  | cons t ts ih =>
    obtain ⟨ht, hts⟩ := forall_mem_cons.mp h
    cases hdim : t.isDimension with
    | true =>
      obtain ⟨b, hb⟩ := exists_substituteFrom_parameterNameRule t.space_notMem before
        (cells ts ++ ' ' :: c :: s)
      obtain ⟨b', hb'⟩ := ih hts b
      refine ⟨b', ?_⟩
      simp [cells_cons, hdim, hb, hb']
    | false =>
      obtain ⟨w, d, r, hw, hd, heq⟩ := hnext ts hts
      have hnone : parameterNameRule before (' ' :: (t.text ++ (cells ts ++ ' ' :: c :: s))) =
          none := by
        rw [heq, ← append_assoc]
        exact parameterNameRule_space (by simp [hw, t.space_notMem]) hd before r
      obtain ⟨b, hb⟩ := exists_substituteFrom_parameterNameRule t.space_notMem (some ' ')
        (cells ts ++ ' ' :: c :: s)
      obtain ⟨b', hb'⟩ := ih hts b
      refine ⟨b', ?_⟩
      simp [cells_cons, hdim, substituteFrom_cons_of_none hnone, hb, hb']

/-! ### Parameters -/

theorem separated_cons_cons {α β : Type} (sep : α) (f : β → List α) (b c : β) (bs : List β) :
    separated sep f (b :: c :: bs) = f b ++ sep :: separated sep f (c :: bs) := rfl

/-- Lists with a separator between any two of them are related step by step: `E` relates what
begins with a separator or with the end, and `R` what begins with an element. -/
theorem separated_rel {α β γ : Type} {a : α} {d : γ} {f : β → List α} {g : β → List γ}
    {R E : List α → List γ → Prop} {s : List α} {t : List γ} (hnil : R s t) (hend : E s t)
    (hsep : ∀ {s t}, R s t → E (a :: s) (d :: t))
    (hitem : ∀ b {s t}, E s t → R (f b ++ s) (g b ++ t)) (bs : List β) :
    R (separated a f bs ++ s) (separated d g bs ++ t) := by
  induction bs with
  | nil => exact hnil
  | cons b bs ih =>
    cases bs with
    | nil => exact hitem b hend
    | cons c bs =>
      grind [separated_cons_cons]

/-- The tokens of parameters up to the closing parenthesis. -/
def parameterTokens (f : ArrayParameter → List Token) (ps : List ArrayParameter) : List Token :=
  separated (.mark .comma) f ps ++ [.mark .closeParen]

/-- The tokens of the type of a parameter in a key. -/
def Parameter.typeTokens (p : Parameter) : List Token :=
  .name p.type.name.name.unqualified ::
    List.replicate (p.type.dimensions + p.variadic.toNat) (.mark .dimension)

theorem cells_dimensions (n : Nat) :
    cells (List.replicate n (.mark .dimension)) = dimensionText n := by
  induction n with
  | zero => rfl
  | succ n ih =>
    rw [replicate_succ, cells_cons, ih, dimensionText, dimensionText, replicate_succ, flatten_cons]
    rfl

theorem Name.text_unqualified (n : Name) : n.unqualified.text = n.text := by
  simp [Name.unqualified, QualifiedName.text]

theorem Parameter.cells_typeTokens (p : Parameter) : cells p.typeTokens = ' ' :: p.typeText := by
  rw [typeTokens, cells_cons, cells_dimensions, if_neg (by simp [Token.isDimension]), Token.text,
    Name.text_unqualified]
  rfl

namespace ArrayParameter

/-- The name of a parameter and the dimensions behind it. -/
def nameTokens (p : ArrayParameter) : List Token :=
  .name p.base.name.unqualified :: List.replicate p.trailing (.mark .dimension)

/-- The type and the name of a parameter. -/
def plainTokens (p : ArrayParameter) : List Token :=
  p.base.typeTokens ++ p.nameTokens

/-- What is left of a parameter: its name goes away if there is at most one dimension behind it. -/
def shownTokens (p : ArrayParameter) : List Token :=
  p.base.typeTokens ++
    if p.trailing ≤ 1 then List.replicate p.trailing (.mark .dimension) else p.nameTokens

theorem cells_nameTokens (p : ArrayParameter) :
    cells p.nameTokens = ' ' :: (p.base.name.text ++ dimensionText p.trailing) := by
  rw [nameTokens, cells_cons, cells_dimensions, if_neg (by simp [Token.isDimension]), Token.text,
    Name.text_unqualified, cons_append]

/-- A parameter is reduced to what is left of it. -/
theorem exists_substituteFrom (p : ArrayParameter) (hc : c = ',' ∨ c = ')') (before : Option Char)
    (s : Text) :
    ∃ b, substituteFrom parameterNameRule 0 before (cells p.plainTokens ++ ' ' :: c :: s) =
      cells p.shownTokens ++ ' ' :: c :: substituteFrom parameterNameRule 0 b s := by
  have hname := p.base.name.isName.toIsWord
  obtain ⟨d, r, hd, hword⟩ := hname.exists_cons
  have hne : d ≠ ',' ∧ d ≠ ')' := by
    constructor <;> (rintro rfl; exact absurd hword (by decide))
  have htype : ∀ t ∈ p.base.typeTokens, t.endsParameter = false := by
    intro t ht
    rcases mem_cons.mp ht with rfl | ht
    · rfl
    · rw [eq_of_mem_replicate ht]
      decide
  obtain ⟨b, hb⟩ := exists_substituteFrom_cells htype hne before
    (r ++ (dimensionText p.trailing ++ ' ' :: c :: s))
  have htext : cells p.plainTokens ++ ' ' :: c :: s = cells p.base.typeTokens ++
      ' ' :: d :: (r ++ (dimensionText p.trailing ++ ' ' :: c :: s)) := by
    rw [plainTokens, cells_append, cells_nameTokens, hd]
    simp
  rw [htext, hb, shownTokens, cells_append]
  split_ifs with htrailing
  · obtain ⟨b', hb'⟩ := exists_substituteFrom_of_some (by simp)
      (parameterNameRule_name hname hc htrailing b s)
    have htext' : ' ' :: d :: (r ++ (dimensionText p.trailing ++ ' ' :: c :: s)) =
        ' ' :: (p.base.name.text ++ (dimensionText p.trailing ++ [' ', c])) ++ s := by
      simp [hd]
    exact ⟨b', by rw [htext', hb', cells_dimensions]; simp⟩
  · obtain ⟨n, hn⟩ : ∃ n, p.trailing = n + 2 := ⟨p.trailing - 2, by omega⟩
    have htext' : d :: (r ++ (dimensionText p.trailing ++ ' ' :: c :: s)) =
        (p.base.name.text ++ dimensionText p.trailing) ++ ' ' :: c :: s := by
      simp [hd]
    have hspace : ' ' ∉ p.base.name.text ++ dimensionText p.trailing := by
      simp [dimensionText, hname.notMem (c := ' ') (by decide)]
    have hnone := parameterNameRule_dimensions hname n b (' ' :: c :: s)
    rw [← hn, ← append_assoc] at hnone
    obtain ⟨b', hb'⟩ := exists_substituteFrom_parameterNameRule hspace (some ' ') (' ' :: c :: s)
    have hmark : isWord c = false ∧ c ≠ ' ' := by rcases hc with rfl | rfl <;> decide
    rw [htext', substituteFrom_cons_of_none hnone, hb',
      substituteFrom_cons_of_none (parameterNameRule_mark hmark.1 b' s),
      substituteFrom_cons_of_none (parameterNameRule_of_ne hmark.2 _ s), cells_nameTokens]
    exact ⟨some c, by simp⟩

end ArrayParameter

/-- **Parameters are reduced to their types.** -/
theorem substituteFrom_parameters (ps : List ArrayParameter) (before : Option Char) :
    substituteFrom parameterNameRule 0 before
        (gluedText (parameterTokens ArrayParameter.plainTokens ps)) =
      gluedText (parameterTokens ArrayParameter.shownTokens ps) := by
  have hmark : ∀ {m : Mark} {c : Char} (ts : List Token), m.text = [c] → m ≠ .dimension →
      gluedText (.mark m :: ts) = ' ' :: c :: gluedText ts := by
    intro m c ts hm hne
    simp [gluedText, Token.isDimension, Token.text, hm, hne]
  have happend : ∀ ts us : List Token, gluedText (ts ++ us) = cells ts ++ gluedText us := by
    intro ts us
    rw [gluedText_eq, cells_append, append_assoc, ← gluedText_eq]
  refine separated_rel
    (R := fun ts us => ∀ b, substituteFrom parameterNameRule 0 b (gluedText ts) = gluedText us)
    (E := fun ts us => ∃ c s s', (c = ',' ∨ c = ')') ∧ gluedText ts = ' ' :: c :: s ∧
      gluedText us = ' ' :: c :: s' ∧ ∀ b, substituteFrom parameterNameRule 0 b s = s')
    (fun _ => rfl) ⟨')', [' '], [' '], .inr rfl, rfl, rfl, fun _ => rfl⟩ ?_ ?_ ps before
  · intro ts us h
    exact ⟨',', _, _, .inl rfl, hmark ts rfl (by decide), hmark us rfl (by decide), h⟩
  · rintro p ts us ⟨c, s, s', hc, hts, hus, hs⟩ b
    obtain ⟨b', hb'⟩ := p.exists_substituteFrom hc b s
    rw [happend, happend, hts, hus, hb', hs]

/-! ### Reading a line of tokens -/

theorem lineText_append (line line' : List (Bool × Token)) :
    lineText (line ++ line') =
      (line.flatMap fun p => (if p.1 then [' '] else []) ++ p.2.text) ++ lineText line' := by
  induction line with
  | nil => rfl
  | cons p line ih => simp [lineText, ih]

theorem declaredType?_lineText {p : Bool × Token} (hline : Lined line) (hp : p.2.text ∉ typeWords) :
    declaredType? (lineText (p :: line)) = declaredType? (lineText line) := by
  have hnone : afterTypeKeyword? (p.2.text ++ lineText line) = none := by
    rw [afterTypeKeyword?, findSome?_eq_none_iff]
    intro keyword hmem
    by_contra hsome
    obtain ⟨rest, hrest⟩ := Option.ne_none_iff_exists'.mp hsome
    rw [after?_eq_some_iff, append_assoc, singleton_append] at hrest
    have hall : ∀ word ∈ typeWords, ' ' ∉ word ∧ '[' ∉ word := by decide
    have hword : keyword.toList ∈ typeWords := mem_map_of_mem hmem
    refine hp ?_
    rw [eq_text_of_append hline (hall _ hword).1 (hall _ hword).2 hrest.symm]
    exact hword
  obtain ⟨spaced, t⟩ := p
  cases spaced with
  | false => exact declaredType?_append t.space_notMem _
  | true =>
    change declaredType? (' ' :: (t.text ++ lineText line)) = _
    rw [declaredType?, if_pos rfl, hnone]
    simp [declaredType?_append t.space_notMem]

theorem declaredType?_lineText_eq_none (hline : Lined line) (h : ∀ p ∈ line, p.2.text ∉ typeWords) :
    declaredType? (lineText line) = none := by
  induction line with
  | nil => rfl
  | cons p line ih =>
    obtain ⟨hp, h⟩ := forall_mem_cons.mp h
    rw [declaredType?_lineText hline.tail hp, ih hline.tail h]

theorem lastMember?_append_of_some {t member : Text} (h : lastMember? t = some member) :
    lastMember? (s ++ t) = some member := by
  induction s with
  | nil => exact h
  | cons c s ih => rw [cons_append, lastMember?, ih, Option.some_or]

theorem lastMember?_name {name dims : Text} (hname : IsWord name)
    (hdims : dims = [] ∨ dims = ['[', ']']) :
    lastMember? (' ' :: (name ++ (dims ++ [' ']))) = some name := by
  have hdims' : ' ' ∉ dims ∧ (∀ c ∈ (dims ++ [' ']).head?, isWord c = false) ∧
      (dims ++ [' '] = [' '] ∨ dims ++ [' '] = "[] ".toList) := by
    rcases hdims with rfl | rfl
    · exact ⟨by simp, ends_word (by decide) [], .inl rfl⟩
    · exact ⟨by simp, ends_word (by decide) _, .inr rfl⟩
  have hrest : lastMember? (name ++ (dims ++ [' '])) = none := by
    rw [lastMember?_append (hname.notMem (by decide)), lastMember?_append hdims'.1]
    rfl
  have hmember : wholeMember? (name ++ (dims ++ [' '])) = some name := by
    rw [wholeMember?, takeWhile_word hname.all hdims'.2.1]
    simp only [drop_left]
    rw [if_neg hname.ne_nil, if_pos hdims'.2.2]
  rw [lastMember?, hrest, hmember, if_pos rfl, Option.none_or]

/-- A line of tokens with spaces before all but array dimensions. -/
def glued (ts : List Token) : List (Bool × Token) :=
  ts.map fun t => (!t.isDimension, t)

theorem lineText_glued (ts : List Token) : lineText (glued ts) = gluedText ts := by
  induction ts with
  | nil => rfl
  | cons t ts ih =>
    rw [gluedText_eq, cells_cons, append_assoc, ← gluedText_eq, ← ih]
    cases h : t.isDimension <;> simp [glued, lineText, h]

theorem lined_glued (ts : List Token) : Lined (glued ts) := by
  intro t ht
  obtain ⟨u, hu, heq⟩ := mem_map.mp ht
  obtain ⟨hdim, rfl⟩ := Prod.mk.inj heq
  exact Token.eq_of_isDimension (by simpa using hdim)

/-! ### Reading parameters -/

/-- The words that are left of a parameter. -/
def ArrayParameter.words (p : ArrayParameter) : List Text :=
  if p.trailing ≤ 1 then [p.base.typeText ++ dimensionText p.trailing]
  else [p.base.typeText, p.base.name.text ++ dimensionText p.trailing]

/-- The text that is left of a parameter in a key. -/
def ArrayParameter.shownText (p : ArrayParameter) : Text :=
  p.words.flatten

/-- The words that are left of parameters. -/
def parameterWords (ps : List ArrayParameter) : List Text :=
  separated [','] ArrayParameter.words ps

theorem gluedText_cons (ht : t.isDimension = false) (ts : List Token) :
    gluedText (t :: ts) = ' ' :: (t.text ++ gluedText ts) := by
  rw [gluedText_eq, cells_cons, ht]
  simp [gluedText_eq]

theorem gluedText_shownTokens (ps : List ArrayParameter) :
    gluedText (parameterTokens ArrayParameter.shownTokens ps) =
      tokenText (parameterWords ps ++ [[')']]) := by
  refine separated_rel (R := fun ts ws => gluedText ts = tokenText ws)
    (E := fun ts ws => gluedText ts = tokenText ws) rfl rfl (fun h => ?_) (fun p ts ws h => ?_) ps
  · rw [gluedText_cons rfl, h, tokenText_cons]
    rfl
  · have hcells : cells p.shownTokens = p.words.flatMap (' ' :: ·) := by
      unfold ArrayParameter.shownTokens ArrayParameter.words
      grind [cells_append, p.base.cells_typeTokens, cells_dimensions, p.cells_nameTokens]
    have htokens : ∀ us : List Text, tokenText (us ++ ws) = us.flatMap (' ' :: ·) ++
        tokenText ws := by
      intro us
      induction us with
      | nil => rfl
      | cons u us ih => rw [cons_append, tokenText_cons, ih]; simp
    rw [gluedText_eq, cells_append, append_assoc, ← gluedText_eq, h, hcells, htokens]

/-- A word with array dimensions. -/
def IsDimensioned (v : Text) : Prop :=
  ∃ name n, IsWord name ∧ v = name ++ dimensionText n

theorem IsDimensioned.space_notMem (h : IsDimensioned w) : ' ' ∉ w := by
  obtain ⟨name, n, hname, rfl⟩ := h
  simp [dimensionText, hname.notMem (c := ' ') (by decide)]

theorem of_mem_separated {α β : Type} {sep x : α} {f : β → List α} {bs : List β}
    (h : x ∈ separated sep f bs) : x = sep ∨ ∃ b ∈ bs, x ∈ f b := by
  induction bs with
  | nil => simp [separated] at h
  | cons b bs ih =>
    cases bs with
    | nil => exact .inr ⟨b, by simp, h⟩
    | cons c bs =>
      rw [separated_cons_cons, mem_append, mem_cons] at h
      rcases h with h | h | h
      · exact .inr ⟨b, by simp, h⟩
      · exact .inl h
      · grind

theorem of_mem_parameterWords {ps : List ArrayParameter} (h : w ∈ parameterWords ps) :
    w = [','] ∨ IsDimensioned w := by
  refine (of_mem_separated h).imp_right fun ⟨p, _, hw⟩ => ?_
  have htype : ∀ n, IsDimensioned (p.base.typeText ++ dimensionText n) := fun n =>
    ⟨_, _, p.base.type.name.name.isName.toIsWord,
      by rw [Parameter.typeText, append_assoc, ← dimensionText_add]⟩
  unfold ArrayParameter.words at hw
  split_ifs at hw
  · rw [mem_singleton.mp hw]
    exact htype _
  · rcases mem_pair.mp hw with rfl | rfl
    · simpa [dimensionText] using htype 0
    · exact ⟨_, _, p.base.name.isName.toIsWord, rfl⟩

/-- A word with array dimensions is no member before a word or a mark other than a parenthesis. -/
theorem wholeMember?_dimensioned (hw : IsWord w) (n : Nat) (hc : c ∉ ['(', ' ', '[', ']'])
    (s : Text) :
    wholeMember? (w ++ dimensionText n ++ ' ' :: c :: s) = none := by
  have hrest : startsWith " (".toList (dimensionText n ++ ' ' :: c :: s) = false := by
    cases n with
    | zero =>
      have hparen : '(' ≠ c := fun h => hc (by simp [← h])
      simp [dimensionText, startsWith, after?, hparen]
    | succ n => rfl
  have hmem : c ∈ dimensionText n ++ ' ' :: c :: s := by simp
  rw [append_assoc, wholeMember?, takeWhile_word hw.all (head_dimensionText n _)]
  grind

theorem lastMember?_words {ws : List Text} (h : ∀ w ∈ ws, w = [','] ∨ IsDimensioned w) :
    lastMember? (tokenText (ws ++ [[')']])) = none := by
  have hnext : ∀ ws : List Text, (∀ w ∈ ws, w = [','] ∨ IsDimensioned w) → ∃ d r,
      tokenText (ws ++ [[')']]) = ' ' :: d :: r ∧ d ∉ ['(', ' ', '[', ']'] := by
    intro ws h
    cases ws with
    | nil => exact ⟨')', [' '], rfl, by decide⟩
    | cons w ws =>
      rcases h w mem_cons_self with rfl | ⟨name, n, hname, rfl⟩
      · simp [tokenText_cons]
      · obtain ⟨d, r, rfl, hd⟩ := hname.exists_cons
        refine ⟨d, _, by rw [cons_append, tokenText_cons]; rfl, fun hmem => ?_⟩
        have hall : (['(', ' ', '[', ']'].all fun c => !isWord c) = true := by decide
        simpa [hd] using all_eq_true.mp hall d hmem
  have hmark : ∀ (c : Char) (ws : List Text), isWord c = false → c ≠ ' ' →
      lastMember? (tokenText ([c] :: ws)) = lastMember? (tokenText ws) := by
    intro c ws hc hspace
    rw [lastMember?_tokenText_cons (by simpa using Ne.symm hspace), singleton_append,
      wholeMember?_mark hc, Option.or_none]
  induction ws with
  | nil => exact hmark ')' [] (by decide) (by decide)
  | cons w ws ih =>
    obtain ⟨hw, htail⟩ := forall_mem_cons.mp h
    rcases hw with rfl | hw
    · exact (hmark ',' _ (by decide) (by decide)).trans (ih htail)
    · obtain ⟨d, r, hd, hne⟩ := hnext ws htail
      rw [cons_append, lastMember?_tokenText_cons hw.space_notMem, ih htail, hd]
      obtain ⟨name, n, hname, rfl⟩ := hw
      rw [wholeMember?_dimensioned hname n hne, Option.none_or]

theorem filter_tokenText (hw : ' ' ∉ w) (ws : List Text) :
    (tokenText (w :: ws)).filter (· ≠ ' ') = w ++ (tokenText ws).filter (· ≠ ' ') := by
  have hkeep : w.filter (· ≠ ' ') = w := by
    rw [filter_eq_self]
    intro c hc
    grind
  rw [tokenText_cons, filter_cons_of_neg (by simp), filter_append, hkeep]

theorem filter_words {ws : List Text} (h : ∀ w ∈ ws, ' ' ∉ w) :
    (tokenText ws).filter (· ≠ ' ') = ws.flatten := by
  induction ws with
  | nil => decide
  | cons w ws ih =>
    obtain ⟨hw, h⟩ := forall_mem_cons.mp h
    rw [filter_tokenText hw, ih h, flatten_cons]

theorem flatten_parameterWords (ps : List ArrayParameter) :
    (parameterWords ps).flatten = joinWith [','] (ps.map ArrayParameter.shownText) := by
  unfold parameterWords
  induction ps with
  | nil => rfl
  | cons p ps ih =>
    cases ps with
    | nil => rfl
    | cons q ps =>
      have hjoin : joinWith [','] ((p :: q :: ps).map ArrayParameter.shownText) =
          p.shownText ++ [','] ++ joinWith [','] ((q :: ps).map ArrayParameter.shownText) :=
        joinWith_cons _ _ (by simp)
      rw [separated_cons_cons, List.flatten_append, flatten_cons, ih, hjoin, append_assoc]
      rfl

theorem lastMember?_parameters {name : Text} (hname : IsWord name) (ps : List ArrayParameter) :
    lastMember? (tokenText (name :: ['('] :: (parameterWords ps ++ [[')']]))) =
      some (name ++ (tokenText (['('] :: (parameterWords ps ++ [[')']]))).dropLast) := by
  set words := parameterWords ps ++ [[')']] with hwords
  have hparen : '(' ∈ tokenText (['('] :: words) := by simp [tokenText]
  have hne : ∀ s : Text, s = [' '] ∨ s = "[] ".toList → '(' ∉ s := by
    rintro s (rfl | rfl) <;> decide
  have hstart : startsWith " (".toList (tokenText (['('] :: words)) = true :=
    startsWith_iff.mpr ⟨tokenText words, rfl⟩
  have hend : endsWith ") ".toList (tokenText (['('] :: words)) = true :=
    endsWith_iff.mpr ⟨tokenText (['('] :: parameterWords ps), by simp [tokenText, hwords]⟩
  have hmember : wholeMember? (name ++ tokenText (['('] :: words)) =
      some (name ++ (tokenText (['('] :: words)).dropLast) := by
    have htake : (name ++ tokenText (['('] :: words)).takeWhile isWord = name :=
      takeWhile_word hname.all (ends_word (by decide) _)
    rw [wholeMember?, htake]
    simp only [drop_left]
    rw [if_neg hname.ne_nil, if_neg fun h => hne _ h hparen, if_pos hstart, if_pos hend]
  rw [lastMember?_tokenText_cons (hname.notMem (by decide)),
    lastMember?_tokenText_cons (w := ['(']) (by decide), lastMember?_words fun _ =>
      of_mem_parameterWords,
    hmember, singleton_append, wholeMember?_mark (by decide)]
  rfl

end DocGraft.Declaration
