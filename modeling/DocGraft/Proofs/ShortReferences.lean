import DocGraft.Proofs.RelativeAddresses
import DocGraft.Proofs.TextRules

/-!
# References that leave out names

A page leaves names out of its references: a package that is never shown, its own package, and its
own class before a member. Each of them is left out by a rule that looks for the name in the text.
The rules apply where names begin, so what they do to a reference can be told name by name. The rule
for the own package also applies behind a dot, where the package is the end of a longer one.
-/

namespace DocGraft

open List Text Pattern Identifier

variable {c : Char} {rule : Rule} {s t : Text} {w : Identifier}

/-! ### Rules for names -/

/-- A rule that applies at the beginning of names only. -/
structure NameRule (rule : Rule) : Prop where
  within : ∀ c s, isJavaName c → rule (some c) s = none
  mark : ∀ before c s, isJavaName c = false → rule before (c :: s) = none

namespace NameRule

variable {rule : Rule} {before : Option Char} {names : List Identifier} {s : Text}

variable (h : NameRule rule)

include h

/-- A name at whose beginning the rule does not apply is kept. -/
theorem exists_name (w : Identifier) (hnone : rule before (w.text ++ s) = none) :
    ∃ b, substituteFrom rule 0 before (w.text ++ s) = w.text ++ substituteFrom rule 0 b s := by
  have hrest : ∀ (v : Text) (c : Char), isJavaName c → (∀ d ∈ v, isJavaName d) →
      ∃ b, substituteFrom rule 0 (some c) (v ++ s) = v ++ substituteFrom rule 0 b s := by
    intro v
    induction v with
    | nil => exact fun c _ _ => ⟨some c, rfl⟩
    | cons d v ih =>
      intro c hc hv
      obtain ⟨hd, hv⟩ := forall_mem_cons.mp hv
      obtain ⟨b, hb⟩ := ih d hd hv
      exact ⟨b, by rw [cons_append, substituteFrom_cons_of_none (h.within c _ hc), hb]; rfl⟩
  obtain ⟨c, v, hw, hc, hv⟩ := w.exists_cons
  obtain ⟨b, hb⟩ := hrest v c hc hv
  rw [hw, cons_append] at hnone ⊢
  exact ⟨b, by rw [substituteFrom_cons_of_none hnone, hb]; rfl⟩

theorem mark_cons {c : Char} (hc : isJavaName c = false) (before : Option Char) (s : Text) :
    substituteFrom rule 0 before (c :: s) = c :: substituteFrom rule 0 (some c) s :=
  substituteFrom_cons_of_none (h.mark before c s hc)

/-- A name of a chain at which the rule does not apply is kept. -/
theorem chain_cons (w : Identifier) (hnone : rule before (chain '.' (texts (w :: names)) s) =
    none) :
    substituteFrom rule 0 before (chain '.' (texts (w :: names)) s) =
      w.text ++ '.' :: substituteFrom rule 0 (some '.') (chain '.' (texts names) s) := by
  obtain ⟨b, hb⟩ := h.exists_name w (s := '.' :: chain '.' (texts names) s) hnone
  rw [h.mark_cons (by decide)] at hb
  exact hb

/-- A rule that does not apply behind dots changes nothing in a chain at whose beginning it does not
apply. -/
theorem substitute_chain (hdot : ∀ s, rule (some '.') s = none)
    (hs : ∀ before, rule before s = none → substituteFrom rule 0 before s = s)
    (hnone : rule none (chain '.' (texts names) s) = none) :
    substitute rule (chain '.' (texts names) s) = chain '.' (texts names) s := by
  have hinner : ∀ names : List Identifier, substituteFrom rule 0 (some '.')
      (chain '.' (texts names) s) = chain '.' (texts names) s := by
    intro names
    induction names with
    | nil => exact hs _ (hdot s)
    | cons w names ih =>
      rw [h.chain_cons w (hdot _), ih]
      rfl
  cases names with
  | nil => exact hs none hnone
  | cons w names =>
    rw [substitute, h.chain_cons w hnone, hinner]
    rfl

end NameRule

/-- A rule changes nothing in a text, whatever stands before it. -/
def Kept (rule : Rule) (s : Text) : Prop :=
  ∀ before, substituteFrom rule 0 before s = s

theorem kept_nil (rule : Rule) : Kept rule [] := fun _ => rfl

theorem Kept.mark (h : NameRule rule) (hc : isJavaName c = false) (hs : Kept rule s) :
    Kept rule (c :: s) := fun before => by
  rw [h.mark_cons hc, hs]

theorem Kept.marks (h : NameRule rule) {m : Text} (hm : ∀ c ∈ m, isJavaName c = false)
    (hs : Kept rule s) : Kept rule (m ++ s) := by
  induction m with
  | nil => exact hs
  | cons c m ih =>
    obtain ⟨hc, hm⟩ := forall_mem_cons.mp hm
    exact (ih hm).mark h hc

theorem Kept.name (h : NameRule rule) (w : Identifier)
    (hnone : ∀ before, rule before (w.text ++ s) = none) (hs : Kept rule s) :
    Kept rule (w.text ++ s) := fun before => by
  obtain ⟨b, hb⟩ := h.exists_name w (hnone before)
  rw [hb, hs b]

theorem Identifier.takeWhile_append (w : Identifier) (hs : ∀ c ∈ s.head?, isJavaName c = false) :
    (w.text ++ s).takeWhile isJavaName = w.text :=
  takeWhile_append_of_head w.all hs

/-- A text begins with one name. -/
theorem eq_of_append {v : Identifier} (hs : ∀ c ∈ s.head?, isJavaName c = false)
    (ht : ∀ c ∈ t.head?, isJavaName c = false) (h : v.text ++ s = w.text ++ t) : v = w ∧ s = t := by
  have htext : v.text = w.text := by rw [← v.takeWhile_append hs, h, w.takeWhile_append ht]
  rw [htext] at h
  exact ⟨ext_text htext, append_cancel_left h⟩

theorem Identifier.exists_capital (w : Identifier) (hw : w.isCapital) : ∃ c v, w.text = c :: v ∧
    ('A' ≤ c ∧ c ≤ 'Z') ∧ ∀ d ∈ v, isJavaName d := by
  obtain ⟨c, v, hd, -, hv⟩ := w.exists_cons
  rw [isCapital, hd] at hw
  exact ⟨c, v, hd, by simpa using hw, hv⟩

theorem Identifier.ne_of_capital (hw : w.isCapital = false) (hc : 'A' ≤ c ∧ c ≤ 'Z') :
    c :: s ≠ w.text ++ t := by
  intro h
  obtain ⟨d, v, hd, -⟩ := w.exists_cons
  rw [hd, cons_append, List.cons.injEq] at h
  rw [isCapital, hd, head?_cons, ← h.1] at hw
  simp [hc] at hw

theorem ends_name (hc : isJavaName c = false) (s : Text) :
    ∀ d ∈ (c :: s).head?, isJavaName d = false := by
  simpa using hc

/-- Two chains are equal if neither text goes on with a name of the other chain. -/
theorem eq_of_chain_eq {as bs : List Identifier} (hs : ∀ w ∈ bs, ∀ u, s ≠ w.text ++ '.' :: u)
    (ht : ∀ w ∈ as, ∀ u, t ≠ w.text ++ '.' :: u)
    (h : chain '.' (texts as) s = chain '.' (texts bs) t) : as = bs ∧ s = t := by
  induction as generalizing bs with
  | nil =>
    cases bs with
    | nil => exact ⟨rfl, h⟩
    | cons w bs => exact absurd h (hs w mem_cons_self _)
  | cons v as ih =>
    cases bs with
    | nil => exact absurd h.symm (ht v mem_cons_self _)
    | cons w bs =>
      obtain ⟨rfl, hrest⟩ := eq_of_append (ends_name (by decide) _) (ends_name (by decide) _) h
      obtain ⟨rfl, rfl⟩ := ih (fun w hw => hs w (mem_cons_of_mem v hw))
        (fun w hw => ht w (mem_cons_of_mem v hw)) (List.cons.inj hrest).2
      exact ⟨rfl, rfl⟩

/-! ### Leaving out a package -/

theorem after?_package {package : List Identifier} (hpackage : package ≠ []) {rest : Text} :
    after? (joinWith ['.'] (texts package) ++ ['.']) s = some rest ↔
      s = chain '.' (texts package) rest := by
  have hne : texts package ≠ [] := by simpa [texts] using hpackage
  simp [after?_eq_some_iff, ← joinWith_append_chain '.' hne]

/-- The rule that leaves out a package before a class. -/
def dropPackage (bound : Char → Bool) (package : List Identifier) : Rule :=
  packageRule bound (joinWith ['.'] (texts package))

/-- What is left of a package if the last segments are those of the package `package`. -/
def leave (package : List Identifier) : List Identifier → List Identifier
  | [] => []
  | w :: names => if w :: names = package then [] else w :: leave package names

section Package

variable {bound : Char → Bool} (hbound : ∀ c, isJavaName c → bound c) {package : List Identifier}
  (hpackage : package ≠ []) (hsmall : ∀ w ∈ package, w.isCapital = false) {before : Option Char}

include hpackage

include hbound in
theorem nameRule_packageRule :
    NameRule (dropPackage bound package) where
  within c s hc := by simp [dropPackage, packageRule, hbound c hc]
  mark before c s hc := by
    have hnone : after? (joinWith ['.'] (texts package) ++ ['.']) (c :: s) = none := by
      refine Option.eq_none_iff_forall_ne_some.mpr fun rest hrest => ?_
      rw [after?_package hpackage] at hrest
      obtain ⟨w, names, rfl⟩ := exists_cons_of_ne_nil hpackage
      exact w.head?_append hc _ (congrArg List.head? hrest).symm
    simp [dropPackage, packageRule, hnone]

theorem packageRule_eq_some {out : Text} {n : Nat}
    (h : dropPackage bound package before s = some (out, n)) :
    before.any bound = false ∧ ∃ c t, s = chain '.' (texts package) (c :: t) ∧
      ('A' ≤ c ∧ c ≤ 'Z') := by
  rw [dropPackage, packageRule] at h
  split_ifs at h with hbefore
  split at h
  · next c t hafter =>
    rw [after?_package hpackage] at hafter
    grind
  · cases h

include hsmall

/-- The package is not left out where another one stands before a class. -/
theorem packageRule_of_ne (hne : qualifiers ≠ package)
    (hqualifiers : ∀ w ∈ qualifiers, w.isCapital = false) (hw : w.isCapital) (before : Option Char)
    (s : Text) :
    dropPackage bound package before
      (chain '.' (texts qualifiers) (w.text ++ s)) = none := by
  refine Option.eq_none_iff_forall_ne_some.mpr fun place hplace => ?_
  obtain ⟨-, c, t, heq, hc⟩ := packageRule_eq_some hpackage hplace
  obtain ⟨d, v, hd, hcapital, -⟩ := w.exists_capital hw
  refine hne (eq_of_chain_eq (fun u hu x => ?_) (fun u hu x => ?_) heq).1
  · rw [hd]
    exact u.ne_of_capital (hsmall u hu) hcapital
  · exact u.ne_of_capital (hqualifiers u hu) hc

theorem packageRule_of_capital (hw : w.isCapital) (before : Option Char) (s : Text) :
    dropPackage bound package before (w.text ++ s) = none :=
  packageRule_of_ne hpackage hsmall hpackage.symm (by simp) hw before s

/-- The package is not left out at a name that no segment of a package can be. -/
theorem packageRule_of_unqualified (w : Identifier) (hs : ∀ c ∈ s.head?, isJavaName c = false)
    (hdots : ∀ u, s = '.' :: u → u.head? = some '.') (before : Option Char) :
    dropPackage bound package before (w.text ++ s) = none := by
  refine Option.eq_none_iff_forall_ne_some.mpr fun place hplace => ?_
  obtain ⟨-, c, t, heq, hc⟩ := packageRule_eq_some hpackage hplace
  obtain ⟨v, names, rfl⟩ := exists_cons_of_ne_nil hpackage
  obtain ⟨-, hrest⟩ := eq_of_append hs (ends_name (by decide) _) heq
  have hhead := hdots _ hrest
  cases names with
  | nil =>
    obtain rfl : c = '.' := by simpa [texts] using hhead
    exact absurd hc (by decide)
  | cons u names => exact u.head?_append (by decide) _ hhead

variable {w : Identifier} (hw : w.isCapital) {s : Text}

include hw

/-- The package is left out right before a class. -/
theorem substituteFrom_package (hbefore : before.any bound = false)
    (hs : Kept (dropPackage bound package) (w.text ++ s)) :
    substituteFrom (dropPackage bound package) 0 before
      (chain '.' (texts package) (w.text ++ s)) = w.text ++ s := by
  obtain ⟨c, v, hd, hc, -⟩ := w.exists_capital hw
  have hne : texts package ≠ [] := by simpa [texts] using hpackage
  have hnone : dropPackage bound package none (w.text ++ s) = none :=
    packageRule_of_capital hpackage hsmall hw none s
  have hrest := hs none
  have hsplit : chain '.' (texts package) (w.text ++ s) =
      chain '.' (texts package) [c] ++ (v ++ s) := by
    simp [← chain_append_text, hd]
  rw [hd, cons_append] at hnone hrest
  rw [substituteFrom_cons_of_none hnone, List.cons.injEq] at hrest
  have hrule : dropPackage bound package before (chain '.' (texts package) [c] ++ (v ++ s)) =
      some ([c], (chain '.' (texts package) [c]).length) := by
    rw [← chain_append_text, singleton_append, dropPackage, packageRule, hbefore,
      (after?_package hpackage).mpr rfl, ← joinWith_append_chain '.' hne]
    simp [hc]
  have hlast : (chain '.' (texts package) [c]).getLast? = some c := by
    rw [← joinWith_append_chain '.' hne]
    simp
  rw [hsplit, substituteFrom_of_some (chain_ne_nil '.' _ (by simp)) hrule, hlast, hrest.2, hd]
  rfl

variable {qualifiers : List Identifier} (hqualifiers : ∀ v ∈ qualifiers, v.isCapital = false)
  (hs : Kept (dropPackage bound package) (w.text ++ s))

include hqualifiers hs hbound

/-- The package of a page is left out at the end of every package that ends with it. -/
theorem substituteFrom_ownPackage (hdot : bound '.' = false) (hbefore : before.any bound = false) :
    substituteFrom (dropPackage bound package) 0 before
        (chain '.' (texts qualifiers) (w.text ++ s)) =
      chain '.' (texts (leave package qualifiers)) (w.text ++ s) := by
  induction qualifiers generalizing before with
  | nil => exact hs before
  | cons v qualifiers ih =>
    rw [leave]
    split_ifs with heq
    · rw [heq]
      exact substituteFrom_package hpackage hsmall hw hbefore hs
    · have hnone : dropPackage bound package before _ = none :=
        packageRule_of_ne hpackage hsmall heq hqualifiers hw before s
      rw [(nameRule_packageRule hbound hpackage).chain_cons v hnone,
        ih (fun u hu => hqualifiers u (mem_cons_of_mem v hu)) (by simpa using hdot)]
      rfl

/-- A package that must not follow a dot is left out only if it is the whole package. -/
theorem substitute_wholePackage (hdot : bound '.') :
    substitute (dropPackage bound package)
        (chain '.' (texts qualifiers) (w.text ++ s)) =
      chain '.' (texts (if qualifiers = package then [] else qualifiers)) (w.text ++ s) := by
  split_ifs with heq
  · rw [heq]
    exact substituteFrom_package hpackage hsmall hw rfl hs
  · exact (nameRule_packageRule hbound hpackage).substitute_chain (fun s => by
      simp [dropPackage, packageRule, hdot]) (fun before _ => hs before)
      (packageRule_of_ne hpackage hsmall heq hqualifiers hw none s)

end Package

/-! ### Leaving out a class -/

theorem nameRule_classRule (q : QualifiedClass) : NameRule (classRule q.classPath) where
  within c s hc := by simp [classRule, hc]
  mark before c s hc := by
    have hnone : startsWith (q.classPath ++ ['#']) (c :: s) = false := by
      rw [Bool.eq_false_iff, ne_eq, startsWith_iff, QualifiedClass.classPath, ← chain_append_text]
      rintro ⟨t, ht⟩
      obtain ⟨w, -, u, hu⟩ := exists_chain_texts q.outer q.name ['#']
      rw [hu, append_assoc] at ht
      exact w.head?_append hc _ (congrArg List.head? ht)
    simp [classRule, hnone]

theorem kept_classRule (path : Text) (hs : '#' ∉ s) : Kept (classRule path) s := by
  have hnone : Unmatched (classRule path) s := by
    intro before t ht
    have hstarts : startsWith (path ++ ['#']) t = false := by
      rw [Bool.eq_false_iff, ne_eq, startsWith_iff]
      exact fun hstart => hs (ht.subset (hstart.subset (by simp)))
    simp [classRule, hstarts]
  exact hnone.substituteFrom

/-- The class of a page is left out where nothing stands before it and a member behind it. -/
theorem substitute_ownClass (q : QualifiedClass) (names : List Identifier) (w : Identifier)
    (hs : '#' ∉ s) :
    substitute (classRule q.classPath) (chain '.' (texts names) (w.text ++ '#' :: s)) =
      if names = q.outer ∧ w = q.name then '#' :: s
      else chain '.' (texts names) (w.text ++ '#' :: s) := by
  have hrule := nameRule_classRule q
  have hkept := kept_classRule q.classPath hs
  have htext : q.classPath ++ ['#'] = chain '.' (texts q.outer) (q.name.text ++ ['#']) := by
    rw [QualifiedClass.classPath, chain_append_text]
  have hmark : ∀ (v u : Identifier) (t x : Text), v.text ++ '#' :: t ≠ u.text ++ '.' :: x := by
    intro v u t x heq
    have := (eq_of_append (ends_name (by decide) _) (ends_name (by decide) _) heq).2
    simp at this
  split_ifs with heq
  · obtain ⟨rfl, rfl⟩ := heq
    have happlies : classRule q.classPath none
        (chain '.' (texts q.outer) (q.name.text ++ ['#']) ++ s) =
          some (['#'], (chain '.' (texts q.outer) (q.name.text ++ ['#'])).length) := by
      rw [classRule, htext, if_neg (by simp), if_pos (startsWith_iff.mpr (prefix_append _ s)),
        ← htext]
      simp
    have hsplit : chain '.' (texts q.outer) (q.name.text ++ '#' :: s) =
        chain '.' (texts q.outer) (q.name.text ++ ['#']) ++ s := by
      simp [← chain_append_text]
    rw [hsplit, substitute, substituteFrom_of_some (chain_ne_nil '.' _ (by simp)) happlies, hkept,
      singleton_append]
  · refine hrule.substitute_chain (fun s => by simp [classRule]) (fun before hnone => ?_) ?_
    · obtain ⟨b, hb⟩ := hrule.exists_name w hnone
      rw [hb, hrule.mark_cons (by decide), hkept]
    · have hstarts : startsWith (q.classPath ++ ['#'])
          (chain '.' (texts names) (w.text ++ '#' :: s)) = false := by
        rw [Bool.eq_false_iff, ne_eq, startsWith_iff, htext]
        rintro ⟨t, ht⟩
        rw [← chain_append_text, append_assoc, singleton_append] at ht
        obtain ⟨houter, hname⟩ :=
          eq_of_chain_eq (fun u _ => hmark _ u _) (fun u _ => hmark _ u _) ht
        exact heq ⟨houter.symm, (eq_of_append (ends_name (by decide) _) (ends_name (by decide) _)
          hname).1.symm⟩
      simp [classRule, hstarts]

end DocGraft
