import DocGraft.Proofs.TextSearch
import DocGraft.Text.Rule

/-!
# Applying rules

What a rule makes of a text is known where it applies nowhere, and where it is known to apply next:
what stands before that place is kept, and what the rule replaces is passed over.
-/

namespace DocGraft.Text

open List

variable {before : Option Char} {rule : Rule} {s w : Text} {c : Char} {k : Nat} {old out t : Text}

theorem substituteFrom_skip (rule : Rule) (skip : Nat) (before : Option Char) (s : Text) :
    substituteFrom rule skip before s =
      substituteFrom rule 0 ((before.toList ++ s.take skip).getLast?) (s.drop skip) := by
  induction skip generalizing before s with
  | zero => cases before <;> simp
  | succ skip ih =>
    cases s with
    | nil => simp [substituteFrom]
    | cons c s =>
      have hlast : (before.toList ++ c :: s.take skip).getLast? = (c :: s.take skip).getLast? :=
        getLast?_append_of_ne_nil _ (cons_ne_nil _ _)
      simp [substituteFrom, ih, hlast]

/-! ### Rules that do not apply -/

/-- A rule applies nowhere in a text. -/
def Unmatched (rule : Rule) (s : Text) : Prop :=
  ∀ before t, t <:+ s → rule before t = none

theorem unmatched_nil (h : ∀ before, rule before [] = none) : Unmatched rule [] := by
  intro before t ht
  rw [suffix_nil.mp ht]
  exact h before

theorem unmatched_cons (h : ∀ before, rule before (c :: s) = none) (hs : Unmatched rule s) :
    Unmatched rule (c :: s) := by
  intro before t ht
  rcases suffix_cons_iff.mp ht with rfl | ht
  · exact h before
  · exact hs before t ht

/-- Characters with which no place begins can be passed over. -/
theorem Unmatched.append (hs : Unmatched rule s)
    (h : ∀ c ∈ w, ∀ before t, rule before (c :: t) = none) : Unmatched rule (w ++ s) := by
  induction w with
  | nil => exact hs
  | cons c w ih =>
    exact unmatched_cons (fun before => h c mem_cons_self before _)
      (ih fun d hd => h d (mem_cons_of_mem c hd))

theorem substituteFrom_cons_of_none (h : rule before (c :: s) = none) :
    substituteFrom rule 0 before (c :: s) = c :: substituteFrom rule 0 (some c) s := by
  rw [substituteFrom, h]

/-- A text is kept if no place begins in it before what follows. -/
theorem exists_substituteFrom_of_none
    (h : ∀ c v, c :: v <:+ w → ∀ before, rule before (c :: (v ++ s)) = none)
      (before : Option Char) :
    ∃ b, substituteFrom rule 0 before (w ++ s) = w ++ substituteFrom rule 0 b s := by
  induction w generalizing before with
  | nil => exact ⟨before, rfl⟩
  | cons c w ih =>
    obtain ⟨b, hb⟩ := ih (fun d v hv => h d v (hv.trans (suffix_cons c w))) (some c)
    refine ⟨b, ?_⟩
    rw [cons_append, substituteFrom_cons_of_none (h c w suffix_rfl before), hb]
    rfl

/-- Characters with which no place begins are kept. -/
theorem exists_substituteFrom_append (h : ∀ c ∈ w, ∀ before t, rule before (c :: t) = none)
    (before : Option Char) (s : Text) :
    ∃ b, substituteFrom rule 0 before (w ++ s) = w ++ substituteFrom rule 0 b s :=
  exists_substituteFrom_of_none
    (fun c v hv before => h c (hv.subset mem_cons_self) before (v ++ s)) before

theorem substituteFrom_of_some (hw : w ≠ []) (h : rule before (w ++ s) = some (out, w.length)) :
    substituteFrom rule 0 before (w ++ s) = out ++ substituteFrom rule 0 w.getLast? s := by
  obtain ⟨c, v, rfl⟩ := exists_cons_of_ne_nil hw
  rw [cons_append] at h ⊢
  rw [substituteFrom, h]
  simp only [length_cons, Nat.add_one_sub_one]
  grind [substituteFrom_skip]

theorem exists_substituteFrom_of_some (hw : w ≠ [])
    (h : rule before (w ++ s) = some (out, w.length)) :
    ∃ b, substituteFrom rule 0 before (w ++ s) = out ++ substituteFrom rule 0 b s :=
  ⟨_, substituteFrom_of_some hw h⟩

/-- Characters with which no place begins are passed over. -/
theorem exists_substituteFirstFrom?_append (h : ∀ c ∈ w, ∀ before t, rule before (c :: t) = none)
    (before : Option Char) (s : Text) :
    ∃ b, substituteFirstFrom? rule before (w ++ s) =
      (substituteFirstFrom? rule b s).map (w ++ ·) := by
  induction w generalizing before with
  | nil => exact ⟨before, by simp⟩
  | cons c w ih =>
    obtain ⟨b, hb⟩ := ih (fun d hd => h d (mem_cons_of_mem c hd)) (some c)
    refine ⟨b, ?_⟩
    rw [cons_append, substituteFirstFrom?, h c mem_cons_self, hb, Option.map_map]
    rfl

theorem substituteFirstFrom?_append {r : Text}
    (h : ∀ c ∈ w, ∀ before t, rule before (c :: t) = none)
    (hs : ∀ before, substituteFirstFrom? rule before s = some r) (before : Option Char) :
    substituteFirstFrom? rule before (w ++ s) = some (w ++ r) := by
  obtain ⟨b, hb⟩ := exists_substituteFirstFrom?_append h before s
  rw [hb, hs b, Option.map_some]

theorem Unmatched.substituteFrom (h : Unmatched rule s) (before : Option Char) :
    substituteFrom rule 0 before s = s := by
  induction s generalizing before with
  | nil => rfl
  | cons c s ih =>
    rw [Text.substituteFrom, h before _ suffix_rfl]
    exact congrArg (c :: ·) (ih (fun b t ht => h b t (ht.trans (suffix_cons c s))) _)

theorem Unmatched.substitute (h : Unmatched rule s) : substitute rule s = s :=
  h.substituteFrom none

theorem Unmatched.substituteFirst (h : Unmatched rule s) : substituteFirst rule s = s := by
  have hnone : ∀ before, substituteFirstFrom? rule before s = none := by
    induction s with
    | nil => exact fun before => rfl
    | cons c s ih =>
      intro before
      rw [substituteFirstFrom?, h before _ suffix_rfl]
      simp [ih fun b t ht => h b t (ht.trans (suffix_cons c s))]
  rw [Text.substituteFirst, substituteFirst?, hnone, Option.getD_none]

/-! ### Places -/

/-- A rule replaces at least one character, and only characters of the text. -/
def Consumes (rule : Rule) : Prop :=
  ∀ before s out n, rule before s = some (out, n) → ∃ u rest, s = u ++ rest ∧ u ≠ [] ∧ u.length = n

/-- A rule is applied at `k` places of a text that follows `before`, and the rest is kept. -/
inductive Rewrites (rule : Rule) : Nat → Option Char → Text → Text → Prop
  | rest (before : Option Char) (s : Text) : Rewrites rule 0 before s s
  | keep {k : Nat} {before : Option Char} {c : Char} {s t : Text}
      (h : Rewrites rule k (some c) s t) : Rewrites rule k before (c :: s) (c :: t)
  | place {k : Nat} {before : Option Char} {u s out t : Text} (hne : u ≠ [])
      (hrule : rule before (u ++ s) = some (out, u.length)) (h : Rewrites rule k u.getLast? s t) :
      Rewrites rule (k + 1) before (u ++ s) (out ++ t)

/-- Applying a rule everywhere. -/
theorem Consumes.exists_rewrites (h : Consumes rule) (before : Option Char) (s : Text) :
    ∃ k, Rewrites rule k before s (Text.substituteFrom rule 0 before s) := by
  induction hn : s.length using Nat.strong_induction_on generalizing s before with
  | _ n ih =>
    cases s with
    | nil => exact ⟨0, .rest before []⟩
    | cons c s =>
      cases hrule : rule before (c :: s) with
      | none =>
        obtain ⟨k, hk⟩ := ih s.length (by simp [← hn]) (some c) s rfl
        exact ⟨k, substituteFrom_cons_of_none hrule ▸ hk.keep⟩
      | some found =>
        obtain ⟨out, m⟩ := found
        obtain ⟨u, rest, hs, hne, rfl⟩ := h before _ out m hrule
        have hshorter : rest.length < n := by
          have hpos := length_pos_of_ne_nil hne
          grind
        obtain ⟨k, hk⟩ := ih rest.length hshorter u.getLast? rest rfl
        rw [hs] at hrule ⊢
        exact ⟨k + 1, substituteFrom_of_some hne hrule ▸ .place hne hrule hk⟩

/-- The first place where a rule applies. -/
theorem exists_of_substituteFirstFrom? (h : substituteFirstFrom? rule before s = some t) :
    ∃ a rest out n, s = a ++ rest ∧ rule (before.toList ++ a).getLast? rest = some (out, n) ∧
      t = a ++ (out ++ rest.drop n) := by
  induction s generalizing before t with
  | nil => simp [substituteFirstFrom?] at h
  | cons c s ih =>
    rw [substituteFirstFrom?] at h
    split at h
    · next out n hrule =>
      have hbefore : (before.toList ++ []).getLast? = before := by cases before <;> rfl
      exact ⟨[], c :: s, out, n, rfl, by rwa [hbefore], (Option.some.inj h).symm⟩
    · obtain ⟨t, ht, rfl⟩ := Option.map_eq_some_iff.mp h
      obtain ⟨a, rest, out, n, rfl, hrule, rfl⟩ := ih ht
      refine ⟨c :: a, rest, out, n, rfl, ?_, rfl⟩
      grind

theorem Rewrites.append (a : Text) (h : Rewrites rule k (before.toList ++ a).getLast? s t) :
    Rewrites rule k before (a ++ s) (a ++ t) := by
  induction a generalizing before with
  | nil => cases before <;> exact h
  | cons c a ih =>
    rw [getLast?_append_of_ne_nil _ (cons_ne_nil c a)] at h
    exact .keep (ih h)

/-- Characters with which no place begins are kept. -/
theorem Rewrites.exists_append (h : ∀ c ∈ w, ∀ before t, rule before (c :: t) = none)
    (hr : Rewrites rule k before (w ++ s) t) : ∃ r, t = w ++ r := by
  induction w generalizing before t with
  | nil => exact ⟨t, rfl⟩
  | cons c w ih =>
    generalize hs : c :: w ++ s = x at hr
    cases hr with
    | rest => exact ⟨s, hs.symm⟩
    | keep hr =>
      obtain ⟨rfl, rfl⟩ := List.cons.inj hs
      obtain ⟨r, rfl⟩ := ih (fun d hd => h d (mem_cons_of_mem c hd)) hr
      exact ⟨r, rfl⟩
    | place hne hrule =>
      rw [← hs, cons_append, h c mem_cons_self] at hrule
      cases hrule

/-- Applying a rule at its first place. -/
theorem Consumes.rewrites_first (h : Consumes rule)
    (ht : substituteFirstFrom? rule before s = some t) : Rewrites rule 1 before s t := by
  obtain ⟨a, rest, out, n, rfl, hrule, rfl⟩ := exists_of_substituteFirstFrom? ht
  obtain ⟨u, rest, rfl, hne, rfl⟩ := h _ _ out n hrule
  rw [drop_left]
  exact .append a (.place hne hrule (.rest _ rest))

/-! ### Literal texts -/

theorem substituteFrom_literalRule (old new : Text) (before before' : Option Char) (s : Text) :
    substituteFrom (literalRule old new) 0 before s =
      substituteFrom (literalRule old new) 0 before' s := by
  cases s <;> rfl

theorem replace_append (hold : old ≠ []) (new s : Text) :
    replace old new (old ++ s) = new ++ replace old new s := by
  have hrule : literalRule old new none (old ++ s) = some (new, old.length) := by
    rw [literalRule, if_pos (startsWith_iff.mpr (prefix_append old s))]
  rw [replace, substitute, substituteFrom_of_some hold hrule, substituteFrom_literalRule, replace,
    substitute]

theorem replace_cons {new : Text} (h : ¬ old <+: c :: s) :
    replace old new (c :: s) = c :: replace old new s := by
  have hrule : literalRule old new none (c :: s) = none := by
    rw [literalRule, if_neg fun hstarts => h (startsWith_iff.mp hstarts)]
  rw [replace, substitute, substituteFrom_cons_of_none hrule, substituteFrom_literalRule, replace,
    substitute]

theorem replace_of_not_infix (h : ¬ old <:+: s) (new : Text) : replace old new s = s := by
  induction s with
  | nil => rfl
  | cons c s ih =>
    rw [replace_cons fun hlead => h hlead.isInfix,
      ih fun hinfix => h ( hinfix.trans (suffix_cons c s).isInfix)]

/-- Characters with which no occurrence begins are kept. -/
theorem replace_append_of_notMem {d : Char} (h : d ∉ w) (old new s : Text) :
    replace (d :: old) new (w ++ s) = w ++ replace (d :: old) new s := by
  induction w with
  | nil => rfl
  | cons c w ih =>
    rw [mem_cons, not_or] at h
    simp [replace_cons fun hlead => h.1 (cons_prefix_cons.mp hlead).1, ih h.2]

end DocGraft.Text
