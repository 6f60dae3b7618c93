import DocGraft.Comment.Wrap
import DocGraft.Proofs.TextLines
import DocGraft.Proofs.TextRules

/-!
# Wrapping changes white space only

A text is seen as the list of its visible characters, each with a mark that tells whether it and the
character right behind it are of one firm kind. Line ends that are put next to another character, or
in place of white space, change nothing of that list. All places at which wrapping breaks a text are
such places as long as the firm characters are ASCII characters after which no line may end, so that
wrapping keeps the visible characters and splits no ASCII word.

The main results are `Comment.joints_wrapFrom`, `Comment.joints_wrap` and
`Comment.wrap_keeps_words`.
-/

namespace DocGraft

open List

namespace Text

variable {s t : Text} {x : Char}

/-! ### Visible characters and joints -/

/-- The characters of a text that are not white space. -/
def visible (s : Text) : Text :=
  s.filter fun c => !isBlank c

/-- The visible characters of a text, each with whether it and the character right behind it are of
the kind `p`. -/
def joints (p : Char → Bool) : Text → List (Char × Bool)
  | [] => []
  | c :: s => if isBlank c then joints p s else (c, p c && s.head?.any p) :: joints p s

variable {p : Char → Bool}

theorem joints_cons (p : Char → Bool) (c : Char) (s : Text) :
    joints p (c :: s) =
      (if isBlank c then [] else [(c, p c && s.head?.any p)]) ++ joints p s := by
  rw [joints]
  split_ifs <;> rfl

theorem visible_cons (c : Char) (s : Text) :
    visible (c :: s) = (if isBlank c then [] else [c]) ++ visible s := by
  rw [visible, filter_cons, visible]
  cases isBlank c <;> rfl

/-- The visible characters are read off the joints, also in front of another text. -/
theorem exists_joints_append (p : Char → Bool) (a s : Text) :
    ∃ l, joints p (a ++ s) = l ++ joints p s ∧ l.map Prod.fst = visible a := by
  induction a with
  | nil => exact ⟨[], rfl, rfl⟩
  | cons c a ih =>
    obtain ⟨l, hl, hvisible⟩ := ih
    refine ⟨(if isBlank c then [] else [(c, p c && (a ++ s).head?.any p)]) ++ l, ?_, ?_⟩
    · rw [cons_append, joints_cons, hl, append_assoc]
    · rw [visible_cons, map_append, hvisible]
      split_ifs <;> rfl

theorem map_fst_joints (p : Char → Bool) (s : Text) : (joints p s).map Prod.fst = visible s := by
  obtain ⟨l, hl, hvisible⟩ := exists_joints_append p s []
  rw [append_nil] at hl
  rw [hl, joints, append_nil, hvisible]

/-- A text may be cut next to a character of another kind. -/
theorem joints_append (h : (∀ c ∈ s.getLast?, p c = false) ∨ ∀ c ∈ t.head?, p c = false) :
    joints p (s ++ t) = joints p s ++ joints p t := by
  induction s with
  | nil => rfl
  | cons c s ih =>
    have hmark : (p c && (s ++ t).head?.any p) = (p c && s.head?.any p) := by
      cases s with
      | cons d s => rfl
      | nil =>
        rcases h with h | h
        · simp [h c rfl]
        · cases t with
          | nil => rfl
          | cons d t => simp [h d rfl]
    have hrest : joints p (s ++ t) = joints p s ++ joints p t := by
      cases s with
      | nil => rfl
      | cons d s => exact ih (h.imp_left fun h e he => h e (by rwa [getLast?_cons_cons]))
    rw [cons_append, joints_cons, joints_cons, hmark, hrest, append_assoc]

/-- What follows a text may be exchanged for a text that begins alike. -/
theorem joints_append_congr {t' : Text} (hhead : t.head?.any p = t'.head?.any p)
    (h : joints p t = joints p t') (s : Text) : joints p (s ++ t) = joints p (s ++ t') := by
  induction s with
  | nil => exact h
  | cons c s ih =>
    have hmark : (s ++ t).head?.any p = (s ++ t').head?.any p := by
      cases s with
      | nil => exact hhead
      | cons d s => rfl
    rw [cons_append, cons_append, joints_cons, joints_cons, hmark, ih]

theorem joints_append_cons {b : Char} (hb : isBlank b) (hp : p b = false) (s t : Text) :
    joints p (s ++ b :: t) = joints p s ++ joints p t := by
  rw [joints_append (.inr (by simpa using hp)), joints, if_pos hb]

/-- A mark between two characters stands for two neighbours in the text. -/
theorem exists_of_joints_eq {l r : List (Char × Bool)} (h : joints p t = l ++ (x, true) :: r) :
    ∃ a b, t = a ++ x :: b ∧ joints p b = r ∧ visible a = l.map Prod.fst ∧ b.head?.any p := by
  induction t generalizing l with
  | nil => simp [joints] at h
  | cons c t ih =>
    rw [joints] at h
    split_ifs at h with hc
    · obtain ⟨a, b, rfl, hb, ha, hhead⟩ := ih h
      exact ⟨c :: a, b, rfl, hb, by rw [visible_cons, if_pos hc, ha]; rfl, hhead⟩
    · cases l with
      | nil =>
        obtain ⟨hfirst, rfl⟩ := List.cons.inj h
        obtain ⟨rfl, hmark⟩ := Prod.mk.inj hfirst
        exact ⟨[], t, rfl, rfl, rfl, (Bool.and_eq_true_iff.mp hmark).2⟩
      | cons q l =>
        obtain ⟨rfl, hrest⟩ := List.cons.inj h
        obtain ⟨a, b, rfl, hb, ha, hhead⟩ := ih hrest
        exact ⟨c :: a, b, rfl, hb, by rw [visible_cons, if_neg hc, ha]; rfl, hhead⟩

/-- The characters `x` and `y` are neighbours, with the visible characters `u` before them and `v`
behind them. -/
def Neighbours (s u : Text) (x y : Char) (v : Text) : Prop :=
  ∃ a b, s = a ++ x :: y :: b ∧ visible a = u ∧ visible b = v

/-- Texts with the same joints have the same neighbours of the kind. -/
theorem Neighbours.of_joints_eq {u v : Text} {y : Char} (hs : Neighbours s u x y v)
    (h : joints p t = joints p s) (hblank : ∀ c, p c → isBlank c = false) (hx : p x) (hy : p y) :
    Neighbours t u x y v := by
  obtain ⟨a, b, rfl, rfl, rfl⟩ := hs
  obtain ⟨l, hl, hvisible⟩ := exists_joints_append p a (x :: y :: b)
  have hcut : joints p t = l ++ (x, true) :: joints p (y :: b) := by
    rw [h, hl, joints_cons p x, hblank x hx]
    simp [hx, hy]
  obtain ⟨a', b', rfl, hrest, ha, hhead⟩ := exists_of_joints_eq hcut
  obtain ⟨z, b', rfl⟩ : ∃ z b'', b' = z :: b'' := by
    cases b' with
    | nil => simp at hhead
    | cons z b' => exact ⟨z, b', rfl⟩
  have hz : p z := by simpa using hhead
  rw [joints_cons, joints_cons, hblank z hz, hblank y hy] at hrest
  obtain ⟨hzy, hbehind⟩ := List.cons.inj hrest
  obtain ⟨rfl, -⟩ := Prod.mk.inj hzy
  refine ⟨a', b', rfl, ha.trans hvisible, ?_⟩
  rw [← map_fst_joints p b', ← map_fst_joints p b]
  exact congrArg _ hbehind

/-! ### Texts of several lines -/

theorem joints_fields (hp : p '\n' = false) (s : Text) :
    (fields '\n' s).flatMap (joints p) = joints p s := by
  obtain ⟨ls, rest, rfl, hls, hrest⟩ := exists_unlines_append s
  rw [fields_unlines_append hls, fields_of_notMem hrest]
  clear hls hrest
  induction ls with
  | nil => simp [unlines]
  | cons l ls ih =>
    rw [unlines_cons, append_assoc, cons_append, cons_append,
      joints_append_cons (by decide) hp, ← ih, flatMap_cons]

theorem joints_lines (hp : p '\n' = false) (s : Text) :
    (lines s).flatMap (joints p) = joints p s := by
  rw [← joints_fields hp, lines]
  split_ifs with hlast
  · obtain ⟨ls, hls⟩ := getLast?_eq_some_iff.mp hlast
    rw [hls, dropLast_concat, flatMap_append]
    simp [joints]
  · rfl

end Text

namespace Comment

open Text

variable {before : Option Char} {c : Char} {least : Nat} {s : Text}

/-! ### Places of breaks -/

/-- No line is broken between two characters of the kind `p`: they are ASCII characters and no
tag begins with them and no line may end after them. -/
structure Firm (settings : WrapSettings) (p : Char → Bool) : Prop where
  graphic : ∀ c, p c → isAsciiGraphic c
  tag : p '<' = false
  breaker : ∀ c ∈ settings.punctuation ++ settings.particles, p c = false

theorem isAsciiGraphic_iff : isAsciiGraphic c ↔ 0x21 ≤ c.toNat ∧ c.toNat ≤ 0x7e := by
  rw [isAsciiGraphic, Bool.and_eq_true, decide_eq_true_eq, decide_eq_true_eq]
  exact Iff.rfl

theorem isAsciiGraphic_of_isAlphanum (h : c.isAlphanum) : isAsciiGraphic c := by
  simp only [Char.isAlphanum, Char.isAlpha, Char.isUpper, Char.isLower, Char.isDigit,
    Bool.or_eq_true, Bool.and_eq_true, decide_eq_true_eq] at h
  change ((65 ≤ c.toNat ∧ c.toNat ≤ 90) ∨ (97 ≤ c.toNat ∧ c.toNat ≤ 122)) ∨
    (48 ≤ c.toNat ∧ c.toNat ≤ 57) at h
  rw [isAsciiGraphic_iff]
  omega

theorem isBlank_of_isAsciiGraphic (h : isAsciiGraphic c) : isBlank c = false := by
  obtain ⟨hlow, hhigh⟩ := isAsciiGraphic_iff.mp h
  rw [isBlank, blankRanges, inRanges, if_neg (by omega), if_neg (by omega), inRanges,
    if_neg (by omega), if_neg (by omega), inRanges, if_pos (by omega)]

theorem charWeight_of_isAsciiGraphic (h : isAsciiGraphic c) : charWeight c = 1 := by
  obtain ⟨-, hhigh⟩ := isAsciiGraphic_iff.mp h
  have hwide : isWide c = false := by
    rw [isWide, isUnassigned, unassignedRuns, inRuns, if_pos (by omega), wideRuns, inRuns,
      if_pos (by omega), Bool.or_self]
  rw [charWeight, hwide]
  rfl

section breakAt

variable {settings : WrapSettings} {width w : Int} {c next : Char}

theorem eq_space_of_breakAt (h : breakAt settings width w c next = .instead) : c = ' ' := by
  rw [breakAt] at h
  split_ifs at h
  assumption

theorem mem_of_breakAt (h : breakAt settings width w c next = .after) :
    c ∈ settings.punctuation ++ settings.particles := by
  rw [breakAt] at h
  split_ifs at h
  assumption

theorem eq_or_wide_of_breakAt (h : breakAt settings width w c next = .before) :
    c = '<' ∨ 1 < charWeight c := by
  rw [breakAt] at h
  split_ifs at h
  assumption

end breakAt

/-- A long word begins a line in place of white space before it. -/
theorem longWordRule_of_isBlank (hc : isBlank c) :
    longWordRule least before (c :: s) =
      if least ≤ (s.takeWhile isAsciiGraphic).length then
        some ('\n' :: s.takeWhile isAsciiGraphic, (c :: s.takeWhile isAsciiGraphic).length)
      else none := by
  simp [longWordRule, hc, Nat.add_comm]

theorem longWordRule_of_not_isBlank (hc : isBlank c = false) :
    longWordRule least before (c :: s) =
      if least ≤ ((c :: s).takeWhile isAsciiGraphic).length then
        some ('\n' :: (c :: s).takeWhile isAsciiGraphic, ((c :: s).takeWhile isAsciiGraphic).length)
      else none := by
  simp [longWordRule, hc]

namespace Firm

variable {settings : WrapSettings} {p : Char → Bool} (firm : Firm settings p) {c : Char}
  {least : Nat} {s t : Text}

include firm

theorem not_isBlank (h : p c) : isBlank c = false :=
  isBlank_of_isAsciiGraphic (firm.graphic c h)

theorem eq_false_of_isBlank (h : isBlank c) : p c = false := by
  by_contra hp
  rw [Bool.not_eq_false] at hp
  simp [firm.not_isBlank hp] at h

theorem newline : p '\n' = false :=
  firm.eq_false_of_isBlank (by decide)

theorem eq_false_of_wide (h : 1 < charWeight c) : p c = false := by
  by_contra hp
  rw [Bool.not_eq_false] at hp
  rw [charWeight_of_isAsciiGraphic (firm.graphic c hp)] at h
  omega

/-- A line end in place of white space. -/
theorem joints_replace {b : Char} (hb : isBlank b) (s t : Text) :
    joints p (s ++ '\n' :: t) = joints p (s ++ b :: t) := by
  rw [joints_append_cons (by decide) firm.newline,
    joints_append_cons hb (firm.eq_false_of_isBlank hb)]

/-- A line end next to a character of another kind. -/
theorem joints_insert (h : (∀ c ∈ s.getLast?, p c = false) ∨ ∀ c ∈ t.head?, p c = false) :
    joints p (s ++ '\n' :: t) = joints p (s ++ t) := by
  rw [joints_append_cons (by decide) firm.newline, joints_append h]

/-! ### Breaking a line -/

theorem joints_breakBehindFrom {tail rest broken : Text} {n : Nat}
    (h : breakBehindFrom tail rest = some (broken, n)) (t : Text) :
    joints p (broken.reverse ++ t) = joints p (rest.reverse ++ tail ++ t) := by
  fun_induction breakBehindFrom tail rest with
  | case1 tail d rest =>
    obtain ⟨rfl, -⟩ := Prod.mk.inj (Option.some.inj h)
    simpa using firm.joints_replace (b := ' ') (by decide) (d :: rest).reverse (tail ++ t)
  | case2 tail c d rest hspace hwide =>
    obtain ⟨rfl, -⟩ := Prod.mk.inj (Option.some.inj h)
    have hlast : ∀ e ∈ (c :: d :: rest).reverse.getLast?, p e = false := by
      simpa using firm.eq_false_of_wide hwide
    simpa using firm.joints_insert (t := tail ++ t) (.inl hlast)
  | case3 tail c d rest hspace hwide ih => simpa using ih h
  | case4 => cases h

theorem joints_breakBehind (line : Text) (w : Int) (t : Text) :
    joints p ((breakBehind line w).1.reverse ++ t) = joints p (line.reverse ++ t) := by
  rw [breakBehind]
  split
  · next broken n h => simpa using firm.joints_breakBehindFrom h t
  · rfl

/-- Breaking the rest of a line keeps the joints of the line. -/
theorem joints_wrapFrom (width : Int) (line : Text) (w : Int) (s : Text) :
    joints p (wrapFrom settings width line w s) = joints p (line.reverse ++ s) := by
  fun_induction wrapFrom settings width line w s with
  | case1 => simp
  | case2 => simp
  | case3 => rfl
  | case4 line w c d s hrest w' hbreak ih => simpa using ih
  | case5 line w c d s hrest w' hbreak ih =>
    obtain rfl := eq_space_of_breakAt hbreak
    rw [← firm.joints_replace (b := ' ') (by decide), joints_append_cons (by decide) firm.newline,
      ih,
      joints_append_cons (by decide) firm.newline, reverse_nil, nil_append]
  | case6 line w c d s hrest w' hbreak ih =>
    have hlast : ∀ e ∈ (line.reverse ++ [c]).getLast?, p e = false := by
      simpa using firm.breaker c (mem_of_breakAt hbreak)
    have hcut := joints_append_cons (by decide) firm.newline (line.reverse ++ [c])
      (wrapFrom settings width [] 0 (d :: s))
    rw [ih, reverse_nil, nil_append, ← joints_append (.inl hlast)] at hcut
    simpa using hcut
  | case7 line w c d s hrest w' hbreak ih =>
    have hc : p c = false := by
      rcases eq_or_wide_of_breakAt hbreak with rfl | hwide
      · exact firm.tag
      · exact firm.eq_false_of_wide hwide
    have hrest : joints p (c :: wrapFrom settings width [] 0 (d :: s)) =
        joints p (c :: d :: s) := by
      have hlast : ∀ e ∈ [c].getLast?, p e = false := by simpa using hc
      have hcut := joints_append (t := wrapFrom settings width [] 0 (d :: s)) (.inl hlast)
      rw [ih, reverse_nil, nil_append, ← joints_append (.inl hlast)] at hcut
      exact hcut
    rw [joints_append_cons (by decide) firm.newline, hrest,
      joints_append (t := c :: d :: s) (.inr (by simpa using hc))]
  | case8 line w c d s hrest w' hbreak broken ih =>
    have hbroken := firm.joints_breakBehind line w' (c :: d :: s)
    simpa using ih.trans (by simpa using hbroken)

theorem joints_wrapLine (width : Int) (line t : Text) :
    joints p (wrapLine settings width line ++ t) = joints p line ++ joints p t := by
  rw [wrapLine, append_assoc, singleton_append,
    joints_append_cons (by decide) firm.newline, firm.joints_wrapFrom]
  rfl

theorem joints_flatMap_wrapLine (width : Int) (parts : List Text) (t : Text) :
    joints p (parts.flatMap (wrapLine settings width) ++ t) =
      parts.flatMap (joints p) ++ joints p t := by
  induction parts with
  | nil => rfl
  | cons part parts ih =>
    rw [flatMap_cons, append_assoc, firm.joints_wrapLine, ih, flatMap_cons, append_assoc]

/-! ### Long words and tables -/

theorem head?_substituteFrom_longWordRule (before : Option Char)
    (h : (s.takeWhile isAsciiGraphic).length < least) :
    (substituteFrom (longWordRule least) 0 before s).head?.any p = s.head?.any p := by
  cases s with
  | nil => rfl
  | cons c s =>
    by_cases hblank : isBlank c
    · rw [substituteFrom]
      split
      · next out n hsome =>
        rw [longWordRule_of_isBlank hblank] at hsome
        split_ifs at hsome
        obtain ⟨rfl, -⟩ := Prod.mk.inj (Option.some.inj hsome)
        simp [firm.newline, firm.eq_false_of_isBlank hblank]
      · rfl
    · have hnone : longWordRule least before (c :: s) = none := by
        rw [longWordRule_of_not_isBlank (by simpa using hblank), if_neg (by omega)]
      rw [substituteFrom_cons_of_none hnone]
      rfl

/-- A long word that begins a line, with the rest behind it. -/
theorem joints_longWord (hleast : 0 < least) (before : Option Char)
    (h : joints p (substituteFrom (longWordRule least) 0 before (s.dropWhile isAsciiGraphic)) =
      joints p (s.dropWhile isAsciiGraphic)) :
    joints p ('\n' :: s.takeWhile isAsciiGraphic ++
      substituteFrom (longWordRule least) 0 before (s.dropWhile isAsciiGraphic)) = joints p s := by
  have hshort : ((s.dropWhile isAsciiGraphic).takeWhile isAsciiGraphic).length < least := by
    have hhead := head?_dropWhile_not isAsciiGraphic s
    cases hcase : s.dropWhile isAsciiGraphic with
    | nil => exact hleast
    | cons d u =>
      rw [hcase] at hhead
      rwa [takeWhile_cons_of_neg (by simpa using hhead)]
  have hall := joints_append_congr (firm.head?_substituteFrom_longWordRule before hshort) h
    (s.takeWhile isAsciiGraphic)
  rw [takeWhile_append_dropWhile] at hall
  rw [cons_append, joints, if_pos (by decide), hall]

theorem joints_substituteFrom_longWordRule (hleast : 0 < least) (before : Option Char) (s : Text) :
    joints p (substituteFrom (longWordRule least) 0 before s) = joints p s := by
  induction hn : s.length using Nat.strong_induction_on generalizing s before with
  | _ n ih =>
    have hword : ∀ (b : Option Char) (t : Text), t.length ≤ n →
        least ≤ (t.takeWhile isAsciiGraphic).length →
        joints p ('\n' :: t.takeWhile isAsciiGraphic ++
          substituteFrom (longWordRule least) 0 b (t.dropWhile isAsciiGraphic)) = joints p t := by
      intro b t ht hlong
      have hlength := congrArg List.length
        (takeWhile_append_dropWhile (p := isAsciiGraphic) (l := t))
      rw [length_append] at hlength
      exact joints_longWord firm hleast b (ih _ (by omega) b (t.dropWhile isAsciiGraphic) rfl)
    cases s with
    | nil => rfl
    | cons c s =>
      rw [length_cons] at hn
      have hrest := ih s.length (by omega) (some c) s rfl
      by_cases hblank : isBlank c
      · have hskip : ∀ t, joints p (c :: t) = joints p t := fun t => by rw [joints, if_pos hblank]
        by_cases hlong : least ≤ (s.takeWhile isAsciiGraphic).length
        · have hrule : longWordRule least before
              ((c :: s.takeWhile isAsciiGraphic) ++ s.dropWhile isAsciiGraphic) = some
                ('\n' :: s.takeWhile isAsciiGraphic, (c :: s.takeWhile isAsciiGraphic).length) := by
            rw [cons_append, takeWhile_append_dropWhile, longWordRule_of_isBlank hblank,
              if_pos hlong]
          have hsub := substituteFrom_of_some (cons_ne_nil _ _) hrule
          rw [cons_append, takeWhile_append_dropWhile] at hsub
          rw [hsub, hword _ s (by omega) hlong, hskip]
        · have hnone : longWordRule least before (c :: s) = none := by
            rw [longWordRule_of_isBlank hblank, if_neg hlong]
          rw [substituteFrom_cons_of_none hnone, hskip, hskip, hrest]
      · rw [Bool.not_eq_true] at hblank
        by_cases hlong : least ≤ ((c :: s).takeWhile isAsciiGraphic).length
        · have hrule : longWordRule least before ((c :: s).takeWhile isAsciiGraphic ++
              (c :: s).dropWhile isAsciiGraphic) = some ('\n' :: (c :: s).takeWhile isAsciiGraphic,
                ((c :: s).takeWhile isAsciiGraphic).length) := by
            rw [takeWhile_append_dropWhile, longWordRule_of_not_isBlank hblank, if_pos hlong]
          have hsub := substituteFrom_of_some (ne_nil_of_length_pos (by omega)) hrule
          rw [takeWhile_append_dropWhile] at hsub
          rw [hsub, hword _ (c :: s) (by rw [length_cons]; omega) hlong]
        · have hnone : longWordRule least before (c :: s) = none := by
            rw [longWordRule_of_not_isBlank hblank, if_neg hlong]
          rw [substituteFrom_cons_of_none hnone]
          by_cases hgraphic : isAsciiGraphic c
          · -- The word that `c` begins is not long, and so the rest begins alike.
            rw [takeWhile_cons_of_pos hgraphic, length_cons] at hlong
            have hshort : (s.takeWhile isAsciiGraphic).length < least := by omega
            have hhead := firm.head?_substituteFrom_longWordRule (some c) hshort
            exact joints_append_congr hhead hrest [c]
          · have hlast : ∀ e ∈ [c].getLast?, p e = false := by
              have hc : p c = false := by
                by_contra hp
                exact hgraphic (firm.graphic c (by simpa using hp))
              simpa using hc
            have hcut := joints_append (t := substituteFrom (longWordRule least) 0 (some c) s)
              (.inl hlast)
            rw [hrest, ← joints_append (.inl hlast)] at hcut
            exact hcut

omit firm in
theorem exists_of_substituteFirstFrom?_tableSummaryRule {before : Option Char}
    (h : substituteFirstFrom? tableSummaryRule before s = some t) :
    ∃ u b v, isBlank b ∧ s = u ++ b :: v ∧ t = u ++ '\n' :: v := by
  induction s generalizing before t with
  | nil => cases h
  | cons c s ih =>
    rw [substituteFirstFrom?] at h
    split at h
    · next out n hsome =>
      rw [tableSummaryRule] at hsome
      split_ifs at hsome with hc
      obtain ⟨rfl, rfl⟩ := Prod.mk.inj (Option.some.inj hsome)
      obtain rfl := Option.some.inj h
      exact ⟨[], c, s, (Bool.and_eq_true_iff.mp hc).1, rfl, rfl⟩
    · obtain ⟨t, ht, rfl⟩ := Option.map_eq_some_iff.mp h
      obtain ⟨u, b, v, hb, rfl, rfl⟩ := ih ht
      exact ⟨c :: u, b, v, hb, rfl, rfl⟩

/-- A table is broken in place of white space. -/
theorem joints_substituteFirst_tableSummaryRule (s : Text) :
    joints p (substituteFirst tableSummaryRule s) = joints p s := by
  rw [substituteFirst, substituteFirst?]
  cases h : substituteFirstFrom? tableSummaryRule none s with
  | none => rfl
  | some t =>
    obtain ⟨u, b, v, hb, rfl, rfl⟩ := exists_of_substituteFirstFrom?_tableSummaryRule h
    exact firm.joints_replace hb u v

/-! ### Lines and texts -/

theorem joints_wrapPlain (width : Int) (line t : Text) :
    joints p (wrapPlain settings width line ++ t) = joints p line ++ joints p t := by
  have hend : ∀ s, joints p (s ++ ['\n'] ++ t) = joints p s ++ joints p t := by
    intro s
    rw [append_assoc, singleton_append, joints_append_cons (by decide) firm.newline]
  rw [wrapPlain]
  split_ifs
  · exact hend line
  · rw [hend, firm.joints_substituteFirst_tableSummaryRule]
  · have hleast : 0 < longWordLength settings width := by
      rw [longWordLength]
      omega
    have hparts := joints_fields firm.newline
      (substitute (longWordRule (longWordLength settings width)) line)
    rw [substitute, firm.joints_substituteFrom_longWordRule hleast] at hparts
    have hfilter : ∀ parts : List Text,
        (parts.filter (· ≠ [])).flatMap (joints p) = parts.flatMap (joints p) := by
      intro parts
      induction parts with
      | nil => rfl
      | cons part parts ih =>
        cases part with
        | nil => simpa [joints] using ih
        | cons c part => simpa using ih
    rw [firm.joints_flatMap_wrapLine, hfilter, LongWords.rule_eq, substitute, hparts]

theorem joints_wrapLines (width : Int) (preformatted : Bool) (ls : List Text) :
    joints p (wrapLines settings width preformatted ls) = ls.flatMap (joints p) := by
  induction ls generalizing preformatted with
  | nil => rfl
  | cons line ls ih =>
    rw [wrapLines, flatMap_cons]
    split
    · next hline =>
      rw [hline, joints_cons, if_pos (by decide), ih]
      rfl
    · simp only
      generalize (if startsWith "</pre>".toList line then false else _) = inside
      split
      · rw [joints_append_cons (by decide) firm.newline, ih]
      · rw [firm.joints_wrapPlain, ih]

/-- Wrapping keeps the joints of a text. -/
theorem joints_wrap (width : Option Int) (value : Text) :
    joints p (wrap settings width value) = joints p value := by
  have hend : joints p (value ++ ['\n']) = joints p value := by
    rw [joints_append_cons (by decide) firm.newline, joints, append_nil]
  cases width with
  | none => exact hend
  | some width =>
    rw [wrap]
    split_ifs
    · exact hend
    · rw [firm.joints_wrapLines, joints_lines firm.newline]

end Firm

/-- Wrapping keeps the sequence of visible characters. If no line may end after an ASCII letter or
digit, letters and digits are neighbours in the wrapped text where they are in the text: no word is
split, and no two words are joined. -/
theorem wrap_keeps_words (settings : WrapSettings) (width : Option Int) (value : Text) :
    visible (wrap settings width value) = visible value ∧
      ((∀ c ∈ settings.punctuation ++ settings.particles, c.isAlphanum = false) →
        ∀ u x y v, x.isAlphanum → y.isAlphanum →
          (Neighbours (wrap settings width value) u x y v ↔ Neighbours value u x y v)) := by
  constructor
  · have firm : Firm settings fun _ => false := ⟨by simp, rfl, by simp⟩
    rw [← map_fst_joints (fun _ => false), firm.joints_wrap, map_fst_joints]
  · intro hbreaker u x y v hx hy
    have firm : Firm settings Char.isAlphanum :=
      ⟨fun c => isAsciiGraphic_of_isAlphanum, rfl, hbreaker⟩
    have hjoints := firm.joints_wrap width value
    have hblank : ∀ c : Char, c.isAlphanum → isBlank c = false := fun c => firm.not_isBlank
    exact ⟨fun h => h.of_joints_eq hjoints.symm hblank hx hy,
      fun h => h.of_joints_eq hjoints hblank hx hy⟩

/-- An ASCII word between wide characters, in a text that is broken before and behind it. -/
theorem wrap_keeps_words_among_wide :
    let settings : WrapSettings := {}
    let value := "漢字漢字漢字漢字abc漢字漢字漢字漢字".toList
    wrap settings (some 8) value = "漢字漢字\n漢字漢字\nabc漢字\n漢字漢字漢字\n".toList ∧
      (∀ c ∈ settings.punctuation ++ settings.particles, c.isAlphanum = false) ∧
      Neighbours (wrap settings (some 8) value) "漢字漢字漢字漢字a".toList 'b' 'c'
        "漢字漢字漢字漢字".toList := by
  intro settings value
  have hbreaker : ∀ c ∈ settings.punctuation ++ settings.particles, c.isAlphanum = false := by
    simp [settings]
  refine ⟨by decide +kernel, hbreaker, ?_⟩
  refine ((wrap_keeps_words settings (some 8) value).2 hbreaker _ 'b' 'c' _ rfl rfl).mpr ?_
  exact ⟨"漢字漢字漢字漢字a".toList, "漢字漢字漢字漢字".toList, rfl, by decide +kernel, by decide +kernel⟩

end Comment

end DocGraft
