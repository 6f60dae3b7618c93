import DocGraft.Comment.Draft
import DocGraft.Proofs.TextClosing

/-!
# Closings in what is read from a source comment

The only closing of a comment in the source is at its end. That stays so when the comment is
normalized, when its decoration is taken off, and when the stars in front of its lines are dropped.
Values of tags that may go on over several lines end before the slash of the closing, and the
content of a preformatted block ends before its end tag, so neither has a closing.
-/

namespace DocGraft.Text

open List

variable {a b s t : Text} {c : Char} {rule : Rule}

/-- Behind a closing of the text there is only white space. -/
def ClosesAtEnd (s : Text) : Prop :=
  ∀ a b, s = a ++ '*' :: '/' :: b → ∀ c ∈ b, isBlank c

theorem hasClosing_iff : HasClosing s ↔ ∃ a b, s = a ++ '*' :: '/' :: b := by
  constructor
  · rintro ⟨a, b, rfl⟩
    exact ⟨a, b, by simp⟩
  · rintro ⟨a, b, rfl⟩
    exact ⟨a, b, by simp⟩

theorem ClosesAtEnd.suffix (h : ClosesAtEnd s) (hts : t <:+ s) : ClosesAtEnd t := by
  obtain ⟨u, rfl⟩ := hts
  intro a b ht
  exact h (u ++ a) b (by rw [ht, append_assoc])

/-- What stands before a text that closes at its end, without a closing. -/
theorem ClosesAtEnd.append (hb : ClosesAtEnd b) (ha : ¬ HasClosing a)
    (hlast : a.getLast? ≠ some '*') : ClosesAtEnd (a ++ b) := by
  intro u v huv
  rcases append_eq_append_iff.mp huv with ⟨w, rfl, hw⟩ | ⟨w, rfl, hw⟩
  · exact hb w v hw
  · match w with
    | [] => exact hb [] v (by simpa using hw.symm)
    | [c] =>
      obtain ⟨rfl, -⟩ := List.cons.inj hw
      simp at hlast
    | c :: d :: w =>
      simp only [cons_append, List.cons.injEq] at hw
      obtain ⟨rfl, rfl, -⟩ := hw
      exact absurd (hasClosing_iff.mpr ⟨u, w, rfl⟩) ha

theorem closesAtEnd_cons :
    ClosesAtEnd (c :: s) ↔
      (∀ t, c = '*' → s = '/' :: t → ∀ d ∈ t, isBlank d) ∧ ClosesAtEnd s := by
  constructor
  · intro h
    refine ⟨?_, h.suffix (suffix_cons c s)⟩
    rintro t rfl rfl
    exact h [] t rfl
  · rintro ⟨hc, hs⟩ a b hab
    cases a with
    | nil =>
      obtain ⟨rfl, hs'⟩ := List.cons.inj hab
      exact hc b rfl hs'
    | cons d a => exact hs a b (List.cons.inj hab).2

/-- What stands before a character other than white space has no closing. -/
theorem ClosesAtEnd.not_hasClosing (h : ClosesAtEnd (s ++ c :: t)) (hc : isBlank c = false) :
    ¬ HasClosing s := by
  rintro ⟨a, b, rfl⟩
  have := h a (b ++ c :: t) (by simp) c (by simp)
  grind

/-! ### Substitution -/

/-- A rule that leaves white space alone. -/
theorem substituteFrom_of_isBlank (hrule : ∀ before s, (∀ c ∈ s, isBlank c) → rule before s = none)
    (before : Option Char) (hs : ∀ c ∈ s, isBlank c) : substituteFrom rule 0 before s = s := by
  induction s generalizing before with
  | nil => rfl
  | cons c s ih =>
    grind [substituteFrom]

/-- A rule that leaves white space alone and writes no closing keeps closings at the end. The
relation `linked` holds between the last character written and the last character read. -/
theorem ClosesAtEnd.substituteFrom (linked : Option Char → Option Char → Prop)
    (hsame : ∀ c, linked (some c) (some c))
    (hblank : ∀ before s, (∀ c ∈ s, isBlank c) → rule before s = none)
    (happly : ∀ written before s out n, linked written before → rule before s = some (out, n) →
      0 < n ∧ linked (written.toList ++ out).getLast? (s.take n).getLast? ∧
        ¬ HasClosing (written.toList ++ out) ∧ (written.toList ++ out).getLast? ≠ some '*')
    {written before : Option Char} (hlinked : linked written before)
    (h : ClosesAtEnd (written.toList ++ s)) :
    ClosesAtEnd (written.toList ++ Text.substituteFrom rule 0 before s) := by
  induction hn : s.length using Nat.strong_induction_on generalizing s written before with
  | _ m ih =>
    cases s with
    | nil => exact h
    | cons c s =>
      rw [Text.substituteFrom]
      split
      · next out n hrule =>
        obtain ⟨hpos, hlinked', hout, hlast⟩ := happly written before _ out n hlinked hrule
        obtain ⟨k, rfl⟩ := Nat.exists_eq_succ_of_ne_zero (Nat.pos_iff_ne_zero.mp hpos)
        have hrest : ClosesAtEnd (s.drop k) :=
          h.suffix ((drop_suffix k s).trans ((suffix_cons c s).trans
            (suffix_append _ _)))
        have hbefore : ClosesAtEnd ((written.toList ++ out).getLast?.toList ++ s.drop k) := by
          cases hp : (written.toList ++ out).getLast? with
          | none => exact hrest
          | some d =>
            refine hrest.append (not_hasClosing_singleton d) ?_
            rwa [hp] at hlast
        have htail := ih (s.drop k).length (by simp at hn ⊢; omega) hlinked' hbefore rfl
        rw [Nat.succ_sub_one, substituteFrom_skip, ← append_assoc]
        exact (htail.suffix (suffix_append _ _)).append hout hlast
      · next hrule =>
        have hrest : ClosesAtEnd ((some c).toList ++ s) := h.suffix (suffix_append _ _)
        have htail : ClosesAtEnd (c :: Text.substituteFrom rule 0 (some c) s) :=
          ih s.length (by simp [← hn]) (hsame c) hrest rfl
        cases written with
        | none => exact htail
        | some d =>
          refine closesAtEnd_cons.mpr ⟨?_, htail⟩
          rintro t rfl ht
          obtain ⟨rfl, rfl⟩ := List.cons.inj ht
          have hs := (closesAtEnd_cons.mp h).1 s rfl rfl
          rwa [substituteFrom_of_isBlank hblank _ hs]

/-- A text of two lines closes at its end if both lines do, and nothing follows a closing in the
first one. -/
theorem closesAtEnd_append_newline :
    ClosesAtEnd (a ++ '\n' :: b) ↔
      ClosesAtEnd a ∧ ClosesAtEnd b ∧ (HasClosing a → ∀ c ∈ b, isBlank c) := by
  constructor
  · intro h
    refine ⟨?_, h.suffix ((suffix_cons '\n' b).trans (suffix_append _ _)), ?_⟩
    · rintro u v rfl c hc
      exact h u (v ++ '\n' :: b) (by simp) c (by simp [hc])
    · rintro ⟨u, v, rfl⟩ c hc
      exact h u (v ++ '\n' :: b) (by simp) c (by simp [hc])
  · rintro ⟨ha, hb, hblank⟩ u v huv
    rcases append_eq_append_iff.mp huv with ⟨w, rfl, hw⟩ | ⟨w, rfl, hw⟩
    · cases w with
      | nil => grind
      | cons c w => exact hb w v (List.cons.inj hw).2
    · match w with
      | [] => grind
      | [c] => grind
      | c :: d :: w =>
        simp only [cons_append, List.cons.injEq] at hw
        obtain ⟨rfl, rfl, rfl⟩ := hw
        intro c hc
        rcases mem_append.mp hc with hc | hc
        · exact ha u w rfl c hc
        · rcases mem_cons.mp hc with rfl | hc
          · rfl
          · exact hblank (hasClosing_iff.mpr ⟨u, w, rfl⟩) c hc

end DocGraft.Text

namespace DocGraft.Comment

open List Text

variable {content s source value : Text} {a tag : Text}

/-! ### The source of a draft -/

theorem ClosesAtEnd.exceptionTagRule (h : ClosesAtEnd s) :
    ClosesAtEnd (substitute exceptionTagRule s) := by
  have hblank : ∀ before s, (∀ c ∈ s, isBlank c) → Comment.exceptionTagRule before s = none := by
    intro before s hs
    unfold Comment.exceptionTagRule
    split
    · rfl
    · next c rest =>
      split
      · next d tail hafter =>
        rw [after?_eq_some_iff] at hafter
        exact absurd (hs '@' (by simp [hafter])) (by decide)
      · rfl
  have hnone : ClosesAtEnd (none.toList ++ s) := h
  refine ClosesAtEnd.substituteFrom (fun _ _ => True) (fun _ => trivial) hblank ?_ trivial hnone
  intro written before s out n _ hrule
  unfold Comment.exceptionTagRule at hrule
  split at hrule
  · simp at hrule
  · next c rest =>
    split at hrule
    · simp only [Option.ite_none_right_eq_some, Option.some.injEq, Prod.mk.injEq] at hrule
      obtain ⟨-, rfl, rfl⟩ := hrule
      have hend : " @throws ".toList.getLast? = some ' ' := by decide
      refine ⟨by decide, trivial, ?_, ?_⟩
      · rw [hasClosing_append fun _ => by decide]
        refine not_or.mpr ⟨?_, not_hasClosing_of_notMem (by decide)⟩
        cases written <;> simp
      · rw [getLast?_append, hend]
        simp
    · simp at hrule

theorem ClosesAtEnd.starRule (h : ClosesAtEnd s) : ClosesAtEnd (substitute starRule s) := by
  have hblank : ∀ before s, (∀ c ∈ s, isBlank c) → Comment.starRule before s = none := by
    intro before s hs
    have hdrop : s.drop (run isBlank s) = [] := by
      rw [drop_run]
      simpa using hs
    unfold Comment.starRule
    simp [hdrop]
  have hnone : ClosesAtEnd (none.toList ++ s) := h
  refine ClosesAtEnd.substituteFrom (fun written before => written = some '*' → before = some '*')
    (fun _ h => h) hblank ?_ (by simp) hnone
  intro written before s out n hlinked hrule
  unfold Comment.starRule at hrule
  simp only [Option.ite_none_right_eq_some] at hrule
  obtain ⟨hbefore, hrule⟩ := hrule
  have hout : out = [] ∧ 0 < n := by
    grind
  -- The rule applies at the beginning of a line, where the last character written is no star.
  have hwritten : written ≠ some '*' := by
    intro hstar
    grind
  obtain ⟨rfl, hn⟩ := hout
  have hlast : (written.toList ++ []).getLast? = written := by cases written <;> rfl
  refine ⟨hn, fun hstar => absurd (hlast.symm.trans hstar) hwritten, ?_, by rwa [hlast]⟩
  cases written <;> simp

theorem undecorateLine_suffix (line : Text) : undecorateLine line <:+ line := by
  unfold undecorateLine
  split
  · next rest hrest =>
    exact (dropWhile_suffix _).trans
      ((suffix_cons '*' rest).trans (hrest ▸ dropWhile_suffix _))
  · exact suffix_rfl

/-- Lines that lose something in front still close at the end. -/
theorem closesAtEnd_joinWith_map {f : Text → Text} (hf : ∀ line, f line <:+ line) {ls : List Text}
    (h : ClosesAtEnd (joinWith ['\n'] ls)) : ClosesAtEnd (joinWith ['\n'] (ls.map f)) := by
  have hsublist : ∀ ls : List Text,
      (joinWith ['\n'] (ls.map f)).Sublist (joinWith ['\n'] ls) := by
    intro ls
    induction ls with
    | nil => exact List.Sublist.refl _
    | cons l ls ih =>
      cases ls with
      | nil => exact (hf l).sublist
      | cons m ls => exact ((hf l).sublist.append (List.Sublist.refl _)).append ih
  induction ls with
  | nil => exact h
  | cons l ls ih =>
    cases ls with
    | nil => exact h.suffix (hf l)
    | cons m ls =>
      have hcons : ∀ (l : Text) (ls : List Text), ls ≠ [] →
          joinWith ['\n'] (l :: ls) = l ++ '\n' :: joinWith ['\n'] ls := by
        intro l ls hne
        simp [joinWith_cons _ _ hne]
      rw [hcons l _ (by simp), closesAtEnd_append_newline] at h
      obtain ⟨hl, hrest, hblank⟩ := h
      rw [map_cons, hcons _ _ (by simp), closesAtEnd_append_newline]
      refine ⟨hl.suffix (hf l), ih hrest, fun hclosing c hc => ?_⟩
      exact hblank (hclosing.of_infix (hf l).isInfix) c ((hsublist _).subset hc)

theorem ClosesAtEnd.undecorate (h : ClosesAtEnd source) : ClosesAtEnd (undecorate source) := by
  rw [Comment.undecorate, mapLines]
  refine closesAtEnd_joinWith_map undecorateLine_suffix ?_
  rwa [joinWith_fields]

/-! ### Tag values -/

/-- A tag value ends before a character that is not white space. -/
theorem exists_of_valueUpToEnd? (h : valueUpToEnd? s = some value) :
    ∃ u c t, s = value ++ (u ++ c :: t) ∧ isBlank c = false := by
  induction s generalizing value with
  | nil => simp [valueUpToEnd?] at h
  | cons c s ih =>
    rw [valueUpToEnd?] at h
    split at h
    · next hend =>
      obtain rfl := Option.some.inj h
      unfold valueEndsAt at hend
      split at hend
      · next b d rest hcons => exact ⟨[b], '@', d :: rest, hcons, by decide⟩
      · next b rest _ hcons =>
        simp only [Bool.and_eq_true, decide_eq_true_eq] at hend
        obtain ⟨rfl, -⟩ := hend
        exact ⟨[], '/', rest, hcons, by decide⟩
      · simp at hend
    · obtain ⟨value, hvalue, rfl⟩ := Option.map_eq_some_iff.mp h
      obtain ⟨u, d, t, rfl, hd⟩ := ih hvalue
      exact ⟨u, d, t, rfl, hd⟩

theorem exists_of_tagValue? {spaces gap : Nat} (h : tagValue? s spaces = some (gap, value)) :
    ∃ n, valueUpToEnd? (s.drop n) = some value := by
  induction spaces with
  | zero =>
    simp only [tagValue?, Option.map_eq_some_iff, Prod.mk.injEq] at h
    obtain ⟨v, hv, -, rfl⟩ := h
    exact ⟨0, hv⟩
  | succ n ih =>
    simp only [tagValue?, Option.or_eq_some_iff, Option.map_eq_some_iff, Prod.mk.injEq] at h
    rcases h with ⟨v, hv, -, rfl⟩ | ⟨-, h⟩
    · exact ⟨n + 1, hv⟩
    · exact ih h

theorem exists_of_mem_tagValuesFrom {skip : Nat} (h : value ∈ tagValuesFrom tag skip s) :
    ∃ t, t <:+ s ∧ valueUpToEnd? t = some value := by
  induction s generalizing skip with
  | nil => cases skip <;> simp [tagValuesFrom] at h
  | cons c s ih =>
    have hsuffix : ∀ {t : Text}, t <:+ s → t <:+ c :: s := fun ht => ht.trans (suffix_cons c s)
    cases skip with
    | succ skip =>
      obtain ⟨t, ht, hvalue⟩ := ih h
      exact ⟨t, hsuffix ht, hvalue⟩
    | zero =>
      rw [tagValuesFrom] at h
      split at h
      · next gap found hfound =>
        rcases mem_cons.mp h with rfl | h
        · obtain ⟨rest, hrest, hvalue⟩ := Option.bind_eq_some_iff.mp hfound
          obtain ⟨n, hn⟩ := exists_of_tagValue? hvalue
          refine ⟨rest.drop n, ?_, hn⟩
          rw [after?_eq_some_iff.mp hrest]
          exact (drop_suffix n rest).trans (suffix_append _ _)
        · grind
      · grind

/-- Values that may go on over several lines have no closings. -/
theorem not_hasClosing_of_mem_wrappedTagValues (h : ClosesAtEnd source)
    (hvalue : value ∈ wrappedTagValues tag source) : ¬ HasClosing value := by
  unfold wrappedTagValues at hvalue
  split at hvalue
  · obtain ⟨t, ht, hend⟩ := exists_of_mem_tagValuesFrom hvalue
    obtain ⟨u, c, rest, rfl, hc⟩ := exists_of_valueUpToEnd? hend
    have hclosed := (ClosesAtEnd.undecorate h).suffix ht
    rw [← append_assoc] at hclosed
    exact fun hclosing =>
      hclosed.not_hasClosing hc (hclosing.of_infix (prefix_append _ _).isInfix)
  · simp at hvalue

/-! ### Preformatted blocks -/

theorem blockPartsFrom_eq_drop (skip : Nat) (s : Text) :
    blockPartsFrom skip s = blockPartsFrom 0 (s.drop skip) := by
  induction skip generalizing s with
  | zero => rfl
  | succ skip ih =>
    cases s with
    | nil => rfl
    | cons c s => exact ih s

theorem text_block (content : Text) :
    (BlockPart.block content).text = "<pre>\n".toList ++ content ++ "\n</pre>".toList :=
  rfl

theorem exists_of_blockAt? (h : blockAt? s = some content) :
    ∃ t, s = (BlockPart.block content).text ++ t := by
  unfold blockAt? at h
  split at h
  · next c rest hafter =>
    obtain ⟨⟨a, b⟩, hcut, rfl⟩ := Option.map_eq_some_iff.mp h
    obtain rfl := after?_eq_some_iff.mp hafter
    obtain rfl := eq_of_cut?_eq_some hcut
    refine ⟨b, ?_⟩
    simp [text_block]
  · simp at h

/-- The parts of a text put together are the text. -/
theorem flatMap_text_blockParts (s : Text) : (blockParts s).flatMap BlockPart.text = s := by
  unfold blockParts
  induction hn : s.length using Nat.strong_induction_on generalizing s with
  | _ n ih =>
    cases s with
    | nil => rfl
    | cons c s =>
      rw [blockPartsFrom]
      split
      · next content hblock =>
        obtain ⟨t, ht⟩ := exists_of_blockAt? hblock
        have hlength : (BlockPart.block content).text.length = content.length + 13 := by
          simp [text_block]
        have hdrop : s.drop (content.length + 12) = t := by
          have h := congrArg (List.drop (content.length + 13)) ht
          grind
        have ht' : t.length < n := by
          grind
        rw [blockPartsFrom_eq_drop, hdrop, flatMap_cons, ih _ ht' t rfl, ht]
      · rw [flatMap_cons, ih s.length (by simp [← hn]) s rfl]
        rfl

theorem exists_of_mem_blocks (h : content ∈ blocks s) :
    ∃ a b, s = a ++ ((BlockPart.block content).text ++ b) := by
  have hmem : BlockPart.block content ∈ blockParts s := by
    obtain ⟨part, hpart, heq⟩ := mem_filterMap.mp h
    cases part with
    | outside c => simp at heq
    | block other =>
      obtain rfl := Option.some.inj heq
      exact hpart
  obtain ⟨before, after, hparts⟩ := append_of_mem hmem
  refine ⟨before.flatMap BlockPart.text, after.flatMap BlockPart.text, ?_⟩
  have h := flatMap_text_blockParts s
  grind

theorem not_hasClosing_of_mem_blocks (h : ClosesAtEnd s) (hcontent : content ∈ blocks s) :
    ¬ HasClosing content := by
  obtain ⟨a, b, rfl⟩ := exists_of_mem_blocks hcontent
  have hsplit : a ++ ((BlockPart.block content).text ++ b) =
      (a ++ "<pre>\n".toList ++ content ++ ['\n']) ++ '<' :: ("/pre>".toList ++ b) := by
    simp [text_block]
  rw [hsplit] at h
  exact fun hclosing => h.not_hasClosing (by decide) (hclosing.of_infix ⟨_, ['\n'], rfl⟩)

/-- No closing comes about at the ends of a block. -/
theorem hasClosing_append_block {b : Text} (h : ¬ HasClosing content) :
    HasClosing (a ++ ((BlockPart.block content).text ++ b)) ↔ HasClosing a ∨ HasClosing b := by
  have hopen : "<pre>\n".toList.getLast? ≠ some '*' := by decide
  refine hasClosing_between ?_ (by simp [text_block]) (by simp [text_block]) ?_
  · rw [text_block, hasClosing_append fun _ => by decide,
      hasClosing_append fun hstar => absurd hstar hopen]
    have hends : ¬ HasClosing "<pre>\n".toList ∧ ¬ HasClosing "\n</pre>".toList := by
      constructor <;> rw [HasClosing] <;> decide
    grind
  · rw [text_block, getLast?_append]
    simp

/-- Blocks filled with contents that have no closings. -/
theorem not_hasClosing_refill {contents : List Text} (hcontents : ∀ s ∈ contents, ¬ HasClosing s)
    {parts : List BlockPart} (h : ¬ HasClosing (a ++ parts.flatMap BlockPart.text)) :
    ¬ HasClosing (a ++ (refill contents parts).flatMap BlockPart.text) := by
  induction parts generalizing a contents with
  | nil => cases contents <;> exact h
  | cons part parts ih =>
    have hsame : ¬ HasClosing
        (a ++ (part :: refill contents parts).flatMap BlockPart.text) := by
      grind
    cases part with
    | outside c => cases contents <;> exact hsame
    | block content =>
      cases contents with
      | nil => exact hsame
      | cons new contents =>
        rw [forall_mem_cons] at hcontents
        rw [refill, flatMap_cons, hasClosing_append_block hcontents.1, not_or]
        have hrest : ¬ HasClosing ([] ++ parts.flatMap BlockPart.text) := fun hclosing =>
          h (hclosing.of_infix ⟨a ++ (BlockPart.block content).text, [], by simp⟩)
        exact ⟨fun hclosing => h (hclosing.of_infix (prefix_append _ _).isInfix),
          ih hcontents.2 hrest⟩

/-- A description with its blocks filled in has no closings if it had none before. -/
theorem not_hasClosing_fillBlocks {body : Text} (h : ClosesAtEnd source)
    (hbody : ¬ HasClosing body) : ¬ HasClosing (fillBlocks source body) := by
  dsimp only [fillBlocks]
  split
  · have hcontents : ∀ s ∈ blocks (substitute starRule source), ¬ HasClosing s := fun s hs =>
      not_hasClosing_of_mem_blocks (ClosesAtEnd.starRule h) hs
    refine not_hasClosing_refill hcontents (a := []) ?_
    rwa [nil_append, flatMap_text_blockParts]
  · exact hbody

end DocGraft.Comment
