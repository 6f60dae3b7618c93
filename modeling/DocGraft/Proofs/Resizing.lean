import Mathlib
import DocGraft.Comment.Resize
import DocGraft.Proofs.TextClosing

/-!
# What resizing can do to a layout

Resizing is made of few kinds of steps: the comment is formatted anew, a rule is applied to it, the
first line is raised, the width changes, and the draft loses tags or gets another description. A
property that every kind of step keeps is kept by resizing as a whole. The widening loop, which is
bounded by the room below the greatest width, does as many steps as the unbounded loop would do.
-/

namespace DocGraft.Layout

open Text Comment

variable {style : Style}

/-- A property of layouts that every kind of resizing step keeps. -/
structure Kept (style : Style) (P : Layout → Prop) : Prop where
  build : ∀ layout, P layout → P (layout.build style)
  widen : ∀ layout width, layout.width.isSome → P layout → P { layout with width := some width }
  squeeze : ∀ layout, ∀ rule ∈ squeezeRules, P layout →
    P { layout with comment := substitute rule layout.comment }
  rewrite : ∀ layout, ∀ rule ∈ squeezeRules ++ [openerRule, closerRule], ∀ comment,
    substituteFirst? rule layout.comment = some comment → P layout →
    P { layout with comment := comment }
  raise : ∀ layout, P layout → P { layout with firstLine := true }
  dropDescription : ∀ layout, P layout → P (layout.dropDescription style)
  dropUnmentioned : ∀ layout, P layout → P (layout.dropUnmentioned style)
  join : ∀ layout body, layout.draft.description? = some body → P layout →
    P (rebuild style { layout with draft := { layout.draft with body := some (joinOutside body) } })
  cut : ∀ layout body n, layout.draft.description? = some body → P layout →
    P (rebuild style { layout with draft := { layout.draft with body := some (body.take n) } })

/-- A draft without the entries of the tags that the source does not have. -/
def mentioned (draft : Draft) : Draft :=
  { draft with
    sees := if !mentionsTag "@see".toList draft.source then [] else draft.sees
    throws := if !mentionsTag "@throws".toList draft.source then [] else draft.throws
    params := if !mentionsTag "@param".toList draft.source then [] else draft.params
    returns := if !mentionsTag "@return".toList draft.source then [] else draft.returns }

theorem dropUnmentioned_eq (style : Style) (layout : Layout) :
    layout.dropUnmentioned style =
      if mentioned layout.draft = layout.draft then layout
      else build style { layout with draft := mentioned layout.draft } :=
  rfl

theorem fits_iff {layout : Layout} : layout.fits = true ↔ layout.height ≤ layout.target := by
  simp [fits]

namespace Kept

variable {layout : Layout}

variable {style : Style} {P : Layout → Prop}

theorem unlessFits {step : Layout → Layout} (hl : P layout) (hs : P layout → P (step layout)) :
    P (layout.unlessFits step) := by
  unfold Layout.unlessFits
  split
  · exact hl
  · exact hs hl

theorem applyWhile (h : Kept style P) (wanted : Layout → Bool) {rule : Rule}
    (hr : rule ∈ squeezeRules ++ [openerRule, closerRule]) (n : Nat) (hl : P layout) :
    P (applyWhile wanted rule n layout) := by
  induction n generalizing layout with
  | zero => exact hl
  | succ n ih =>
    unfold Layout.applyWhile
    split
    · split
      · next comment hc => exact ih (h.rewrite layout rule hr comment hc hl)
      · exact hl
    · exact hl

/-- A fold over rules keeps what each of its steps keeps. -/
theorem foldl_rules {rules : List Rule} {step : Layout → Rule → Layout}
    (hs : ∀ layout, ∀ rule ∈ rules, P layout → P (step layout rule)) (hl : P layout) :
    P (rules.foldl step layout) := by
  induction rules generalizing layout with
  | nil => exact hl
  | cons rule rules ih =>
    grind

theorem squeezeStepwise (h : Kept style P) (hl : P layout) : P layout.squeezeStepwise :=
  foldl_rules (fun _ _ hr hl => unlessFits hl fun hl =>
    h.applyWhile _ (List.mem_append_left _ hr) _ hl) hl

theorem squeezeAll (h : Kept style P) (hl : P layout) : P layout.squeezeAll :=
  foldl_rules (fun layout rule hr hl => unlessFits hl fun hl => h.squeeze layout rule hr hl) hl

theorem widenUpTo (h : Kept style P) (n : Nat) (hl : P layout) : P (widenUpTo style n layout) := by
  induction n generalizing layout with
  | zero => exact hl
  | succ n ih =>
    unfold Layout.widenUpTo
    split
    · exact hl
    · next width hw =>
      split
      · exact hl
      · have hb : P (layout.build style) ∧ (layout.build style).width.isSome :=
          ⟨h.build layout hl, by simp [Layout.build, hw]⟩
        have hq : P ((layout.build style).unlessFits Layout.squeezeAll) :=
          unlessFits hb.1 h.squeezeAll
        have hwidth : ((layout.build style).unlessFits Layout.squeezeAll).width.isSome :=
          unlessFits (P := fun l => l.width.isSome) hb.2 fun hw =>
            foldl_rules (P := fun l => l.width.isSome)
              (fun _ _ _ hw => unlessFits (P := fun l => l.width.isSome) hw id) hw
        exact unlessFits hq fun hq => ih (h.widen _ _ hwidth hq)

variable (h : Kept style P)

include h

variable (hl : P layout)

include hl

theorem raiseFirstLine : P layout.raiseFirstLine := by
  unfold Layout.raiseFirstLine
  split
  · exact hl
  · exact h.raise _ hl

theorem shrink : P (layout.shrink style) := by
  have h₁ := unlessFits hl (h.dropDescription layout)
  have h₂ := unlessFits h₁ (h.dropUnmentioned _)
  have h₃ := unlessFits h₂ h.squeezeStepwise
  have h₄ := unlessFits h₃ h.raiseFirstLine
  exact unlessFits h₄ (h.widenUpTo _)

theorem joinDescription : P (layout.joinDescription style) := by
  unfold Layout.joinDescription
  split
  · next body hb =>
    split
    · exact unlessFits (h.join layout body hb hl) h.shrink
    · exact hl
  · exact hl

theorem cutDescription : P (layout.cutDescription style) := by
  unfold Layout.cutDescription
  split
  · next body hb =>
    split
    · next n _ => exact unlessFits (h.cut layout body n hb hl) h.shrink
    · exact hl
  · exact hl

theorem expand : P layout.expand := by
  unfold Layout.expand
  split
  · exact foldl_rules
      (fun _ _ hr hl => h.applyWhile _ (List.mem_append_right _ hr) _ hl) hl
  · exact hl

/-- Resizing keeps what every kind of its steps keeps. -/
theorem resize : P (layout.resize style) := by
  have hs : P (layout.shrinkFully style) :=
    unlessFits (unlessFits (unlessFits hl h.shrink) h.joinDescription) h.cutDescription
  unfold Layout.resize
  simp only
  split
  · exact h.expand hs
  · exact hs

end Kept

/-- No step of resizing changes the height that the comment should have. -/
theorem target_kept (style : Style) (target : Int) :
    Kept style fun layout => layout.target = target where
  build _ h := h
  widen _ _ _ h := h
  squeeze _ _ _ h := h
  rewrite _ _ _ _ _ h := h
  raise _ h := h
  dropDescription layout h := by
    unfold Layout.dropDescription
    split <;> exact h
  dropUnmentioned layout h := by
    rw [dropUnmentioned_eq]
    split <;> exact h
  join _ _ _ h := h
  cut _ _ _ _ h := h

/-! ### Widening -/

/-- What one round of widening makes of a layout: it is formatted at its width and squeezed. -/
def widenRound (style : Style) (layout : Layout) : Layout :=
  (layout.build style).unlessFits squeezeAll

/-- The widening loop without a bound on the number of its rounds. -/
inductive Widens (style : Style) : Layout → Layout → Prop
  | unbounded {layout : Layout} (hw : layout.width = none) : Widens style layout layout
  | settled {layout : Layout} {width : Int} (hw : layout.width = some width)
      (h : layout.fits ∨ style.layout.maxWidth ≤ width) : Widens style layout layout
  | done {layout : Layout} {width : Int} (hw : layout.width = some width)
      (hf : ¬ layout.fits) (hm : width < style.layout.maxWidth)
      (h : (layout.widenRound style).fits) : Widens style layout (layout.widenRound style)
  | again {layout last : Layout} {width : Int} (hw : layout.width = some width)
      (hf : ¬ layout.fits) (hm : width < style.layout.maxWidth)
      (h : ¬ (layout.widenRound style).fits)
      (hn : Widens style
        { layout.widenRound style with width := some (nextWidth style.layout width) } last) :
      Widens style layout last

theorem lt_nextWidth {settings : LayoutSettings} (hs : 0 < settings.widthStep)
    (hw : 0 < settings.wideWidthStep) (width : Int) : width < nextWidth settings width := by
  unfold nextWidth
  split <;> omega

theorem widens_widenUpTo (hs : 0 < style.layout.widthStep) (hw : 0 < style.layout.wideWidthStep)
    (n : Nat) (layout : Layout)
    (hn : ∀ width, layout.width = some width → style.layout.maxWidth - width ≤ n) :
    Widens style layout (widenUpTo style n layout) := by
  induction n generalizing layout with
  | zero =>
    cases hl : layout.width with
    | none => exact .unbounded hl
    | some width =>
      have hmax := hn width hl
      exact .settled hl (.inr (by omega))
  | succ n ih =>
    cases hl : layout.width with
    | none =>
      have heq : widenUpTo style (n + 1) layout = layout := by
        rw [widenUpTo]
        split <;> simp_all
      rw [heq]
      exact .unbounded hl
    | some width =>
      rw [widenUpTo]
      simp only [hl]
      split
      · next h => exact .settled hl h
      · next h =>
        rw [not_or] at h
        have hm : width < style.layout.maxWidth := by omega
        change Widens style layout ((layout.widenRound style).unlessFits _)
        unfold unlessFits
        split
        · next hf => exact .done hl h.1 hm hf
        · next hf =>
          refine .again hl h.1 hm hf (ih _ fun width' hw' => ?_)
          have hgrow := lt_nextWidth hs hw width
          grind

/-- If the width grows at every step, the bound on the rounds of the widening loop is never met. -/
theorem widens_widen (hs : 0 < style.layout.widthStep) (hw : 0 < style.layout.wideWidthStep)
    (layout : Layout) : Widens style layout (widen style layout) := by
  refine widens_widenUpTo hs hw _ layout fun width hl => ?_
  grind

end DocGraft.Layout

/-! ## Resizing makes progress -/

namespace DocGraft.Layout

open List Text

variable {layout next : Layout} {rule : Rule} {s t out : Text} {before : Option Char} {n : Nat}
  {rules : List Rule} {wanted : Layout → Bool}

/-! ### Rules -/

/-- A squeezing rule writes less than it takes, and no line end that it does not take. -/
theorem squeezes_of_mem (h : rule ∈ squeezeRules) (hrule : rule before s = some (out, n)) :
    n ≤ s.length ∧ out.length < n ∧ out.count '\n' ≤ (s.take n).count '\n' := by
  obtain ⟨u, rest, rfl, hne, rfl, ⟨rfl, rfl⟩ | ⟨-, rfl, -⟩⟩ := exists_of_mem_squeezeRules h hrule
  · simp
  · rw [length_append]
    exact ⟨Nat.le_add_right _ _, length_pos_iff.mpr hne, Nat.zero_le _⟩

theorem consumes_of_mem (h : rule ∈ squeezeRules) : Consumes rule := fun _ _ _ _ hrule => by
  obtain ⟨u, rest, hs, hne, hlength, -⟩ := exists_of_mem_squeezeRules h hrule
  exact ⟨u, rest, hs, hne, hlength⟩

/-- Each place where a squeezing rule is applied makes the text shorter. -/
theorem length_add_le_of_rewrites (h : rule ∈ squeezeRules) {k : Nat}
    (hr : Rewrites rule k before s t) :
    t.length + k ≤ s.length ∧ t.count '\n' ≤ s.count '\n' := by
  induction hr with
  | rest => exact ⟨le_rfl, le_rfl⟩
  | @keep k before c s t hr ih =>
    grind
  | @place k before u s out t hne hrule hr ih =>
    obtain ⟨-, hlength, hcount⟩ := squeezes_of_mem h hrule
    grind

/-! ### Loops -/

/-- One round of the loop that applies a rule at its first place while a condition holds; nothing if
the loop ends. -/
def rewriteStep (wanted : Layout → Bool) (rule : Rule) (layout : Layout) : Option Layout :=
  if wanted layout then
    (substituteFirst? rule layout.comment).map fun comment => { layout with comment := comment }
  else none

/-- The loop that takes a step as long as there is one ends with a layout. -/
inductive Runs (step : Layout → Option Layout) : Layout → Layout → Prop
  | done {layout : Layout} (h : step layout = none) : Runs step layout layout
  | again {layout next last : Layout} (h : step layout = some next) (hn : Runs step next last) :
      Runs step layout last

/-- The loops for several rules run one after the other. -/
inductive RunsThrough (step : Rule → Layout → Option Layout) : List Rule → Layout → Layout → Prop
  | nil (layout : Layout) : RunsThrough step [] layout layout
  | cons {rule : Rule} {rules : List Rule} {layout next last : Layout}
      (h : Runs (step rule) layout next) (hn : RunsThrough step rules next last) :
      RunsThrough step (rule :: rules) layout last

/-- One round of squeezing, while the layout does not fit. -/
def squeezeStep : Rule → Layout → Option Layout :=
  rewriteStep fun layout => !layout.fits

/-- One round of expanding, while the layout is too low. -/
def expandStep : Rule → Layout → Option Layout :=
  rewriteStep fun layout => layout.height < layout.target

theorem rewriteStep_eq_some_iff :
    rewriteStep wanted rule layout = some next ↔ wanted layout ∧
      ∃ comment, substituteFirst? rule layout.comment = some comment ∧
        { layout with comment := comment } = next := by
  simp [rewriteStep]

theorem applyWhile_succ (wanted : Layout → Bool) (rule : Rule) (n : Nat) (layout : Layout) :
    applyWhile wanted rule (n + 1) layout =
      ((rewriteStep wanted rule layout).map (applyWhile wanted rule n)).getD layout := by
  grind [applyWhile, rewriteStep]

/-- A bound that is not below a measure that falls at every step is not met. -/
theorem runs_applyWhile {measure : Layout → Nat}
    (hstep : ∀ layout next, rewriteStep wanted rule layout = some next →
      measure next < measure layout) (hn : measure layout ≤ n) :
    Runs (rewriteStep wanted rule) layout (applyWhile wanted rule n layout) := by
  induction n generalizing layout with
  | zero =>
    refine .done (Option.eq_none_iff_forall_ne_some.mpr fun next hnext => ?_)
    grind
  | succ n ih =>
    rw [applyWhile_succ]
    cases hnext : rewriteStep wanted rule layout with
    | none => exact .done hnext
    | some next =>
      have hless := hstep layout next hnext
      exact .again hnext (ih (by omega))

/-- Squeezing at one place makes the comment shorter. -/
theorem length_squeezeStep (h : rule ∈ squeezeRules) (hs : squeezeStep rule layout = some next) :
    next.comment.length < layout.comment.length ∧
      next.comment.count '\n' ≤ layout.comment.count '\n' := by
  obtain ⟨-, comment, hcomment, rfl⟩ := rewriteStep_eq_some_iff.mp hs
  exact length_add_le_of_rewrites h ((consumes_of_mem h).rewrites_first hcomment)

theorem count_expandStep (h : rule ∈ [openerRule, closerRule])
    (hs : expandStep rule layout = some next) :
    layout.height < layout.target ∧ next.comment.count '\n' = layout.comment.count '\n' + 1 := by
  obtain ⟨hlow, comment, hcomment, rfl⟩ := rewriteStep_eq_some_iff.mp hs
  obtain ⟨u, rest, hlayout, rfl⟩ := exists_of_substituteFirst?_double h hcomment
  refine ⟨of_decide_eq_true hlow, ?_⟩
  grind

/-- An expanded layout is one line higher and still not too high. -/
theorem height_expandStep (h : rule ∈ [openerRule, closerRule])
    (hs : expandStep rule layout = some next) :
    next.height = layout.height + 1 ∧ next.target = layout.target ∧ next.fits := by
  obtain ⟨hlow, hcount⟩ := count_expandStep h hs
  obtain ⟨-, comment, -, rfl⟩ := rewriteStep_eq_some_iff.mp hs
  have hheight : ({ layout with comment := comment } : Layout).height = layout.height + 1 := by
    simp only [height] at hcount ⊢
    omega
  refine ⟨hheight, rfl, fits_iff.mpr ?_⟩
  rw [hheight]
  exact hlow

theorem runsThrough_foldl {step : Rule → Layout → Option Layout} {f : Layout → Rule → Layout}
    (h : ∀ rule ∈ rules, ∀ layout, Runs (step rule) layout (f layout rule)) :
    RunsThrough step rules layout (rules.foldl f layout) := by
  induction rules generalizing layout with
  | nil => exact .nil layout
  | cons rule rules ih =>
    exact .cons (h rule mem_cons_self layout) (ih fun r hr => h r (mem_cons_of_mem rule hr))

theorem runsThrough_squeezeStepwise (layout : Layout) :
    RunsThrough squeezeStep squeezeRules layout layout.squeezeStepwise := by
  refine runsThrough_foldl fun rule hrule layout => ?_
  unfold unlessFits
  split
  · next hfits => exact .done (by simp [squeezeStep, rewriteStep, hfits])
  · exact runs_applyWhile (fun _ _ h => (length_squeezeStep hrule h).1) le_rfl

theorem runsThrough_expand (h : '<' ∈ layout.comment) :
    RunsThrough expandStep [openerRule, closerRule] layout layout.expand := by
  rw [expand, if_pos h]
  refine runsThrough_foldl fun rule hrule layout => ?_
  have hmissing : ∀ layout next, expandStep rule layout = some next →
      (next.target - next.height).toNat < (layout.target - layout.height).toNat := by
    intro layout next hstep
    obtain ⟨hheight, htarget, -⟩ := height_expandStep hrule hstep
    have hlow := (count_expandStep hrule hstep).1
    omega
  exact runs_applyWhile hmissing le_rfl

/-! ### The height of the result -/

theorem Runs.fits (h : rule ∈ [openerRule, closerRule]) (hr : Runs (expandStep rule) layout next)
    (hfits : layout.fits) : next.fits := by
  induction hr with
  | done => exact hfits
  | again hstep _ ih => exact ih (height_expandStep h hstep).2.2

theorem RunsThrough.fits (h : rules ⊆ [openerRule, closerRule])
    (hr : RunsThrough expandStep rules layout next) (hfits : layout.fits) : next.fits := by
  induction hr with
  | nil => exact hfits
  | cons hrun _ ih =>
    obtain ⟨hrule, hrules⟩ := cons_subset.mp h
    exact ih hrules (hrun.fits hrule hfits)

theorem fits_expand (h : layout.fits) : layout.expand.fits := by
  by_cases hmarkup : '<' ∈ layout.comment
  · exact (runsThrough_expand hmarkup).fits (Subset.refl _) h
  · rwa [expand, if_neg hmarkup]

theorem fits_resize_iff (style : Style) (layout : Layout) :
    (layout.resize style).fits ↔ (layout.shrinkFully style).fits := by
  by_cases h : (layout.shrinkFully style).fits
  · rw [resize, if_pos h]
    exact iff_of_true (fits_expand h) h
  · rw [resize, if_neg h]

/-- Resizing makes progress and ends. Whatever a squeezing rule replaces, it writes less and adds no
line end, at one place as at all places; a round of expanding happens below the target and adds one
line end; and the width grows. So each loop ends, with the layout that resizing goes on with, and
whatever is not given up once it has been shrunk is not too high in the end. -/
theorem resize_progress {style : Style} (hstep : 0 < style.layout.widthStep)
    (hwide : 0 < style.layout.wideWidthStep) (layout : Layout) :
    (∀ rule ∈ squeezeRules,
      (∀ before s out n, rule before s = some (out, n) →
        n ≤ s.length ∧ out.length < n ∧ out.count '\n' ≤ (s.take n).count '\n') ∧
      (∀ layout next, squeezeStep rule layout = some next →
        next.comment.length < layout.comment.length ∧
          next.comment.count '\n' ≤ layout.comment.count '\n') ∧
      ∀ s, ∃ k, Rewrites rule k none s (substitute rule s) ∧
        (substitute rule s).length + k ≤ s.length ∧
        (substitute rule s).count '\n' ≤ s.count '\n') ∧
    (∀ rule ∈ [openerRule, closerRule], ∀ layout next, expandStep rule layout = some next →
      layout.height < layout.target ∧ next.comment.count '\n' = layout.comment.count '\n' + 1) ∧
    (∀ width, width < nextWidth style.layout width) ∧
    (∀ layout, RunsThrough squeezeStep squeezeRules layout layout.squeezeStepwise ∧
      Widens style layout (layout.widen style) ∧
      ('<' ∈ layout.comment →
        RunsThrough expandStep [openerRule, closerRule] layout layout.expand)) ∧
    ((layout.resize style).height ≤ layout.target ↔ (layout.shrinkFully style).fits) := by
  refine ⟨fun rule hrule => ⟨fun _ _ _ _ => squeezes_of_mem hrule,
    fun _ _ => length_squeezeStep hrule, fun s => ?_⟩, fun rule hrule _ _ => count_expandStep hrule,
    lt_nextWidth hstep hwide, fun layout => ⟨runsThrough_squeezeStepwise layout,
      widens_widen hstep hwide layout, runsThrough_expand⟩, ?_⟩
  · obtain ⟨k, hk⟩ := (consumes_of_mem hrule).exists_rewrites none s
    exact ⟨k, hk, length_add_le_of_rewrites hrule hk⟩
  · have htarget : (layout.resize style).target = layout.target :=
      (target_kept style layout.target).resize rfl
    rw [← fits_resize_iff, fits_iff, htarget]

/-- A list item below a line joins it where there is room for one line only. -/
theorem resize_progress_item :
    let layout : Layout :=
      { draft := { source := "/** a\n * <li>b\n */".toList }, target := 1, initialWidth := none,
        width := none, comment := "a\n<li>b\n".toList }
    0 < ({} : Style).layout.widthStep ∧ 0 < ({} : Style).layout.wideWidthStep ∧
      (layout.resize {}).comment = "a<li>b\n".toList ∧ (layout.resize {}).height ≤ 1 :=
  ⟨by decide, by decide, by decide +kernel,
    (resize_progress (by decide) (by decide) _).2.2.2.2.mpr (by decide +kernel)⟩

end DocGraft.Layout
