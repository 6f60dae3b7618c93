import DocGraft.Proofs.PlaceholderPlaces
import DocGraft.Proofs.ScannerRuns
import DocGraft.Proofs.TextLines

/-!
# Taking placeholders out again

A scanner takes a placeholder out if it comes upon its comment as a documentation comment of the
text. So a placeholder that stands between two grains, at the beginning of a line or breaking one,
leaves nothing behind. A placeholder that was put inside a comment or a literal is read as a part of
it and stays.
-/

namespace DocGraft.Text

variable {needle s : Text}

theorem infix_of_infix_append_left {u : Text} (hneedle : needle ≠ []) (hu : ∀ c ∈ u, c ∉ needle)
    (h : needle <:+: u ++ s) : needle <:+: s := by
  induction u with
  | nil => exact h
  | cons c u ih =>
    rcases List.infix_cons_iff.mp h with ⟨rest, hrest⟩ | h
    · obtain ⟨d, needle, rfl⟩ := List.exists_cons_of_ne_nil hneedle
      obtain rfl : d = c := (List.cons.inj hrest).1
      exact absurd List.mem_cons_self (hu d List.mem_cons_self)
    · exact ih (fun d hd => hu d (List.mem_cons_of_mem _ hd)) h

theorem infix_of_infix_append_right {v : Text} (hneedle : needle ≠ []) (hv : ∀ c ∈ v, c ∉ needle)
    (h : needle <:+: s ++ v) : needle <:+: s := by
  rw [← List.reverse_infix] at h ⊢
  rw [List.reverse_append] at h
  exact infix_of_infix_append_left (by simpa using hneedle) (by simpa using hv) h

end DocGraft.Text

namespace DocGraft.Source

open List Text

/-- The word by which placeholders are known. -/
def Placeholder.word : Text :=
  "javadoc-merge".toList

/-! ### The line of a comment -/

theorem lineLead_append (a b : Text) :
    lineLead (a ++ b) a.length = a.reverse.takeWhile (· ≠ '\n') := by
  simp [lineLead]

/-- The line end at the beginning of a text, if there is one. -/
def lineEnd (b : Text) : Text :=
  if b.head? = some '\n' then ['\n'] else []

theorem exists_lineEnd_append (b : Text) : ∃ rest, b = lineEnd b ++ rest := by
  rw [lineEnd]
  split_ifs with h
  · obtain ⟨rest, rfl⟩ := head?_eq_some_iff.mp h
    exact ⟨rest, rfl⟩
  · exact ⟨b, rfl⟩

/-- The comment `w` between `a` and `b` with the rest of its line before it and the line end behind
it. -/
def commentLine (a w b : Text) : Text :=
  (a.reverse.takeWhile (· ≠ '\n')).reverse ++ (w ++ lineEnd b)

theorem slice_commentLine (a w b : Text) :
    slice (a ++ (w ++ b)) (lineStart (a ++ (w ++ b)) a.length)
      (a.length + w.length + (lineEnd b).length) = commentLine a w b := by
  obtain ⟨rest, hrest⟩ : ∃ rest, a = rest ++ (a.reverse.takeWhile (· ≠ '\n')).reverse := by
    refine ⟨(a.reverse.dropWhile (· ≠ '\n')).reverse, ?_⟩
    simp [← reverse_append]
  obtain ⟨b', hb⟩ := exists_lineEnd_append b
  have hlen := congrArg List.length hrest
  rw [length_append, length_reverse] at hlen
  refine slice_eq_of_append (a := rest) (c := b') ?_ ?_ ?_
  · rw [commentLine, ← append_assoc rest, ← append_assoc rest, ← hrest]
    simp only [append_assoc]
    rw [← hb]
  · rw [lineStart, lineLead_append]
    omega
  · grind [lineStart, lineLead_append, commentLine]

theorem lead_eq_nil {a : Text} (h : AtLineStart a) :
    a.reverse.takeWhile (· ≠ '\n') = [] := by
  rcases eq_nil_or_concat a with rfl | ⟨a, c, rfl⟩
  · rfl
  · rw [concat_eq_append] at h ⊢
    simp [atLineStart_concat.mp h]

/-! ### The grains of a placeholder -/

/-- The comment of a placeholder without the line end after it. -/
def Placeholder.body : Placeholder → Text
  | line => "/** javadoc-merge placeholder */".toList
  | inline => "/** javadoc-merge inline placeholder */".toList

theorem Placeholder.comment_eq (placeholder : Placeholder) :
    placeholder.comment = placeholder.body ++ ['\n'] := by
  cases placeholder <;> rfl

/-- The grains of the text of a placeholder. -/
def Placeholder.grains : Placeholder → List Grain
  | line => [(.blockComment, line.body), (.code, ['\n'])]
  | inline => [(.code, ['\n']), (.blockComment, inline.body), (.code, ['\n'])]

theorem grainText_placeholder (placeholder : Placeholder) :
    grainText placeholder.grains = placeholder.text := by
  cases placeholder with
  | line => simp [Placeholder.grains, Placeholder.text, Placeholder.comment_eq]
  | inline => simp [Placeholder.grains, Placeholder.text, Placeholder.comment_eq]

theorem stands_newline (t : Text) : Stands (.code, ['\n']) t :=
  .code (regionAt_eq_code_iff.mpr ⟨by decide, by decide, by simp⟩)

/-- The comment of a placeholder ends with its only closing. -/
theorem Placeholder.exists_body_eq (placeholder : Placeholder) :
    ∃ v, placeholder.body = '/' :: '*' :: (v ++ ['*', '/']) ∧
      ¬ ['*', '/'] <:+: '/' :: '*' :: (v ++ ['*']) := by
  cases placeholder with
  | line =>
    refine ⟨"* javadoc-merge placeholder ".toList, rfl, ?_⟩
    rw [← contains_iff]
    decide
  | inline =>
    refine ⟨"* javadoc-merge inline placeholder ".toList, rfl, ?_⟩
    rw [← contains_iff]
    decide

theorem stands_body (placeholder : Placeholder) (t : Text) :
    Stands (.blockComment, placeholder.body) t := by
  obtain ⟨v, hv, hclose⟩ := placeholder.exists_body_eq
  rw [hv]
  exact stands_block_of_closed (fun h => hclose (infix_cons (infix_cons h))) t

/-- A placeholder is read as such before any text. -/
theorem standing_placeholder (placeholder : Placeholder) (t : Text) :
    Standing placeholder.grains t := by
  cases placeholder with
  | line => exact ⟨stands_body _ _, stands_newline _, trivial⟩
  | inline => exact ⟨stands_newline _, stands_body _ _, stands_newline _, trivial⟩

end DocGraft.Source

namespace DocGraft.Scanner

open List Text Source

variable {a : Text} {gs : List Grain}

/-! ### Removals -/

theorem word_infix_of_hasPlaceholder {comment : Text} (h : hasPlaceholder comment) :
    Placeholder.word <:+: comment := by
  rw [hasPlaceholder, Bool.or_eq_true, contains_iff, contains_iff] at h
  rcases h with h | h
  · exact List.IsInfix.trans (contains_iff.mp (by decide)) h
  · exact List.IsInfix.trans (contains_iff.mp (by decide)) h

/-- What is removed at a segment that stands between two texts. -/
theorem removalAt_append (a b : Text) (g : Grain) :
    removalAt (a ++ (g.2 ++ b)) ⟨g.1, a.length, g.2⟩ =
      if isDocComment (a ++ (g.2 ++ b)) ⟨g.1, a.length, g.2⟩ ∧ !isBanner (commentLine a g.2 b) ∧
          hasPlaceholder (commentLine a g.2 b) then
        some ⟨placeholderStart (a ++ (g.2 ++ b)) (commentLine a g.2 b)
          (lineStart (a ++ (g.2 ++ b)) a.length), a.length + g.2.length + (lineEnd b).length, []⟩
      else none := by
  have hstop : Segment.stop ⟨g.1, a.length, g.2⟩ = a.length + g.2.length := rfl
  have hend : (a.length + g.2.length + if ((a ++ (g.2 ++ b)).drop
      (a.length + g.2.length)).head? = some '\n' then 1 else 0) =
        a.length + g.2.length + (lineEnd b).length := by
    rw [← append_assoc, ← length_append, drop_left, lineEnd]
    split_ifs <;> rfl
  rw [removalAt, hstop, hend]
  simp only [removal?, slice_commentLine, Bool.and_eq_true]
  split_ifs <;> tauto

/-- Nothing is removed where a segment is no block comment, or one without a placeholder. -/
theorem removalAt_eq_none {b : Text} {g : Grain}
    (hg : g.1 = .blockComment → ¬ Placeholder.word <:+: g.2) :
    removalAt (a ++ (g.2 ++ b)) ⟨g.1, a.length, g.2⟩ = none := by
  rw [removalAt_append, if_neg]
  rintro ⟨hdoc, -, hplace⟩
  rw [isDocComment, Bool.and_eq_true, Bool.and_eq_true, decide_eq_true_eq, lineLead_append] at hdoc
  obtain ⟨⟨hblock, -⟩, hlead⟩ := hdoc
  -- Neither the spaces before the comment nor the line end behind it are part of the word.
  refine hg hblock (infix_of_infix_append_right (by decide) ?_
    (infix_of_infix_append_left (by decide) ?_ (word_infix_of_hasPlaceholder hplace)))
  · intro c hc
    rw [lineEnd] at hc
    split_ifs at hc
    · obtain rfl := mem_singleton.mp hc
      decide
    · simp at hc
  · intro c hc
    obtain rfl : c = ' ' := by grind
    decide

/-- The placeholder in a comment at the beginning of a line is removed with the line. -/
theorem removalAt_placeholder (ha : AtLineStart a) (b : Text) (placeholder : Placeholder) :
    removalAt (a ++ (placeholder.body ++ '\n' :: b)) ⟨.blockComment, a.length, placeholder.body⟩ =
      some ⟨placeholderStart (a ++ (placeholder.body ++ '\n' :: b)) placeholder.comment a.length,
        a.length + placeholder.comment.length, []⟩ := by
  have hlead := lead_eq_nil ha
  have hline : commentLine a placeholder.body ('\n' :: b) = placeholder.comment := by
    rw [commentLine, hlead, placeholder.comment_eq]
    rfl
  have hstart : lineStart (a ++ (placeholder.body ++ '\n' :: b)) a.length = a.length := by
    rw [lineStart, lineLead_append, hlead]
    rfl
  have hopen : startsWith "/**".toList placeholder.body = true := by cases placeholder <;> decide
  have hdoc : isDocComment (a ++ (placeholder.body ++ '\n' :: b))
      ⟨.blockComment, a.length, placeholder.body⟩ = true := by
    simp only [isDocComment, lineLead_append, hlead, hopen]
    rfl
  have hbanner : isBanner placeholder.comment = false := by cases placeholder <;> decide
  have hplace : hasPlaceholder placeholder.comment = true := by cases placeholder <;> decide
  have h := removalAt_append a ('\n' :: b) (.blockComment, placeholder.body)
  rw [hline, hstart, hbanner, hplace, if_pos ⟨hdoc, rfl, rfl⟩] at h
  rw [h, placeholder.comment_eq, length_append, ← Nat.add_assoc]
  rfl

/-! ### Cleaning a part of a text -/

/-- The part `m` of a text, with `pre` before it, without its placeholders. -/
def cleaned (pre m : Text) : Text :=
  assemble (pre ++ m) pre.length ((placed pre.length (grains m)).filterMap (removalAt (pre ++ m)))

/-- A grain is no comment with a placeholder. -/
def Plain (g : Grain) : Prop :=
  g.1 = .blockComment → ¬ Placeholder.word <:+: g.2

theorem removalAt_of_plain (h : ∀ g ∈ gs, Plain g) (pre t : Text) :
    (placed pre.length gs).filterMap (removalAt (pre ++ (grainText gs ++ t))) = [] := by
  induction gs generalizing pre with
  | nil => rfl
  | cons g gs ih =>
    have hrest := ih (fun g' hg' => h g' (mem_cons_of_mem _ hg')) (pre ++ g.2)
    rw [length_append, append_assoc] at hrest
    simp [placed, filterMap_cons_none (removalAt_eq_none (h g mem_cons_self)), hrest]

theorem cleaned_plain (h : ∀ g ∈ gs, Plain g) (hgs : Standing gs []) (pre : Text) :
    cleaned pre (grainText gs) = grainText gs := by
  have hnone := removalAt_of_plain h pre []
  rw [append_nil] at hnone
  rw [cleaned, grains_grainText hgs, hnone, assemble, drop_left]

/-- The edit by which a placeholder between grains is taken out. -/
theorem removals_placeholder (placeholder : Placeholder) (ha : placeholder = .line → AtLineStart a)
    (b : Text) :
    (placed a.length placeholder.grains).filterMap
        (removalAt (a ++ (placeholder.text ++ b))) =
      [⟨a.length, a.length + placeholder.text.length, []⟩] := by
  have hcode : ∀ text pos w, removalAt text ⟨.code, pos, w⟩ = none := by
    intro text pos w
    simp [removalAt, isDocComment]
  cases placeholder with
  | line =>
    have hcomment := removalAt_placeholder (ha rfl) b .line
    have hstart : ∀ text n, placeholderStart text Placeholder.line.comment n = n := by
      intro text n
      rw [placeholderStart, if_neg (by decide)]
    rw [hstart] at hcomment
    simp [Placeholder.text, Placeholder.comment_eq, Placeholder.grains, placed, hcomment, hcode]
  | inline =>
    have hcomment := removalAt_placeholder (a := a ++ ['\n']) (atLineStart_concat.mpr rfl) b .inline
    have hstart : ∀ text n, placeholderStart text Placeholder.inline.comment (n + 1) = n := by
      intro text n
      rw [placeholderStart, if_pos (by decide), if_neg (Nat.succ_ne_zero n), Nat.add_sub_cancel]
    rw [length_append, length_singleton, hstart, append_assoc] at hcomment
    have htext : Placeholder.inline.text ++ b =
        ['\n'] ++ (Placeholder.inline.body ++ '\n' :: b) := by
      simp [Placeholder.text, Placeholder.comment_eq]
    rw [htext]
    simp only [Placeholder.grains, placed, filterMap_cons, length_singleton, hcomment,
      hcode, filterMap_nil]
    rw [Placeholder.text, length_cons, Nat.add_assoc, Nat.add_comm 1]

/-- A placeholder between grains is taken out, and what stands before it stays. -/
theorem cleaned_placeholder (h : ∀ g ∈ gs, Plain g) (pre : Text) (placeholder : Placeholder)
    (t : Text) (hgs : Standing gs (placeholder.text ++ t))
    (hline : placeholder = .line → AtLineStart (pre ++ grainText gs)) :
    cleaned pre (grainText gs ++ (placeholder.text ++ t)) =
      grainText gs ++ cleaned (pre ++ (grainText gs ++ placeholder.text)) t := by
  have hgrains : grains (grainText gs ++ (placeholder.text ++ t)) =
      gs ++ (placeholder.grains ++ grains t) := by
    rw [grains_append hgs, ← grainText_placeholder,
      grains_append (standing_placeholder placeholder t)]
  have hremoval := removals_placeholder placeholder hline t
  rw [append_assoc, length_append] at hremoval
  simp [cleaned, hgrains, placed_append, removalAt_of_plain h, hremoval, assemble,
    slice_eq_of_append rfl rfl rfl, grainText_placeholder, Nat.add_assoc]

end DocGraft.Scanner

namespace DocGraft.Source

open List Text Scanner

variable {places : List (Nat × Placeholder)} {region : Region} {t w₁ w₂ : Text} {gs : List Grain}
  {pos : Nat}

/-! ### Placeholders between grains -/

/-- Placeholders stand between the grains from an offset on, and the last of them behind the last
grain. Those on lines of their own stand where lines begin. -/
inductive Parted : (pos : Nat) → List (Nat × Placeholder) → List Grain → Prop
  | nil (pos : Nat) : Parted pos [] []
  | cons {pos : Nat} {places : List (Nat × Placeholder)} {gs hs : List Grain}
      {placeholder : Placeholder} (hgs : ∀ t, Standing gs (placeholder.text ++ t))
      (hline : placeholder = .line → AtLineStart (grainText gs))
      (hrest : Parted (pos + (grainText gs).length) places hs) :
      Parted pos ((pos + (grainText gs).length, placeholder) :: places) (gs ++ hs)

theorem insertFrom_cons (pos : Nat) (placeholder : Placeholder) (places : List (Nat × Placeholder))
    (s t : Text) :
    insertFrom pos ((pos + s.length, placeholder) :: places) (s ++ t) =
      s ++ (placeholder.text ++ insertFrom (pos + s.length) places t) := by
  simp [insertFrom]

theorem atLineStart_append_text (a : Text) (placeholder : Placeholder) :
    AtLineStart (a ++ placeholder.text) := by
  obtain ⟨u, hu⟩ : ∃ u, placeholder.text = u ++ ['\n'] := by
    cases placeholder with
    | line => exact ⟨_, Placeholder.line.comment_eq⟩
    | inline => grind [Placeholder.text, Placeholder.comment_eq]
  rw [hu, ← append_assoc]
  exact atLineStart_concat.mpr rfl

/-- Placeholders between grains are taken out, and what follows them is cleaned as the part of the
text that it is. -/
theorem Parted.cleaned (h : Parted pos places gs) (hplain : ∀ g ∈ gs, Plain g) {pre : Text}
    (hpre : AtLineStart pre) :
    ∃ pre', AtLineStart pre' ∧ ∀ later t,
      Scanner.cleaned pre (insertFrom pos (places ++ later) (grainText gs ++ t)) =
        grainText gs ++
          Scanner.cleaned pre' (insertFrom (pos + (grainText gs).length) later t) := by
  induction h generalizing pre with
  | nil pos => exact ⟨pre, hpre, fun later t => rfl⟩
  | @cons pos places gs hs placeholder hgs hline hrest ih =>
    have hstart : AtLineStart (pre ++ (grainText gs ++ placeholder.text)) :=
      append_assoc pre _ _ ▸ atLineStart_append_text _ _
    obtain ⟨pre', hpre', hcleaned⟩ :=
      ih (fun g hg => hplain g (mem_append_right _ hg)) hstart
    refine ⟨pre', hpre', fun later t => ?_⟩
    rw [grainText_append, append_assoc, cons_append, insertFrom_cons,
      cleaned_placeholder (fun g hg => hplain g (mem_append_left _ hg)) pre placeholder _
        (hgs _) (fun hl => hpre.append (hline hl)), hcleaned, append_assoc,
      length_append, Nat.add_assoc]

theorem Parted.getLast? (h : Parted pos places gs) :
    (places = [] ∧ gs = []) ∨
      ∃ placeholder, places.getLast? = some (pos + (grainText gs).length, placeholder) := by
  induction h with
  | nil pos => exact .inl ⟨rfl, rfl⟩
  | @cons pos places gs hs placeholder hgs hline hrest ih =>
    refine .inr ?_
    rw [grainText_append, length_append, ← Nat.add_assoc, getLast?_cons]
    rcases ih with ⟨rfl, rfl⟩ | ⟨last, hlast⟩
    · exact ⟨placeholder, rfl⟩
    · exact ⟨last, by rw [hlast]; rfl⟩

/-- A placeholder stands between two grains, and where a line begins if it is on a line of its
own. -/
def Apart (gs : List Grain) (place : Nat × Placeholder) : Prop :=
  ∃ as bs, gs = as ++ bs ∧ (grainText as).length = place.1 ∧
    (∀ t, Standing as (place.2.text ++ t)) ∧ (place.2 = .line → AtLineStart (grainText as))

/-- Of two cuts between grains, the one at the smaller offset comes first. -/
theorem exists_between {as bs cs ds : List Grain} (h : as ++ bs = cs ++ ds)
    (hstanding : Standing (as ++ bs) t) (hle : (grainText as).length ≤ (grainText cs).length) :
    ∃ us, cs = as ++ us ∧ bs = us ++ ds := by
  rcases append_eq_append_iff.mp h with ⟨us, hcs, hbs⟩ | ⟨us, rfl, rfl⟩
  · exact ⟨us, hcs, hbs⟩
  · cases us with
    | nil => exact ⟨[], by simp, by simp⟩
    | cons g us =>
      have hpos := length_pos_of_ne_nil
        (standing_append.mp (standing_append.mp hstanding).1).2.1.ne_nil
      grind [grainText_append, grainText_cons]

/-- Placeholders that each stand between two grains, in order, part the grains. -/
theorem exists_parted {done rest : List Grain} (hstanding : Standing (done ++ rest) t)
    (hsorted : places.Pairwise (·.1 < ·.1))
    (hle : ∀ place ∈ places, (grainText done).length ≤ place.1)
    (hapart : ∀ place ∈ places, Apart (done ++ rest) place) :
    ∃ gs hs, rest = gs ++ hs ∧ Parted (grainText done).length places gs := by
  induction places generalizing done rest with
  | nil => exact ⟨[], rest, rfl, .nil _⟩
  | cons place places ih =>
    obtain ⟨p, placeholder⟩ := place
    obtain ⟨hfirst, hlater⟩ := pairwise_cons.mp hsorted
    obtain ⟨as, bs, heq, rfl, has, hline⟩ := hapart _ mem_cons_self
    obtain ⟨us, rfl, rfl⟩ := exists_between heq hstanding (hle _ mem_cons_self)
    rw [← append_assoc] at hstanding hapart
    obtain ⟨gs, hs, rfl, hparted⟩ := ih hstanding hlater
      (fun place hplace => (hfirst place hplace).le)
      (fun place hplace => hapart place (mem_cons_of_mem _ hplace))
    refine ⟨us ++ gs, hs, by simp, ?_⟩
    rw [grainText_append, length_append] at hparted ⊢
    refine .cons (fun t => (standing_append.mp (has t)).2) (fun hl c hc => ?_) hparted
    refine hline hl c ?_
    simp [Option.mem_def.mp hc]

/-! ### Placeholders inside comments and literals -/

/-- A line end inside a comment or a literal comes after its opening. -/
theorem exists_of_opening {opening u : Text} (hopening : '\n' ∉ opening)
    (h : w₁ ++ w₂ = opening ++ u) (hend : w₁.getLast? = some '\n') :
    ∃ u₁, w₁ = opening ++ u₁ ∧ u = u₁ ++ w₂ ∧ u₁.getLast? = some '\n' := by
  rcases append_eq_append_iff.mp h with ⟨v, hv, -⟩ | ⟨u₁, rfl, hu⟩
  · grind
  · grind

theorem blockLength_body (placeholder : Placeholder) (t : Text) :
    blockLength (placeholder.body ++ t) = placeholder.body.length := by
  obtain ⟨v, hv, hclose⟩ := placeholder.exists_body_eq
  have h := blockLength_append_close (v := '/' :: '*' :: v) (by simpa using hclose) t
  rw [hv]
  simpa using h

theorem le_bodyLength_placeholder (hr : region.closing ≠ []) (placeholder : Placeholder)
    (y : Text) : placeholder.body.length ≤ bodyLength region (placeholder.body ++ y) := by
  by_cases hblock : region = .blockComment
  · rw [hblock]
    exact (blockLength_body placeholder y).ge
  · have hbody : ∀ c ∈ placeholder.body, c ∉ ['\\', '"', '\'', '\n'] := by
      have hall : (placeholder.body.all fun c => c ∉ ['\\', '"', '\'', '\n']) = true := by
        cases placeholder <;> decide
      simpa using hall
    have hpass : ∀ c ∈ placeholder.body, c ≠ '\\' ∧ region.closing.head? ≠ some c ∧ c ≠ '\n' := by
      intro c hc
      cases region <;> simp_all [Region.closing, eq_comm (b := c)]
    rw [(measures_bodyLength hr).append fun c hc => ⟨fun _ => (hpass c hc).1, (hpass c hc).2.1,
      fun _ => (hpass c hc).2.2⟩]
    exact Nat.le_add_right _ _

/-- A comment or a literal with a line end inside goes on over a placeholder that is put behind the
line end. -/
theorem le_regionLength_break (h : Stands (region, w₁ ++ w₂) t) (hcode : region ≠ .code)
    (hend : w₁.getLast? = some '\n') (placeholder : Placeholder) (y : Text) :
    regionAt [] (w₁ ++ (placeholder.body ++ y)) = region ∧
      w₁.length + placeholder.body.length ≤
        regionLength region (w₁ ++ (placeholder.body ++ y)) := by
  have hkind : region = .lineComment ∨ region.closing ≠ [] := by
    cases region <;> simp_all [Region.closing]
  have hopening : '\n' ∉ region.opening := fun hmem =>
    absurd (Region.isBlank_of_mem (mem_append_left _ hmem)) (by decide)
  rcases hkind with rfl | hr
  · obtain ⟨u, hu, hn, -⟩ := stands_line_iff.mp h
    obtain ⟨u₁, -, rfl, hlast⟩ := exists_of_opening hopening hu hend
    grind
  · obtain ⟨u, hu, hopen, hlen⟩ := (stands_iff hr).mp h
    obtain ⟨u₁, rfl, rfl, hlast⟩ := exists_of_opening hopening hu hend
    have hbreak := (measures_bodyLength hr).behind_newline hlast (t := w₂ ++ t)
      (by grind) (placeholder.body ++ y)
    constructor
    · refine (regionAt_eq_iff hr).mpr ⟨_, append_assoc .., fun hstring => ?_⟩
      obtain _ | ⟨d, _ | ⟨e, u₁⟩⟩ := u₁
      · simp at hlast
      · obtain rfl : d = '\n' := by simpa using hlast
        simp
      · simpa using hopen hstring
    · have hlong := le_bodyLength_placeholder hr placeholder y
      rw [append_assoc, regionLength_opening, hbreak, length_append]
      omega

theorem exists_stands_break (h : Stands (region, w₁ ++ w₂) t) (hcode : region ≠ .code)
    (hend : w₁.getLast? = some '\n') (placeholder : Placeholder) (y : Text) :
    ∃ x rest, y = x ++ rest ∧ Stands (region, w₁ ++ placeholder.body ++ x) rest := by
  obtain ⟨hregion, hle⟩ := le_regionLength_break h hcode hend placeholder y
  rw [← append_assoc] at hregion hle
  have hne : w₁ ++ placeholder.body ++ y ≠ [] := by
    intro hnil
    grind [append_eq_nil_iff]
  obtain ⟨w, rest, heq, hreads⟩ := exists_reads hne
  rw [hregion] at hreads
  have hlen := hreads.length_eq
  rw [← heq] at hlen
  rw [hlen, ← length_append] at hle
  rcases append_eq_append_iff.mp heq with ⟨x, rfl, hy⟩ | ⟨x, hx, rfl⟩
  · exact ⟨x, rest, hy, .word hcode hreads⟩
  · rw [hx, length_append] at hle
    obtain rfl : x = [] := length_eq_zero_iff.mp (by omega)
    rw [append_nil] at hx
    exact ⟨[], y, rfl, .word hcode (by rwa [hx, append_nil])⟩

end DocGraft.Source

namespace DocGraft.Scanner

open List Text Source

variable {a b text : Text} {c : Char} {n : Nat} {segment : Segment}

theorem prefix_assemble {edits : List Edit} {copied : Nat} (h : ∀ e ∈ edits, n ≤ e.start) :
    slice text copied n <+: assemble text copied edits := by
  cases edits with
  | nil => exact take_prefix _ _
  | cons e edits =>
    have hle := h e mem_cons_self
    rw [assemble, append_assoc]
    exact (take_prefix_take_left (Nat.sub_le_sub_right hle copied)).trans
      (prefix_append _ _)

theorem le_placeholderStart {start : Nat} (h : n < start) (text comment : Text) :
    n ≤ placeholderStart text comment start := by
  rw [placeholderStart]
  split_ifs <;> omega

/-- The line of a documentation comment begins behind every character before the comment that can be
no indentation. -/
theorem lt_lineStart (hspace : c ≠ ' ') (hnewline : c ≠ '\n') (hstart : a.length < segment.start)
    (h : isDocComment (a ++ c :: b) segment) :
    a.length < lineStart (a ++ c :: b) segment.start := by
  rw [isDocComment, Bool.and_eq_true, all_eq_true] at h
  have hspaces := h.2
  rw [lineStart]
  have hlead : (lineLead (a ++ c :: b) segment.start).length ≤ segment.start - (a.length + 1) := by
    rw [lineLead, take_append, take_of_length_le hstart.le,
      show segment.start - a.length = (segment.start - (a.length + 1)) + 1 by omega, take_succ_cons,
      reverse_append, reverse_cons, append_assoc, singleton_append, takeWhile_append] at hspaces ⊢
    split_ifs at hspaces ⊢
    · have hc := hspaces c (by simp [hnewline])
      exact absurd (by simpa using hc) hspace
    · refine (takeWhile_sublist _).length_le.trans ?_
      rw [length_reverse, length_take]
      omega
  omega

theorem le_start_of_removalAt (hspace : c ≠ ' ') (hnewline : c ≠ '\n')
    (hstart : a.length < segment.start) {e : Edit} (h : removalAt (a ++ c :: b) segment = some e) :
    a.length ≤ e.start := by
  simp only [removalAt, removal?, Option.ite_none_right_eq_some, Option.some.injEq] at h
  obtain ⟨hdoc, -, rfl⟩ := h
  exact le_placeholderStart (lt_lineStart hspace hnewline hstart hdoc) _ _

theorem removalAt_eq_none_of_not_doc (h : ¬ isDocComment text segment) :
    removalAt text segment = none :=
  if_neg h

/-- A placeholder that was put behind a line end inside a comment or a literal stays, if that is no
documentation comment. -/
theorem infix_cleaned {gs : List Grain} (hplain : ∀ g ∈ gs, Plain g) {region : Region}
    {w₁ w₂ t : Text} (hstands : Stands (region, w₁ ++ w₂) t) (hcode : region ≠ .code)
    (hend : w₁.getLast? = some '\n') (hgs : ∀ t, Standing gs (w₁ ++ t)) {pre : Text}
    (hlead : region = .blockComment →
      ¬ ((pre ++ grainText gs).reverse.takeWhile (· ≠ '\n')).all (· = ' ')) (y : Text) :
    Placeholder.word <:+: cleaned pre (grainText gs ++ (w₁ ++ (Placeholder.line.text ++ y))) := by
  obtain ⟨x, rest, hx, hbroken⟩ := exists_stands_break hstands hcode hend .line ('\n' :: y)
  have hm : w₁ ++ (Placeholder.line.text ++ y) = w₁ ++ Placeholder.line.body ++ x ++ rest := by
    simp [Placeholder.text, Placeholder.comment_eq, ← hx]
  have hgrains : grains (grainText gs ++ (w₁ ++ (Placeholder.line.text ++ y))) =
      gs ++ (region, w₁ ++ Placeholder.line.body ++ x) :: grains rest := by
    rw [grains_append (hgs _), hm, hbroken.grains]
  obtain ⟨body, hbody, hword⟩ : ∃ body, Placeholder.line.body = body ++ ['/'] ∧
      Placeholder.word <:+: body :=
    ⟨"/** javadoc-merge placeholder *".toList, rfl, contains_iff.mp (by decide)⟩
  -- The text up to the end of the placeholder.
  set a := pre ++ (grainText gs ++ (w₁ ++ body)) with ha
  have hsplit : pre ++ (grainText gs ++ (w₁ ++ (Placeholder.line.text ++ y))) =
      a ++ '/' :: '\n' :: y := by
    grind
  have hnone : removalAt (pre ++ (grainText gs ++ (w₁ ++ (Placeholder.line.text ++ y))))
      ⟨region, pre.length + (grainText gs).length, w₁ ++ Placeholder.line.body ++ x⟩ = none := by
    refine removalAt_eq_none_of_not_doc fun hdoc => ?_
    rw [isDocComment, Bool.and_eq_true, Bool.and_eq_true, decide_eq_true_eq] at hdoc
    refine hlead hdoc.1.1 ?_
    grind [lineLead_append]
  have hlater : ∀ e ∈ (placed pre.length (grains (grainText gs ++ (w₁ ++
      (Placeholder.line.text ++ y))))).filterMap (removalAt (pre ++ (grainText gs ++
        (w₁ ++ (Placeholder.line.text ++ y))))), a.length ≤ e.start := by
    rw [hgrains, placed_append, filterMap_append, removalAt_of_plain hplain, nil_append,
      placed, filterMap_cons_none hnone, hsplit]
    intro e he
    obtain ⟨segment, hsegment, he⟩ := mem_filterMap.mp he
    obtain ⟨as, bs, -, hstart⟩ := mem_placed.mp hsegment
    refine le_start_of_removalAt (by decide) (by decide) ?_ he
    grind
  refine List.IsInfix.trans ?_ (prefix_assemble hlater).isInfix
  rw [hsplit, slice_eq_of_append (s := a ++ '/' :: '\n' :: y) (a := pre)
    (b := grainText gs ++ (w₁ ++ body)) (by simp [ha]; rfl) rfl (by simp [ha])]
  grind

end DocGraft.Scanner
