import DocGraft.Proofs.CandidateOrder
import DocGraft.Proofs.Transparency

/-!
# Sessions with a scanner

In a session a scanner is asked for comments, given replacements and told to finish, in any order.
Whatever the order is, the comments that it has returned lie one behind the other, and so do its
edits: it comes by its candidates once, takes placeholders out on the way, and replaces a comment
only before it goes on. Two removals are apart if each of them takes out just a placeholder, which
is so where no placeholder was put inside a comment or a literal.

The main results are `Source.Parted.removals`, `Scanner.Tidy.nextFrom`, `Scanner.Session.Valid.step`
and `Scanner.Session.finish_run`.
-/

namespace DocGraft.Source

open List Text Scanner

variable {places : List (Nat × Placeholder)}

/-! ### Placeholders as edits -/

/-- The edits that take placeholders out again, where what stands before their places has grown by
`shift`. -/
def insertions : (shift : Nat) → List (Nat × Placeholder) → List Edit
  | _, [] => []
  | shift, (p, placeholder) :: rest =>
    ⟨p + shift, p + shift + placeholder.text.length, []⟩ ::
      insertions (shift + placeholder.text.length) rest

theorem exists_of_mem_insertions {shift : Nat} {e : Edit} (h : e ∈ insertions shift places) :
    ∃ place ∈ places, place.1 + shift ≤ e.start ∧ e.replacement = [] := by
  induction places generalizing shift with
  | nil => simp [insertions] at h
  | cons place places ih =>
    rcases mem_cons.mp h with rfl | h
    · simp
    · grind

/-- Placeholders at different places are taken out from different ranges. -/
theorem pairwise_insertions (h : places.Pairwise (·.1 < ·.1)) (shift : Nat) :
    (insertions shift places).Pairwise (·.stop ≤ ·.start) := by
  induction places generalizing shift with
  | nil => exact .nil
  | cons place places ih =>
    obtain ⟨hfirst, hrest⟩ := pairwise_cons.mp h
    refine pairwise_cons.mpr ⟨fun e he => ?_, ih hrest _⟩
    obtain ⟨other, hmem, hle, -⟩ := exists_of_mem_insertions he
    grind

section Parted

variable {pos shift : Nat} {places : List (Nat × Placeholder)} {gs ts : List Grain} {pre : Text}

theorem length_shifted (h : pre.length = pos + shift) (gs : List Grain)
    (placeholder : Placeholder) : (pre ++ (grainText gs ++ placeholder.text)).length =
      pos + (grainText gs).length + (shift + placeholder.text.length) := by
  simp only [length_append]
  omega

/-- Placeholders between grains are what is removed from a text. -/
theorem Parted.removals (h : Parted pos places gs) (hgs : ∀ g ∈ gs, Plain g)
    (hpre : AtLineStart pre) (hlength : pre.length = pos + shift) (hts : ∀ g ∈ ts, Plain g)
    (hstanding : Standing ts []) :
    (placed pre.length (grains (insertFrom pos places (grainText gs ++ grainText ts)))).filterMap
        (removalAt (pre ++ insertFrom pos places (grainText gs ++ grainText ts))) =
      insertions shift places := by
  induction h generalizing pre shift with
  | nil pos =>
    have hnone := removalAt_of_plain hts pre []
    rw [append_nil] at hnone
    rw [grainText_nil, nil_append, insertFrom, grains_grainText hstanding, hnone]
    rfl
  | @cons pos places gs hs placeholder hstands hline hrest ih =>
    have hbefore := length_shifted hlength gs placeholder
    have hlater := ih (fun g hg => hgs g (mem_append_right _ hg))
      (append_assoc pre _ _ ▸ atLineStart_append_text (pre ++ grainText gs) placeholder) hbefore
    have hremoval := removals_placeholder placeholder (fun hl => hpre.append (hline hl))
      (insertFrom (pos + (grainText gs).length) places (grainText hs ++ grainText ts))
    rw [append_assoc, length_append] at hremoval
    rw [grainText_append, append_assoc, insertFrom_cons]
    generalize insertFrom (pos + (grainText gs).length) places (grainText hs ++ grainText ts) =
      m at *
    have hgrains : grains (grainText gs ++ (placeholder.text ++ m)) =
        gs ++ (placeholder.grains ++ grains m) := by
      rw [grains_append (hstands _), ← grainText_placeholder,
        grains_append (standing_placeholder placeholder m)]
    have hkept := removalAt_of_plain (fun g hg => hgs g (mem_append_left _ hg)) pre
      (placeholder.text ++ m)
    simp only [append_assoc, length_append] at hlater
    rw [hgrains, placed_append, placed_append, filterMap_append, filterMap_append, hkept,
      nil_append, hremoval, singleton_append, insertions, grainText_placeholder,
      Nat.add_assoc pre.length _ placeholder.text.length, hlater]
    congr 2 <;> omega

/-- What is removed at a placeholder is the text of the placeholder. -/
theorem Parted.slice_insertions (h : Parted pos places gs) (hlength : pre.length = pos + shift)
    (t : Text) :
    ∀ e ∈ insertions shift places, ∃ placeholder : Placeholder,
      slice (pre ++ insertFrom pos places (grainText gs ++ t)) e.start e.stop =
        placeholder.text := by
  induction h generalizing pre shift with
  | nil pos => simp [insertions]
  | @cons pos places gs hs placeholder hstands hline hrest ih =>
    have hbefore := length_shifted hlength gs placeholder
    have hlater := ih hbefore
    rw [grainText_append, append_assoc, insertFrom_cons]
    generalize insertFrom (pos + (grainText gs).length) places (grainText hs ++ t) = m at *
    simp only [append_assoc] at hlater
    intro e he
    rcases mem_cons.mp he with rfl | he
    · refine ⟨placeholder, slice_eq_of_append (a := pre ++ grainText gs) (c := m) ?_ ?_ ?_⟩
      · simp
      · simp only [length_append]
        omega
      · rfl
    · exact hlater e he

end Parted

end DocGraft.Source

namespace DocGraft.Scanner

open List Text Source

variable {c : Candidate} {source text : Text}

/-! ### Sessions -/

/-- What can be asked of a scanner. -/
inductive Operation where
  | next
  | localize (key : SignatureKey) (doc : Option LocalizedComment)
  | finish

/-- A scanner with the comments that it has returned, in order. -/
structure Session where
  scanner : Scanner
  returned : List CommentSpan := []

/-- What a session becomes by an operation. A key that is refused changes nothing. -/
def Session.step (synthesize : CommentSpan → LocalizedComment → Synthesis) (session : Session) :
    Operation → Session
  | .next =>
    { scanner := session.scanner.next.scanner
      returned := session.returned ++ session.scanner.next.found.toList.map Prod.fst }
  | .localize key doc =>
    match session.scanner.localize synthesize key doc with
    | .ok (scanner, _) => { session with scanner := scanner }
    | .error _ => session
  | .finish => { session with scanner := session.scanner.finish.2.1 }

/-- What a session becomes by operations one after the other. -/
def Session.run (synthesize : CommentSpan → LocalizedComment → Synthesis) (session : Session)
    (operations : List Operation) : Session :=
  operations.foldl (Session.step synthesize) session

/-! ### What holds in a session -/

/-- An edit puts what `synthesize` makes in the place of one of the comments. -/
def Replaces (synthesize : CommentSpan → LocalizedComment → Synthesis) (returned : List CommentSpan)
    (e : Edit) : Prop :=
  ∃ span ∈ returned, ∃ doc, e = ⟨span.start, span.stop, (synthesize span doc).text⟩ ∧
    (synthesize span doc).text ≠ span.text

/-- A comment is a part of the text that begins where a line begins. -/
structure IsSpan (text : Text) (span : CommentSpan) : Prop where
  text_eq : span.text = slice text span.start span.stop
  /-- It begins where a line begins. -/
  start : AtLineStart (text.take span.start)
  nonempty : span.start < span.stop
  bounded : span.stop ≤ text.length

/-- What holds of a scanner with a text when the candidates `pending` are still to come and the
comments `returned` have been returned; `removed` are all the edits that take out placeholders. -/
structure Tidy (synthesize : CommentSpan → LocalizedComment → Synthesis) (text : Text)
    (removed : List Edit) (returned : List CommentSpan) (pending : List Candidate)
    (scanner : Scanner) : Prop where
  text_eq : scanner.text = text
  chain : pending.IsChain Follows
  lines : ∀ c ∈ pending, Lines text c
  apart : scanner.edits.Pairwise fun e e' =>
    e.replacement ≠ [] ∨ e'.replacement ≠ [] → e.stop ≤ e'.start
  behind : ∀ e ∈ scanner.edits, ∀ c ∈ pending,
    e.stop ≤ c.start ∧ (e.replacement ≠ [] → e.stop < c.start)
  removed_eq : scanner.edits.filter (·.replacement = []) ++ pending.filterMap (removal? text) =
    removed
  replaces : ∀ e ∈ scanner.edits, e.replacement ≠ [] → Replaces synthesize returned e
  count : (scanner.edits.filter (·.replacement ≠ [])).length = scanner.replaced
  spans : ∀ span ∈ returned, IsSpan text span
  ordered : returned.Pairwise (·.stop ≤ ·.start)
  later : ∀ span ∈ returned, ∀ c ∈ pending, span.stop ≤ c.start

/-- Candidates lie behind the one before them, and not right behind it if there is code between. -/
theorem stop_le_start {rest : List Candidate} (hchain : (c :: rest).IsChain Follows)
    (hlines : ∀ d ∈ rest, Lines text d) :
    ∀ d ∈ rest, c.stop ≤ d.start ∧
      ((∀ next ∈ rest.head?, next.codeBefore = true) → c.stop < d.start) := by
  induction rest generalizing c with
  | nil => simp
  | cons d rest ih =>
    obtain ⟨hfollows, hrest⟩ := isChain_cons_cons.mp hchain
    obtain ⟨hd, hlines⟩ := forall_mem_cons.mp hlines
    intro e he
    rcases mem_cons.mp he with rfl | he
    · exact ⟨hfollows.1, fun hcode => hfollows.2 (hcode _ rfl)⟩
    · have hlt : c.stop < e.start :=
        (hfollows.1.trans_lt hd.nonempty).trans_le (ih hrest hlines e he).1
      exact ⟨hlt.le, fun _ => hlt⟩

theorem replacement_of_removal? {e : Edit} (h : removal? text c = some e) :
    e.replacement = [] ∧ e.stop = c.stop ∧ ∀ n, n < c.start → n ≤ e.start := by
  simp only [removal?, Option.ite_none_right_eq_some, Option.some.injEq] at h
  obtain ⟨-, rfl⟩ := h
  exact ⟨rfl, rfl, fun n hn => le_placeholderStart hn _ _⟩

section Tidy

variable {synthesize : CommentSpan → LocalizedComment → Synthesis} {text : Text}
  {removed : List Edit} {returned : List CommentSpan} {c : Candidate} {pending : List Candidate}
  {scanner scanner' : Scanner}

theorem Tidy.pass (h : Tidy synthesize text removed returned (c :: pending) scanner)
    (hnone : removal? text c = none) (htext : scanner'.text = scanner.text)
    (hedits : scanner'.edits = scanner.edits) (hreplaced : scanner'.replaced = scanner.replaced) :
    Tidy synthesize text removed returned pending scanner' where
  text_eq := htext.trans h.text_eq
  chain := h.chain.tail
  lines := fun d hd => h.lines d (mem_cons_of_mem _ hd)
  apart := hedits ▸ h.apart
  behind := hedits ▸ fun e he d hd => h.behind e he d (mem_cons_of_mem _ hd)
  removed_eq := by
    have heq := h.removed_eq
    grind
  replaces := hedits ▸ h.replaces
  count := by rw [hedits, hreplaced, h.count]
  spans := h.spans
  ordered := h.ordered
  later := fun span hspan d hd => h.later span hspan d (mem_cons_of_mem _ hd)

theorem Tidy.remove (h : Tidy synthesize text removed returned (c :: pending) scanner) {e : Edit}
    (hsome : removal? text c = some e) (htext : scanner'.text = scanner.text)
    (hedits : scanner'.edits = scanner.edits ++ [e])
    (hreplaced : scanner'.replaced = scanner.replaced) :
    Tidy synthesize text removed returned pending scanner' := by
  obtain ⟨hempty, hstop, hstart⟩ := replacement_of_removal? hsome
  have hrest : ∀ d ∈ pending, Lines text d := fun d hd => h.lines d (mem_cons_of_mem _ hd)
  refine ⟨htext.trans h.text_eq, h.chain.tail, hrest, ?_, ?_, ?_, ?_, ?_, h.spans, h.ordered,
    fun span hspan d hd => h.later span hspan d (mem_cons_of_mem _ hd)⟩
  · rw [hedits, pairwise_append]
    refine ⟨h.apart, pairwise_singleton _ _, fun e' he' e'' he'' hne => ?_⟩
    obtain rfl := mem_singleton.mp he''
    exact hstart _ ((h.behind e' he' c mem_cons_self).2 (hne.resolve_right (by simp [hempty])))
  · intro e' he' d hd
    rw [hedits, mem_append, mem_singleton] at he'
    rcases he' with he' | rfl
    · exact h.behind e' he' d (mem_cons_of_mem _ hd)
    · rw [hstop]
      exact ⟨(stop_le_start h.chain hrest d hd).1, fun hne => absurd hempty hne⟩
  · have heq := h.removed_eq
    grind
  · intro e' he' hne
    rw [hedits, mem_append, mem_singleton] at he'
    rcases he' with he' | rfl
    · exact h.replaces e' he' hne
    · exact absurd hempty hne
  · rw [hedits, filter_append, hreplaced, ← h.count]
    simp [hempty]

theorem Tidy.give (h : Tidy synthesize text removed returned (c :: pending) scanner)
    (hnone : removal? text c = none) (htext : scanner'.text = scanner.text)
    (hedits : scanner'.edits = scanner.edits) (hreplaced : scanner'.replaced = scanner.replaced)
    (key : Option SignatureKey) :
    Tidy synthesize text removed (returned ++ [⟨slice text c.start c.stop, c.start, c.stop, key⟩])
      pending scanner' := by
  have hpass := h.pass hnone htext hedits hreplaced
  obtain ⟨hstart, hnonempty, hbounded⟩ := h.lines c mem_cons_self
  refine { hpass with replaces := ?_, spans := ?_, ordered := ?_, later := ?_ }
  · intro e he hne
    obtain ⟨span, hspan, hmade⟩ := hpass.replaces e he hne
    exact ⟨span, mem_append_left _ hspan, hmade⟩
  · intro span hspan
    rcases mem_append.mp hspan with hspan | hspan
    · exact h.spans span hspan
    · rw [mem_singleton.mp hspan]
      exact ⟨rfl, hstart, hnonempty, hbounded⟩
  · refine pairwise_append.mpr ⟨h.ordered, pairwise_singleton _ _, fun span hspan s hs => ?_⟩
    rw [mem_singleton.mp hs]
    exact h.later span hspan c mem_cons_self
  · intro span hspan d hd
    rcases mem_append.mp hspan with hspan | hspan
    · exact hpass.later span hspan d hd
    · rw [mem_singleton.mp hspan]
      exact (stop_le_start h.chain hpass.lines d hd).1

/-! ### Going on -/

/-- The current comment has been returned, lies behind all edits, and the candidates do not lie
right behind it. -/
def Replaceable (returned : List CommentSpan) (pending : List Candidate) (scanner : Scanner) :
    Prop :=
  ∀ span ∈ scanner.current, span ∈ returned ∧ (∀ e ∈ scanner.edits, e.stop ≤ span.start) ∧
    ∀ c ∈ pending, span.stop < c.start

/-- Going through candidates keeps a scanner tidy, and the comment that is found can be replaced. -/
theorem Tidy.nextFrom (h : Tidy synthesize text removed returned pending scanner)
    (hcurrent : scanner.current = none) :
    Tidy synthesize text removed
        (returned ++ (nextFrom pending scanner).found.toList.map Prod.fst)
        (nextFrom pending scanner).scanner.pending (nextFrom pending scanner).scanner ∧
      Replaceable (returned ++ (nextFrom pending scanner).found.toList.map Prod.fst)
        (nextFrom pending scanner).scanner.pending (nextFrom pending scanner).scanner ∧
      ((nextFrom pending scanner).found = none →
        (nextFrom pending scanner).scanner.current = none) := by
  fun_induction Scanner.nextFrom pending scanner with
  | case1 =>
    refine ⟨?_, ?_, fun _ => hcurrent⟩
    · simpa using { h with }
    · simp [Replaceable, hcurrent]
  | case2 candidate rest scanner comment hbanner ih =>
    exact ih (h.pass (h.text_eq ▸ removal?_eq_none (.inl hbanner)) rfl rfl rfl) hcurrent
  | case3 candidate rest scanner comment hbanner hplace key resolved notices hresolve
    start step ih =>
    obtain ⟨scope, outer, rfl⟩ := exists_resolve_eq hresolve
    exact ih (h.remove (h.text_eq ▸ removal?_eq_some hbanner hplace) rfl rfl rfl) hcurrent
  | case4 candidate rest scanner comment hbanner hplace hnext ih =>
    exact ih (h.pass (h.text_eq ▸ removal?_eq_none (.inr hplace)) rfl rfl rfl) hcurrent
  | case5 candidate rest scanner comment hbanner hplace hnext resolved notices hresolve step ih =>
    obtain ⟨scope, outer, rfl⟩ := exists_resolve_eq hresolve
    exact ih (h.pass (h.text_eq ▸ removal?_eq_none (.inr hplace)) rfl rfl rfl) hcurrent
  | case6 candidate rest scanner comment hbanner hplace hcode key resolved notices hresolve span =>
    obtain ⟨scope, outer, rfl⟩ := exists_resolve_eq hresolve
    obtain rfl := h.text_eq
    have hnone : removal? scanner.text candidate = none := removal?_eq_none (.inr hplace)
    refine ⟨h.give hnone ?_ ?_ ?_ (some key), ?_, by simp⟩
    iterate 3 rfl
    rintro _ ⟨⟩
    refine ⟨by simp, fun e he => (h.behind e he candidate mem_cons_self).1, fun d hd => ?_⟩
    refine (stop_le_start h.chain (fun d hd => h.lines d (mem_cons_of_mem _ hd)) d hd).2
      fun next hnext => ?_
    by_contra hbefore
    exact hcode ((Option.any_eq_true _ _).mpr ⟨next, hnext, by simpa using hbefore⟩)

theorem Tidy.next (h : Tidy synthesize text removed returned scanner.pending scanner) :
    Tidy synthesize text removed (returned ++ scanner.next.found.toList.map Prod.fst)
        scanner.next.scanner.pending scanner.next.scanner ∧
      Replaceable (returned ++ scanner.next.found.toList.map Prod.fst)
        scanner.next.scanner.pending scanner.next.scanner ∧
      (scanner.next.found = none → scanner.next.scanner.current = none) := by
  have hidle : Tidy synthesize text removed returned scanner.pending
      { scanner with current := none } := { h with }
  exact hidle.nextFrom rfl

theorem Tidy.drain (h : Tidy synthesize text removed returned scanner.pending scanner) {n : Nat}
    (hn : scanner.pending.length < n) :
    (∃ more, Tidy synthesize text removed (returned ++ more) (drain n scanner).1.pending
        (drain n scanner).1) ∧
      (drain n scanner).1.current = none := by
  induction n generalizing scanner returned with
  | zero => omega
  | succ n ih =>
    obtain ⟨hnext, -, hidle⟩ := h.next
    have hless := (nextFrom_pending scanner.pending { scanner with current := none }).2
    rw [Scanner.drain]
    simp only
    split
    · next hfound => exact ⟨⟨_, hnext⟩, hidle hfound⟩
    · next found hfound =>
      have hshorter : scanner.next.scanner.pending.length < n :=
        (hless (Option.isSome_iff_exists.mpr ⟨found, hfound⟩)).trans_le (by omega)
      obtain ⟨⟨more, hmore⟩, hcurrent⟩ := ih hnext hshorter
      grind

theorem edits_drain (scanner : Scanner) :
    (Scanner.drain (scanner.pending.length + 1) scanner).1.edits = scanner.removals := by
  obtain ⟨-, hpending, hremovals⟩ := drain_frame (Nat.lt_succ_self scanner.pending.length)
  rw [← hremovals, removals, hpending, filterMap_nil, append_nil]

/-- Once the rest of the comments has been passed over, no others have been returned. -/
theorem Tidy.drained (h : Tidy synthesize text removed returned scanner.pending scanner) :
    Tidy synthesize text removed returned [] (Scanner.drain (scanner.pending.length + 1)
      scanner).1 := by
  have hn := Nat.lt_succ_self scanner.pending.length
  obtain ⟨⟨more, hmore⟩, -⟩ := h.drain hn
  rw [(drain_frame hn).2.1] at hmore
  refine { hmore with replaces := ?_, spans := h.spans, ordered := h.ordered, later := by simp }
  intro e he hne
  rw [edits_drain, removals, mem_append, mem_filterMap] at he
  rcases he with he | ⟨c, -, hc⟩
  · exact h.replaces e he hne
  · exact absurd (replacement_of_removal? hc).1 hne

end Tidy

/-! ### One operation -/

/-- What holds of a session on a text, whatever has been asked. -/
structure Session.Valid (synthesize : CommentSpan → LocalizedComment → Synthesis) (text : Text)
    (removed : List Edit) (session : Session) : Prop where
  tidy : Tidy synthesize text removed session.returned session.scanner.pending session.scanner
  /-- The current comment can be replaced. -/
  current : Replaceable session.returned session.scanner.pending session.scanner
  finished : ∀ result ∈ session.scanner.result, session.scanner.pending = [] ∧
    session.scanner.current = none ∧ result = assemble text 0 session.scanner.edits

section Operations

variable {synthesize : CommentSpan → LocalizedComment → Synthesis} {text : Text}
  {removed : List Edit} {session : Session} {result : Text}

theorem Session.Valid.next (h : session.Valid synthesize text removed) :
    (session.step synthesize .next).Valid synthesize text removed := by
  obtain ⟨htidy, hcurrent, -⟩ := h.tidy.next
  refine ⟨htidy, hcurrent, fun result hresult => ?_⟩
  have hframe : session.scanner.next.scanner.result = session.scanner.result :=
    (advance_frame session.scanner).2.1
  obtain ⟨hpending, -, hassembled⟩ := h.finished result (hframe ▸ hresult)
  have hidle : session.scanner.next =
      ⟨none, { session.scanner with current := none, pending := [] }, []⟩ := by
    rw [Scanner.next, hpending]
    rfl
  rw [Session.step, hidle]
  exact ⟨rfl, rfl, hassembled⟩

/-- The current comment is replaced behind all edits. -/
theorem Tidy.replace {returned : List CommentSpan} {scanner : Scanner} {span : CommentSpan}
    {doc : LocalizedComment}
    (h : Tidy synthesize text removed returned scanner.pending scanner)
    (hcurrent : Replaceable returned scanner.pending scanner) (hspan : span ∈ scanner.current)
    (hnonempty : (synthesize span doc).text ≠ [])
      (hdifferent : (synthesize span doc).text ≠ span.text) :
    Tidy synthesize text removed returned scanner.pending
      { { scanner with current := none }.edit span.start span.stop (synthesize span doc).text with
        replaced := scanner.replaced + 1 } := by
  obtain ⟨hmem, hbefore, hafter⟩ := hcurrent span hspan
  refine { h with apart := ?_, behind := ?_, removed_eq := ?_, replaces := ?_, count := ?_ }
  · refine pairwise_append.mpr ⟨h.apart, pairwise_singleton _ _, fun e he e' he' _ => ?_⟩
    grind
  · intro e he c hc
    rcases mem_append.mp he with he | he
    · exact h.behind e he c hc
    · grind
  · rw [← h.removed_eq]
    simp [edit, hnonempty]
  · intro e he hne
    rcases mem_append.mp he with he | he
    · exact h.replaces e he hne
    · rw [mem_singleton.mp he]
      exact ⟨span, hmem, doc, rfl, hdifferent⟩
  · simp [edit, hnonempty, ← h.count]

theorem Session.Valid.localize (h : session.Valid synthesize text removed) (key : SignatureKey)
    (doc : Option LocalizedComment) :
    (session.step synthesize (.localize key doc)).Valid synthesize text removed := by
  cases hspan : session.scanner.current with
  | none =>
    have hsame : session.step synthesize (.localize key doc) = session := by
      cases doc <;> simp only [Session.step, Scanner.localize, hspan]
    rwa [hsame]
  | some span =>
    -- With a current comment the result has not been put together.
    have hresult : session.scanner.result = none := by
      by_contra hsome
      obtain ⟨result, hresult⟩ := Option.ne_none_iff_exists'.mp hsome
      have hidle := (h.finished result hresult).2.1
      rw [hspan] at hidle
      cases hidle
    cases doc with
    | none =>
      have hsame : session.step synthesize (.localize key none) = session := rfl
      rwa [hsame]
    | some doc =>
      simp only [Session.step, Scanner.localize, hspan]
      by_cases hkey : key.same (span.key.getD key)
      · rw [if_pos hkey]
        by_cases hkept : (synthesize span doc).text = [] ∨ (synthesize span doc).text = span.text
        · rw [if_pos hkept]
          refine ⟨{ h.tidy with }, by simp [Replaceable], ?_⟩
          simp [hresult]
        · rw [if_neg hkept]
          rw [not_or] at hkept
          refine ⟨h.tidy.replace h.current hspan hkept.1 hkept.2, by simp [Replaceable, edit], ?_⟩
          simp [edit, hresult]
      · rw [if_neg hkey]
        exact h

theorem Session.Valid.finish (h : session.Valid synthesize text removed) :
    (session.step synthesize .finish).Valid synthesize text removed := by
  cases hresult : session.scanner.result with
  | some result =>
    have hsame : session.step synthesize .finish = session := by
      simp only [Session.step, Scanner.finish, hresult]
    rwa [hsame]
  | none =>
    have hn := Nat.lt_succ_self session.scanner.pending.length
    have hdrained := h.tidy.drained
    have hcurrent := (h.tidy.drain hn).2
    have hpending := (drain_frame hn).2.1
    simp only [Session.step, Scanner.finish, hresult]
    refine ⟨?_, ?_, ?_⟩
    · simp only [hpending]
      exact { hdrained with }
    · simp [Replaceable, hcurrent]
    · grind [hdrained.text_eq]

theorem Session.Valid.step (h : session.Valid synthesize text removed) (operation : Operation) :
    (session.step synthesize operation).Valid synthesize text removed := by
  cases operation with
  | next => exact h.next
  | localize key doc => exact h.localize key doc
  | finish => exact h.finish

/-! ### Whole sessions -/

theorem Session.Valid.run (h : session.Valid synthesize text removed)
    (operations : List Operation) :
    (session.run synthesize operations).Valid synthesize text removed := by
  induction operations generalizing session with
  | nil => exact h
  | cons operation operations ih => exact ih (h.step operation)

/-- The result stays once it has been put together. -/
theorem Session.result_step (h : session.scanner.result = some result)
    (hvalid : session.Valid synthesize text removed) (operation : Operation) :
    (session.step synthesize operation).scanner.result = some result := by
  cases operation with
  | next => exact (advance_frame session.scanner).2.1.trans h
  | localize key doc =>
    have hidle := (hvalid.finished result h).2.1
    simp only [Session.step, Scanner.localize, hidle]
    cases doc <;> exact h
  | finish => simp only [Session.step, Scanner.finish, h]

theorem Session.result_run (h : session.scanner.result = some result)
    (hvalid : session.Valid synthesize text removed) (operations : List Operation) :
    (session.run synthesize operations).scanner.result = some result := by
  induction operations generalizing session with
  | nil => exact h
  | cons operation operations ih =>
    exact ih (result_step h hvalid operation) (hvalid.step operation)

/-- The placeholders still to come are no replacements. -/
theorem filter_removals (scanner : Scanner) :
    scanner.removals.filter (·.replacement ≠ []) = scanner.edits.filter (·.replacement ≠ []) := by
  have hnone : (scanner.pending.filterMap (removal? scanner.text)).filter (·.replacement ≠ []) =
      [] := by
    rw [filter_eq_nil_iff]
    intro e he
    obtain ⟨c, -, hc⟩ := mem_filterMap.mp he
    simp [(replacement_of_removal? hc).1]
  rw [removals, filter_append, hnone, append_nil]

/-- The text that has been put together has the edits that there are and those to come. -/
theorem Session.Valid.exists_edits (h : session.Valid synthesize text removed) :
    ∃ edits, session.scanner.finish.1 = assemble text 0 edits ∧
      edits.filter (·.replacement = []) = removed ∧
      (edits.Pairwise fun e e' => e.replacement ≠ [] ∨ e'.replacement ≠ [] → e.stop ≤ e'.start) ∧
      (∀ e ∈ edits, e.replacement ≠ [] → Replaces synthesize session.returned e) ∧
      (edits.filter (·.replacement ≠ [])).length = session.scanner.replaced := by
  cases hresult : session.scanner.result with
  | some result =>
    obtain ⟨hpending, -, rfl⟩ := h.finished result hresult
    have hremoved := h.tidy.removed_eq
    rw [hpending, filterMap_nil, append_nil] at hremoved
    refine ⟨_, ?_, hremoved, h.tidy.apart, h.tidy.replaces, h.tidy.count⟩
    simp only [Scanner.finish, hresult]
  | none =>
    have hdrained := h.tidy.drained
    have hremoved := hdrained.removed_eq
    have hapart := hdrained.apart
    have hreplaces := hdrained.replaces
    rw [filterMap_nil, append_nil] at hremoved
    rw [edits_drain] at hremoved hapart hreplaces
    refine ⟨_, ?_, hremoved, hapart, hreplaces, ?_⟩
    · rw [finish_eq hresult, h.tidy.text_eq]
    · rw [filter_removals, h.tidy.count]

end Operations

theorem Session.valid_start (synthesize : CommentSpan → LocalizedComment → Synthesis)
    (source className : Text) (kind : TypeKind) :
    Session.Valid synthesize (insertPlaceholders source) (start source className kind).removals
      { scanner := start source className kind } := by
  obtain ⟨hchain, hlines⟩ := isChain_candidates (insertPlaceholders source)
  refine ⟨?_, by simp [Replaceable, start], by simp [start]⟩
  exact {
    text_eq := rfl
    chain := hchain
    lines := hlines
    apart := .nil
    behind := by simp [start]
    removed_eq := rfl
    replaces := by simp [start]
    count := rfl
    spans := by simp
    ordered := .nil
    later := by simp }

/-! ### Sessions on a source -/

/-- A text without the word of placeholders has no comments with it. -/
theorem plain_of_contains (h : contains Placeholder.word source = false) :
    ∀ g ∈ grains source, Plain g := by
  rintro g hg - hin
  obtain ⟨as, bs, hgs⟩ := append_of_mem hg
  have hword : Placeholder.word <:+: source := by
    refine hin.trans ⟨grainText as, grainText bs, ?_⟩
    simp [eq_of_grains_eq hgs]
  rw [← contains_iff, h] at hword
  cases hword

/-- Where no placeholder breaks into a comment or a literal, just the placeholders are removed. -/
theorem removals_start_of_unbroken (hplain : ∀ g ∈ grains source, Plain g)
    (hunbroken : ∀ place ∈ placeholders source, Unbroken source place) (className : Text)
    (kind : TypeKind) :
    (start source className kind).removals = insertions 0 (placeholders source) ∧
      ∀ e ∈ insertions 0 (placeholders source), ∃ placeholder : Placeholder,
        slice (insertPlaceholders source) e.start e.stop = placeholder.text := by
  obtain ⟨gs, ts, hgs, hparted⟩ := exists_parted_of_unbroken (append_nil _).symm hunbroken
  have htext := eq_of_grains_eq hgs
  rw [hgs] at hplain
  have hstanding : Standing ts [] := (standing_append.mp (hgs ▸ standing_grains source)).2
  have hzero : ([] : Text).length = 0 + 0 := rfl
  have hremovals := hparted.removals (fun g hg => hplain g (mem_append_left _ hg))
    atLineStart_nil hzero (fun g hg => hplain g (mem_append_right _ hg)) hstanding
  have hslices := hparted.slice_insertions hzero (grainText ts)
  rw [← htext, nil_append] at hremovals hslices
  exact ⟨(removals_start source className kind).trans hremovals, hslices⟩

/-- **Sessions are ordered edits.** Whatever is asked of a scanner in a session on a source, the
comments that it returns are parts of its text at the beginnings of lines, one behind the other. The
result is the text with edits: replacements of returned comments, which are counted, and removals,
from which the replacements are apart. If every placeholder on a line of its own stands behind a
line end of code, all edits are apart and the removals take out just the placeholders. A refused key
changes nothing, and neither does anything the result once there is one. -/
theorem Session.finish_run {source : Text}
    (hword : contains "javadoc-merge".toList source = false) (className : Text) (kind : TypeKind)
    (synthesize : CommentSpan → LocalizedComment → Synthesis) (operations : List Operation)
    {session : Session}
    (hsession : session = Session.run synthesize { scanner := start source className kind }
      operations) :
    (∀ span ∈ session.returned, IsSpan (insertPlaceholders source) span) ∧
      session.returned.Pairwise (·.stop ≤ ·.start) ∧
      (∃ edits, session.scanner.finish.1 = assemble (insertPlaceholders source) 0 edits ∧
        (∀ e ∈ edits, e.replacement ≠ [] → Replaces synthesize session.returned e) ∧
        (edits.filter (·.replacement ≠ [])).length = session.scanner.replaced ∧
        (edits.Pairwise fun e e' => e.replacement ≠ [] ∨ e'.replacement ≠ [] → e.stop ≤ e'.start) ∧
        ((∀ p, (p, .line) ∈ placeholders source → p ≠ 0 → p - 1 ∈ codeOffsets source) →
          edits.Pairwise (·.stop ≤ ·.start) ∧
            edits.filter (·.replacement = []) = insertions 0 (placeholders source) ∧
            ∀ e ∈ edits, e.replacement = [] → ∃ placeholder : Placeholder,
              slice (insertPlaceholders source) e.start e.stop = placeholder.text)) ∧
      (∀ key doc error, session.scanner.localize synthesize key doc = .error error →
        session.step synthesize (.localize key doc) = session) ∧
      ∀ later, (Session.run synthesize (session.step synthesize .finish) later).scanner.finish.1 =
        session.scanner.finish.1 := by
  have hvalid := (Session.valid_start synthesize source className kind).run operations
  rw [← hsession] at hvalid
  obtain ⟨edits, hfinish, hremoved, hapart, hreplaces, hcount⟩ := hvalid.exists_edits
  refine ⟨hvalid.tidy.spans, hvalid.tidy.ordered,
    ⟨edits, hfinish, hreplaces, hcount, hapart, fun hplaces => ?_⟩, fun key doc error herror => ?_,
    fun later => ?_⟩
  · have hunbroken : ∀ place ∈ placeholders source, Unbroken source place := by
      rintro ⟨p, placeholder⟩ hmem hline hp
      obtain rfl : placeholder = .line := hline
      exact hplaces p hmem hp
    obtain ⟨hremovals, hslices⟩ :=
      removals_start_of_unbroken (plain_of_contains hword) hunbroken className kind
    rw [hremovals] at hremoved
    refine ⟨?_, hremoved, fun e he hempty => hslices e ?_⟩
    · -- Two removals are apart as placeholders, all other pairs by the session.
      have hplaceholders := pairwise_insertions (sorted_placeholders source) 0
      rw [← hremoved, List.pairwise_filter] at hplaceholders
      refine (hapart.and hplaceholders).imp fun {e e'} h => ?_
      by_cases hempty : e.replacement = [] ∧ e'.replacement = []
      · grind
      · exact h.1 (by tauto)
    · grind
  · simp only [Session.step, herror]
  · have hresult : (session.step synthesize .finish).scanner.result =
        some session.scanner.finish.1 := by
      simp only [Session.step, Scanner.finish]
      cases hresult : session.scanner.result with
      | none => rfl
      | some result => exact hresult
    have hkept := Session.result_run hresult hvalid.finish later
    simp only [Scanner.finish, hkept]

/-- Two documented fields, with placeholders before the classes around and between them. -/
private def sessionSource : Text :=
  ("class A \x7b\n /** a */\n int x; class B \x7b\x7d\n /** b */\n int y;\n class C \x7b\x7d\n" ++
    "\x7d\n").toList

/-- Both comments are asked for and the second one is replaced, also with the key of the first one
and once more after the end. -/
private def sessionOperations : List Operation :=
  [.next, .next, .localize ⟨"A".toList, "x".toList, [], false⟩ (some {}),
    .localize ⟨"A".toList, "y".toList, [], false⟩ (some {}), .finish, .next,
    .localize ⟨"A".toList, "y".toList, [], false⟩ (some {})]

private def sampleSession : Session :=
  Session.run (fun _ _ => { text := " /** c */\n".toList })
    { scanner := start sessionSource "A".toList .classType } sessionOperations

set_option maxRecDepth 4000 in
theorem Session.finish_run_two_comments :
    contains "javadoc-merge".toList sessionSource = false ∧
      placeholders sessionSource = [(0, .line), (28, .inline), (57, .line)] ∧
      sampleSession.returned.map (·.text) = [" /** a */\n".toList, " /** b */\n".toList] ∧
      sampleSession.returned.Pairwise (·.stop ≤ ·.start) ∧
      (∃ edits, sampleSession.scanner.finish.1 =
        assemble (insertPlaceholders sessionSource) 0 edits ∧
        (edits.filter (·.replacement ≠ [])).length = 1 ∧ edits.Pairwise (·.stop ≤ ·.start) ∧
        edits.filter (·.replacement = []) =
          insertions 0 [(0, .line), (28, .inline), (57, .line)]) ∧
      sampleSession.scanner.finish.1 = ("class A \x7b\n /** a */\n int x; class B \x7b\x7d\n" ++
        " /** c */\n int y;\n class C \x7b\x7d\n\x7d\n").toList := by
  have hword : contains "javadoc-merge".toList sessionSource = false := by decide +kernel
  have hplaces : placeholders sessionSource = [(0, .line), (28, .inline), (57, .line)] := by
    decide +kernel
  have hcode : ∀ p, (p, .line) ∈ placeholders sessionSource → p ≠ 0 →
      p - 1 ∈ codeOffsets sessionSource := by
    intro p hp hpos
    rw [hplaces] at hp
    obtain rfl : p = 57 := by simpa [hpos] using hp
    decide +kernel
  have hcount : sampleSession.scanner.replaced = 1 := by decide +kernel
  obtain ⟨-, hordered, ⟨edits, hfinish, -, hreplaced, -, hedits⟩, -⟩ := Session.finish_run hword
    "A".toList .classType (fun _ _ => { text := " /** c */\n".toList }) sessionOperations
    (rfl : sampleSession = _)
  obtain ⟨hapart, hremoved, -⟩ := hedits hcode
  rw [hplaces] at hremoved
  exact ⟨hword, hplaces, by decide +kernel, hordered, ⟨edits, hfinish, hreplaced.trans hcount,
    hapart,
    hremoved⟩, by decide +kernel⟩

/-- The first placeholder is put into a comment and closes it. So a text block is opened early, the
next one begins in its stead a comment, and that is removed with the placeholder in it. -/
private def lostSource : Text :=
  ("class A \x7b\n int x; /*\n \"\"\" */ class B \x7b\x7d\n String s = \"\"\"\n" ++
    " /** foo\n \"\"\"; class C \x7b\x7d\n\x7d\n").toList

set_option maxRecDepth 4000 in
theorem Session.finish_loses_code :
    contains "javadoc-merge".toList lostSource = false ∧
      contains "foo".toList lostSource = true ∧
      contains "foo".toList (start lostSource "A".toList .classType).finish.1 = false ∧
      (start lostSource "A".toList .classType).finish.2.1.replaced = 0 := by
  decide +kernel

end DocGraft.Scanner
