import DocGraft.Proofs.CandidateOrder

/-!
# Runs of comments

Documentation comments with nothing but white space and other comments between them form a run,
which belongs to the declaration behind it. A scanner looks one comment ahead: it passes over a
comment with another one of its run behind it, whatever that other one is. So of a run just the last
comment can be found, and it is found unless it is a banner or a placeholder. A banner at the end of
a run hides the comments before it.

The main results are `Scanner.exists_found_iff` and `Scanner.found_iff_last_of_run`.
-/

namespace DocGraft.Scanner

open List Text Source

variable {front rest tail : List Candidate} {text : Text}

/-! ### Candidates of segments -/

/-- Whether a segment is code that is not white space, or a literal. -/
def holdsCode (segment : Segment) : Bool :=
  !segment.region.isComment && !allBlank segment.text

/-- The candidate of a documentation comment. -/
def candidateOf (text : Text) (codeBefore : Bool) (segment : Segment) : Candidate where
  start := lineStart text segment.start
  commentStop := segment.stop
  stop := segment.stop + if (text.drop segment.stop).head? = some '\n' then 1 else 0
  codeBefore := codeBefore

/-- Whether code has been met since the last documentation comment. -/
def codeSince (text : Text) : (codeBefore : Bool) → List Segment → Bool
  | codeBefore, [] => codeBefore
  | codeBefore, segment :: rest =>
    if isDocComment text segment then codeSince text false rest
    else codeSince text (codeBefore || holdsCode segment) rest

theorem candidatesFrom_segment (text : Text) (codeBefore : Bool) (segment : Segment)
    (rest : List Segment) :
    candidatesFrom text codeBefore (segment :: rest) =
      if isDocComment text segment then
        candidateOf text codeBefore segment :: candidatesFrom text false rest
      else candidatesFrom text (codeBefore || holdsCode segment) rest :=
  rfl

theorem candidatesFrom_append (text : Text) (codeBefore : Bool) (as bs : List Segment) :
    candidatesFrom text codeBefore (as ++ bs) =
      candidatesFrom text codeBefore as ++
        candidatesFrom text (codeSince text codeBefore as) bs := by
  induction as generalizing codeBefore with
  | nil => rfl
  | cons segment as ih =>
    rw [cons_append, candidatesFrom_segment, candidatesFrom_segment, codeSince]
    grind

/-- Behind code the first candidate has code before it. -/
theorem codeBefore_of_holdsCode {segments : List Segment}
    (h : ∀ segment ∈ segments.head?, holdsCode segment = true) (codeBefore : Bool) :
    ∀ next ∈ (candidatesFrom text codeBefore segments).head?, next.codeBefore = true := by
  have hmain : ∀ segments : List Segment,
      ∀ next ∈ (candidatesFrom text true segments).head?, next.codeBefore = true := by
    intro segments
    induction segments with
    | nil => simp [candidatesFrom]
    | cons segment segments ih =>
      rw [candidatesFrom_segment]
      split_ifs
      · rintro next ⟨⟩
        rfl
      · exact ih
  cases segments with
  | nil => simp [candidatesFrom]
  | cons segment segments =>
    have hcode : holdsCode segment = true := h segment rfl
    have hdoc : isDocComment text segment = false := by
      by_contra hdoc
      have hblock : segment.region = .blockComment := by
        simp only [isDocComment, Bool.and_eq_true, decide_eq_true_eq, Bool.not_eq_false] at hdoc
        exact hdoc.1.1
      rw [holdsCode, hblock] at hcode
      cases hcode
    rw [candidatesFrom_segment, hdoc, hcode, Bool.or_true]
    exact hmain segments

/-- The candidates among segments without code: only the first of them can have code before it. -/
theorem candidatesFrom_run {run : List Segment} (h : ∀ segment ∈ run, holdsCode segment = false)
    (codeBefore : Bool) :
    candidatesFrom text codeBefore run =
      ((run.filter (isDocComment text)).head?.map (candidateOf text codeBefore)).toList ++
        (run.filter (isDocComment text)).tail.map (candidateOf text false) := by
  induction run generalizing codeBefore with
  | nil => rfl
  | cons segment run ih =>
    obtain ⟨hsegment, hrun⟩ := forall_mem_cons.mp h
    rw [candidatesFrom_segment, hsegment, Bool.or_false]
    split_ifs with hdoc
    · rw [filter_cons_of_pos hdoc, ih hrun]
      cases run.filter (isDocComment text) with
      | nil => rfl
      | cons d ds => rfl
    · rw [filter_cons_of_neg hdoc, ih hrun]

/-! ### One comment after the other -/

/-- The key of the declaration behind the last of some candidates, for a scanner that goes past the
others. -/
def keyBehind : List Candidate → Scanner → Option SignatureKey
  | [], _ => none
  | [candidate], scanner => (scanner.resolve candidate).1
  | candidate :: next :: rest, scanner =>
    keyBehind (next :: rest) (scanner.pass (!next.codeBefore) candidate)

theorem findings_pending (scanner : Scanner) :
    findings scanner.pending scanner =
      match scanner.next.found with
      | none => []
      | some found => found :: findings scanner.advance.pending scanner.advance := by
  rw [(alike_idle scanner).findings]
  exact findings_eq _ _

/-- The comments found are those that going on again and again finds. -/
theorem exists_found_iff (scanner : Scanner) (found : CommentSpan × SignatureKey) :
    (∃ n, (advance^[n] scanner).next.found = some found) ↔
      found ∈ findings scanner.pending scanner := by
  constructor
  · rintro ⟨n, hn⟩
    induction n generalizing scanner with
    | zero =>
      rw [Function.iterate_zero_apply] at hn
      rw [findings_pending, hn]
      exact mem_cons_self
    | succ n ih =>
      rw [Function.iterate_succ_apply] at hn
      have hmem := ih scanner.advance hn
      rw [findings_pending]
      cases hfound : scanner.next.found with
      | some first => exact mem_cons_of_mem first hmem
      | none =>
        -- Nothing is pending once nothing has been found.
        have hnil : scanner.advance.pending = [] :=
          (nextFrom_pending scanner.pending { scanner with current := none }).1 hfound
        rw [hnil] at hmem
        cases hmem
  · intro hmem
    induction hlength :
      scanner.pending.length using Nat.strong_induction_on generalizing scanner with
    | _ length ih =>
      rw [findings_pending] at hmem
      cases hfound : scanner.next.found with
      | none => simp [hfound] at hmem
      | some first =>
        rw [hfound] at hmem
        rcases mem_cons.mp hmem with rfl | hmem
        · exact ⟨0, hfound⟩
        · have hless : scanner.advance.pending.length < length := by
            rw [← hlength]
            exact (nextFrom_pending scanner.pending { scanner with current := none }).2
              (Option.isSome_iff_exists.mpr ⟨first, hfound⟩)
          obtain ⟨n, hn⟩ := ih _ hless scanner.advance hmem rfl
          exact ⟨n + 1, hn⟩

/-! ### The place of a comment that is found -/

/-- A proper comment that is not superseded is found with the key of the declaration behind it. -/
theorem mem_findings_of_keyBehind {last : Candidate} {scanner : Scanner}
    (hproper : isProper scanner.text last = true) (hrest : isSuperseded rest = false)
    {key : SignatureKey} (hkey : keyBehind (front ++ [last]) scanner = some key) :
    (spanOf scanner.text last key, key) ∈ findings (front ++ last :: rest) scanner := by
  induction front generalizing scanner with
  | nil =>
    have hresolve : (scanner.resolve last).1 = some key := hkey
    simp [findings, hproper, hrest, hresolve]
  | cons candidate front ih =>
    obtain ⟨next, others, hothers⟩ : ∃ next others, front ++ [last] = next :: others :=
      exists_cons_of_ne_nil (by simp)
    have hsuperseded : isSuperseded (front ++ last :: rest) = !next.codeBefore := by
      have hsplit : front ++ last :: rest = next :: (others ++ rest) := by
        grind
      rw [hsplit]
      rfl
    rw [cons_append, hothers, keyBehind, ← hothers] at hkey
    have hmem := ih (by simpa using hproper) hkey
    rw [pass_text] at hmem
    rw [cons_append, findings, hsuperseded]
    exact mem_append_right _ hmem

/-- A comment that is found has no other comment of its run behind it. -/
theorem exists_of_mem_findings {candidates : List Candidate} {scanner : Scanner}
    {found : CommentSpan × SignatureKey} (h : found ∈ findings candidates scanner) :
    ∃ front candidate rest, candidates = front ++ candidate :: rest ∧
      found.1.start = candidate.start ∧ isSuperseded rest = false := by
  induction candidates generalizing scanner with
  | nil => simp [findings] at h
  | cons candidate rest ih =>
    rw [findings, mem_append] at h
    rcases h with h | h
    · split_ifs at h with hown
      · rw [Bool.and_eq_true, Bool.not_eq_true'] at hown
        obtain ⟨key, -, rfl⟩ : ∃ key, (scanner.resolve candidate).1 = some key ∧
            (spanOf scanner.text candidate key, key) = found := by
          simpa using h
        exact ⟨[], candidate, rest, rfl, rfl, hown.2⟩
      · simp at h
    · grind

/-- Candidates of a text begin one behind the other. -/
theorem pairwise_start_candidates (text : Text) :
    (candidates text).Pairwise fun c d => c.start < d.start := by
  obtain ⟨hchain, hlines⟩ := isChain_candidates text
  have hless : (candidates text).IsChain fun c d => c.start < d.start := by
    refine hchain.imp_of_mem_imp fun c d hc _ hfollows => ?_
    exact (hlines c hc).nonempty.trans_le hfollows.1
  exact isChain_iff_pairwise.mp hless

/-- Where candidates begin one behind the other, what follows one of them is known by its start. -/
theorem eq_of_start_eq {front' rest' : List Candidate} {c d : Candidate}
    (hsorted : (front ++ c :: rest).Pairwise fun c d => c.start < d.start)
    (h : front ++ c :: rest = front' ++ d :: rest') (hstart : c.start = d.start) :
    rest = rest' := by
  rcases append_eq_append_iff.mp h with ⟨as, hfront, hrest⟩ | ⟨as, hfront, hrest⟩
  · cases as with
    | nil => exact (List.cons.inj hrest).2
    | cons a as =>
      obtain ⟨-, rfl⟩ := List.cons.inj hrest
      grind
  · cases as with
    | nil => exact (List.cons.inj hrest).2.symm
    | cons a as =>
      obtain ⟨rfl, -⟩ := List.cons.inj hrest
      grind

/-! ### Runs -/

/-- A comment of a run among the candidates of its stretch. -/
theorem exists_candidatesFrom_run {stretch : List Segment}
    (h : ∀ segment ∈ stretch, holdsCode segment = false) {comment : Candidate}
    (hrun : (stretch.filter (isDocComment text)).map (candidateOf text false) =
      front ++ comment :: tail)
    (codeBefore : Bool) :
    ∃ front' flag, candidatesFrom text codeBefore stretch =
      front' ++ { comment with codeBefore := flag } :: tail := by
  rw [candidatesFrom_run h]
  cases hdocs : stretch.filter (isDocComment text) with
  | nil => simp [hdocs] at hrun
  | cons doc docs =>
    rw [hdocs, map_cons] at hrun
    cases front with
    | nil =>
      obtain ⟨rfl, rfl⟩ := List.cons.inj hrun
      exact ⟨[], codeBefore, rfl⟩
    | cons first front =>
      refine ⟨candidateOf text codeBefore doc :: front, comment.codeBefore, ?_⟩
      have htail : docs.map (candidateOf text false) = front ++ comment :: tail :=
        (List.cons.inj hrun).2
      simp [htail]

/-- No comment of a run but the first one has code before it. -/
theorem codeBefore_of_mem_run {docs : List Segment}
    (h : docs.map (candidateOf text false) = front ++ tail) :
    ∀ candidate ∈ tail, candidate.codeBefore = false := by
  intro candidate hcandidate
  have hmem : candidate ∈ docs.map (candidateOf text false) := by
    grind
  obtain ⟨doc, -, rfl⟩ := mem_map.mp hmem
  rfl

theorem isSuperseded_eq_false (h : ∀ next ∈ rest.head?, next.codeBefore = true) :
    isSuperseded rest = false := by
  rw [isSuperseded, Option.any_eq_false]
  intro next hnext
  simp [h next hnext]

/-- Among candidates that begin one behind the other, a proper comment is found exactly if the rest
of its run, `tail`, is empty. -/
theorem mem_findings_iff (scanner : Scanner) {passed : List Candidate} {comment : Candidate}
    (hsorted : (passed ++ comment :: (tail ++ rest)).Pairwise fun c d => c.start < d.start)
    (htail : ∀ candidate ∈ tail, candidate.codeBefore = false)
    (hrest : ∀ next ∈ rest.head?, next.codeBefore = true)
    (hproper : isProper scanner.text comment = true) {key : SignatureKey}
    (hkey : keyBehind (passed ++ comment :: tail) scanner = some key) :
    (spanOf scanner.text comment key, key) ∈
      findings (passed ++ comment :: (tail ++ rest)) scanner ↔
      tail = [] := by
  constructor
  · intro hmem
    obtain ⟨front, found, behind, hsplit, hstart, hnext⟩ := exists_of_mem_findings hmem
    obtain rfl := eq_of_start_eq hsorted hsplit hstart
    cases tail with
    | nil => rfl
    | cons next tail => grind [isSuperseded]
  · rintro rfl
    exact mem_findings_of_keyBehind hproper (isSuperseded_eq_false hrest) hkey

/-- **The last comment of a run documents the declaration behind it.** A run of documentation
comments stands in a stretch without code, up to code or the end of the text. A proper comment of
the run is found, with the key of the declaration behind the run, exactly if no other comment of the
run stands behind it, be it a banner or not. -/
theorem found_iff_last_of_run {source className : Text} {kind : TypeKind}
    {before stretch after : List Segment}
    (hsegments : segments (insertPlaceholders source) = before ++ (stretch ++ after))
    (hstretch : ∀ segment ∈ stretch, holdsCode segment = false)
    (hafter : ∀ segment ∈ after.head?, holdsCode segment = true)
    {front tail : List Candidate} {comment : Candidate}
    (hrun : (stretch.filter (isDocComment (insertPlaceholders source))).map
      (candidateOf (insertPlaceholders source) false) = front ++ comment :: tail)
    (hproper : isProper (insertPlaceholders source) comment = true) {key : SignatureKey}
    (hkey : keyBehind (candidatesFrom (insertPlaceholders source) false (before ++ stretch))
      (start source className kind) = some key) :
    (∃ n, (advance^[n] (start source className kind)).next.found =
        some (spanOf (insertPlaceholders source) comment key, key)) ↔ tail = [] := by
  obtain ⟨front', flag, hfront⟩ := exists_candidatesFrom_run hstretch hrun
    (codeSince (insertPlaceholders source) false before)
  have hupTo : candidatesFrom (insertPlaceholders source) false (before ++ stretch) =
      (candidatesFrom (insertPlaceholders source) false before ++ front') ++
        { comment with codeBefore := flag } :: tail := by
    rw [candidatesFrom_append, hfront, List.append_assoc]
  have hall : candidates (insertPlaceholders source) =
      (candidatesFrom (insertPlaceholders source) false before ++ front') ++
        { comment with codeBefore := flag } :: (tail ++
          candidatesFrom (insertPlaceholders source)
            (codeSince (insertPlaceholders source) false (before ++ stretch)) after) := by
    rw [candidates, hsegments, ← List.append_assoc, candidatesFrom_append, hupTo, List.append_assoc,
      List.cons_append]
  have hsorted := pairwise_start_candidates (insertPlaceholders source)
  have htail : ∀ candidate ∈ tail, candidate.codeBefore = false :=
    codeBefore_of_mem_run (hrun.trans (List.append_cons _ _ _))
  have hrest : ∀ next ∈ (candidatesFrom (insertPlaceholders source)
      (codeSince (insertPlaceholders source) false (before ++ stretch)) after).head?,
      next.codeBefore = true :=
    codeBefore_of_holdsCode hafter _
  rw [hall] at hsorted
  rw [hupTo] at hkey
  rw [exists_found_iff, start_pending, hall]
  have hiff := mem_findings_iff (start source className kind) hsorted htail hrest
  rw [start_text] at hiff
  exact hiff hproper hkey

/-- Two comments with a banner and a note between them. -/
private def bannerBetween : Text :=
  "class A \x7b\n /** a */\n /****/\n // n\n /** b */\n int x;\n\x7d\n".toList

private def fieldKey : SignatureKey :=
  ⟨"A".toList, "x".toList, [], false⟩

theorem found_iff_last_of_run_banner_between :
    let text := insertPlaceholders bannerBetween
    let stretch := ((segments text).drop 2).take 7
    let comments := (stretch.filter (isDocComment text)).map (candidateOf text false)
    stretch.map Segment.text = ["/** a */".toList, "\n ".toList, "/****/".toList, "\n ".toList,
        "// n".toList, "\n ".toList, "/** b */".toList] ∧
      comments.map (isProper text) = [true, false, true] ∧
      keyBehind (candidatesFrom text false ((segments text).take 2 ++ stretch))
        (start bannerBetween "A".toList .classType) = some fieldKey ∧
      ∃ n, (advance^[n] (start bannerBetween "A".toList .classType)).next.found =
        some (⟨" /** b */\n".toList, 67, 77, some fieldKey⟩, fieldKey) := by
  intro text stretch comments
  have hsegments : segments text =
      (segments text).take 2 ++ (stretch ++ (segments text).drop 9) := by
    decide +kernel
  have hstretch : ∀ segment ∈ stretch, holdsCode segment = false := by decide +kernel
  have hafter : ∀ segment ∈ ((segments text).drop 9).head?, holdsCode segment = true := by
    decide +kernel
  have hcomments : comments = comments.take 2 ++ ⟨67, 76, 77, false⟩ :: [] := by decide +kernel
  have hproper : isProper text ⟨67, 76, 77, false⟩ = true := by decide +kernel
  have hkey : keyBehind (candidatesFrom text false ((segments text).take 2 ++ stretch))
      (start bannerBetween "A".toList .classType) = some fieldKey := by
    decide +kernel
  have hspan : spanOf text ⟨67, 76, 77, false⟩ fieldKey =
      ⟨" /** b */\n".toList, 67, 77, some fieldKey⟩ := by
    decide +kernel
  have hfound := (found_iff_last_of_run hsegments hstretch hafter hcomments hproper hkey).mpr rfl
  rw [hspan] at hfound
  exact ⟨by decide +kernel, by decide +kernel, hkey, hfound⟩

/-- A comment with a banner behind it. -/
private def bannerBehind : Text :=
  "class A \x7b\n /** d */\n /****/\n int x;\n\x7d\n".toList

/-- A banner behind the only proper comment of a run: nothing is found, though a declaration with a
key stands behind the run. -/
theorem found_none_banner_behind :
    let text := insertPlaceholders bannerBehind
    let stretch := ((segments text).drop 2).take 3
    let comments := (stretch.filter (isDocComment text)).map (candidateOf text false)
    stretch.map Segment.text = ["/** d */".toList, "\n ".toList, "/****/".toList] ∧
      (∀ segment ∈ stretch, holdsCode segment = false) ∧
      comments.map (isProper text) = [true, false] ∧
      keyBehind (candidatesFrom text false ((segments text).take 2 ++ stretch))
        (start bannerBehind "A".toList .classType) = some fieldKey ∧
      ∀ n, (advance^[n] (start bannerBehind "A".toList .classType)).next.found = none := by
  intro text stretch comments
  refine ⟨by decide +kernel, by decide +kernel, by decide +kernel, by decide +kernel, fun n => ?_⟩
  have hnone : findings (start bannerBehind "A".toList .classType).pending
      (start bannerBehind "A".toList .classType) = [] := by
    decide +kernel
  cases hfound : (advance^[n] (start bannerBehind "A".toList .classType)).next.found with
  | none => rfl
  | some found =>
    have hmem := (exists_found_iff _ found).mp ⟨n, hfound⟩
    rw [hnone] at hmem
    cases hmem

end DocGraft.Scanner
