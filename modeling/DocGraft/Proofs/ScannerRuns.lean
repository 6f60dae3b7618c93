import DocGraft.Proofs.Masking
import DocGraft.Source.Scanner

/-!
# Runs of a scanner without replacements

A scanner that replaces nothing edits its text only to take out placeholders. What it will have
taken out in the end does not depend on how far it has gone: the edits so far and those of the
candidates still to come are the same list all the time. So the result of a run is known from the
comments of the text alone.
-/

namespace DocGraft.Scanner

open List Text Source

variable {candidate : Candidate} {scanner : Scanner} {text : Text}

/-! ### One step -/

/-- The edit by which the placeholder in the comment of a candidate is taken out. -/
def removal? (text : Text) (candidate : Candidate) : Option Edit :=
  let comment := slice text candidate.start candidate.stop
  if !isBanner comment && hasPlaceholder comment then
    some ⟨placeholderStart text comment candidate.start, candidate.stop, []⟩
  else none

/-- The edits so far and those that the candidates still to come will bring. -/
def removals (scanner : Scanner) : List Edit :=
  scanner.edits ++ scanner.pending.filterMap (removal? scanner.text)

theorem removal?_eq_none
    (h : isBanner (slice text candidate.start candidate.stop) ∨
      ¬ hasPlaceholder (slice text candidate.start candidate.stop)) :
    removal? text candidate = none := by
  rcases h with h | h <;> simp [removal?, h]

theorem removal?_eq_some (hbanner : ¬ isBanner (slice text candidate.start candidate.stop))
    (hplace : hasPlaceholder (slice text candidate.start candidate.stop)) :
    removal? text candidate = some ⟨placeholderStart text
      (slice text candidate.start candidate.stop) candidate.start, candidate.stop, []⟩ := by
  simp [removal?, hbanner, hplace]

/-- Resolving a declaration changes nothing but scopes. -/
theorem exists_resolve_eq {resolved : Scanner} {key : Option SignatureKey} {notices : List Notice}
    (h : scanner.resolve candidate = (key, resolved, notices)) :
    ∃ scope outer, resolved = { scanner with scope := scope, outerScopes := outer } := by
  obtain rfl : (scanner.resolve candidate).2.1 = resolved := by rw [h]
  unfold resolve
  simp only
  split
  · exact ⟨_, _, rfl⟩
  · split
    · exact ⟨_, _, rfl⟩
    · split
      · split <;> exact ⟨_, _, rfl⟩
      · exact ⟨_, _, rfl⟩

theorem resolve_frame (scanner : Scanner) (candidate : Candidate) :
    (scanner.resolve candidate).2.1.text = scanner.text ∧
      (scanner.resolve candidate).2.1.edits = scanner.edits := by
  have hresolve : scanner.resolve candidate = (_, (scanner.resolve candidate).2.1, _) := rfl
  obtain ⟨scope, outer, heq⟩ := exists_resolve_eq hresolve
  rw [heq]
  exact ⟨rfl, rfl⟩

/-- Going through candidates changes neither the text nor the edits that there will be. -/
theorem nextFrom_frame (candidates : List Candidate) (scanner : Scanner) :
    (nextFrom candidates scanner).scanner.text = scanner.text ∧
      (nextFrom candidates scanner).scanner.result = scanner.result ∧
      (nextFrom candidates scanner).scanner.removals =
        scanner.edits ++ candidates.filterMap (removal? scanner.text) := by
  fun_induction nextFrom candidates scanner with
  | case1 => simp [removals]
  | case2 candidate rest scanner comment hbanner ih =>
    rwa [filterMap_cons_none (removal?_eq_none (.inl hbanner))]
  | case3 candidate rest scanner comment hbanner hplace key resolved notices hresolve
    start step ih =>
    obtain ⟨scope, outer, rfl⟩ := exists_resolve_eq hresolve
    rw [filterMap_cons_some (removal?_eq_some hbanner hplace), append_cons]
    exact ih
  | case4 candidate rest scanner comment hbanner hplace hnext ih =>
    rwa [filterMap_cons_none (removal?_eq_none (.inr hplace))]
  | case5 candidate rest scanner comment hbanner hplace hnext resolved notices hresolve step ih =>
    obtain ⟨scope, outer, rfl⟩ := exists_resolve_eq hresolve
    rwa [filterMap_cons_none (removal?_eq_none (.inr hplace))]
  | case6 candidate rest scanner comment hbanner hplace hnext key resolved notices hresolve span =>
    obtain ⟨scope, outer, rfl⟩ := exists_resolve_eq hresolve
    rw [filterMap_cons_none (removal?_eq_none (.inr hplace))]
    exact ⟨rfl, rfl, rfl⟩

/-- A step consumes candidates: all of them if it finds nothing, and at least one otherwise. -/
theorem nextFrom_pending (candidates : List Candidate) (scanner : Scanner) :
    ((nextFrom candidates scanner).found = none →
        (nextFrom candidates scanner).scanner.pending = []) ∧
      ((nextFrom candidates scanner).found.isSome →
        (nextFrom candidates scanner).scanner.pending.length < candidates.length) := by
  fun_induction nextFrom candidates scanner
  case case1 | case6 => simp
  all_goals
    next ih => grind

/-! ### Whole runs -/

/-- Goes on to the next documented declaration. -/
def advance (scanner : Scanner) : Scanner :=
  scanner.next.scanner

theorem advance_frame (scanner : Scanner) :
    scanner.advance.text = scanner.text ∧ scanner.advance.result = scanner.result ∧
      scanner.advance.removals = scanner.removals :=
  nextFrom_frame scanner.pending { scanner with current := none }

theorem iterate_advance_frame (n : Nat) (scanner : Scanner) :
    (advance^[n] scanner).text = scanner.text ∧ (advance^[n] scanner).result = scanner.result ∧
      (advance^[n] scanner).removals = scanner.removals := by
  induction n with
  | zero => exact ⟨rfl, rfl, rfl⟩
  | succ n ih =>
    rw [Function.iterate_succ_apply']
    obtain ⟨ht, hr, he⟩ := advance_frame (advance^[n] scanner)
    grind

theorem drain_frame {n : Nat} (h : scanner.pending.length < n) :
    (drain n scanner).1.text = scanner.text ∧ (drain n scanner).1.pending = [] ∧
      (drain n scanner).1.removals = scanner.removals := by
  induction n generalizing scanner with
  | zero => omega
  | succ n ih =>
    obtain ⟨ht, -, he⟩ := advance_frame scanner
    obtain ⟨hnone, hsome⟩ := nextFrom_pending scanner.pending { scanner with current := none }
    rw [drain]
    simp only
    split
    · next hfound => exact ⟨ht, hnone hfound, he⟩
    · next found hfound =>
      have hless := hsome (Option.isSome_iff_exists.mpr ⟨found, hfound⟩)
      have hadvance : scanner.advance.pending.length < n := lt_of_lt_of_le hless (by omega)
      obtain ⟨ht', hp', he'⟩ := ih hadvance
      exact ⟨ht'.trans ht, hp', he'.trans he⟩

theorem finish_eq (h : scanner.result = none) :
    scanner.finish.1 = assemble scanner.text 0 scanner.removals := by
  obtain ⟨ht, hp, he⟩ := drain_frame (Nat.lt_succ_self scanner.pending.length)
  unfold finish
  rw [h]
  simp only
  rw [← ht, ← he]
  simp [removals, hp]

/-! ### Removals by segments -/

/-- The edit that takes out the placeholder in a segment, if it is a documentation comment with
one. -/
def removalAt (text : Text) (segment : Segment) : Option Edit :=
  if isDocComment text segment then
    removal? text {
      start := lineStart text segment.start
      commentStop := segment.stop
      stop := segment.stop + if (text.drop segment.stop).head? = some '\n' then 1 else 0
      codeBefore := false }
  else none

theorem filterMap_candidatesFrom (text : Text) (codeBefore : Bool) (segments : List Segment) :
    (candidatesFrom text codeBefore segments).filterMap (removal? text) =
      segments.filterMap (removalAt text) := by
  induction segments generalizing codeBefore with
  | nil => rfl
  | cons segment rest ih =>
    rw [candidatesFrom]
    by_cases h : isDocComment text segment
    · simp [filterMap_cons, ih, removalAt, h, removal?]
    · rw [if_neg h, filterMap_cons_none (by simp [removalAt, h])]
      exact ih _

theorem removals_start (source className : Text) (kind : TypeKind) :
    (start source className kind).removals =
      (placed 0 (grains (insertPlaceholders source))).filterMap
        (removalAt (insertPlaceholders source)) := by
  have hcode : ∀ pos s, removalAt (insertPlaceholders source) ⟨.code, pos, s⟩ = none := by
    intro pos s
    simp [removalAt, isDocComment]
  change [] ++ (candidatesFrom (insertPlaceholders source) false
    (segments (insertPlaceholders source))).filterMap (removal? (insertPlaceholders source)) = _
  rw [nil_append, filterMap_candidatesFrom, filterMap_eq_flatMap_toList,
    filterMap_eq_flatMap_toList]
  exact flatMap_segments (fun segment => (removalAt (insertPlaceholders source) segment).toList)
    (fun pos => by simp [hcode]) (fun pos c s => by simp [hcode]) _

/-- A scanner that replaces nothing takes the placeholders out of its text, however many comments
it has been asked for. -/
theorem finish_advance (source className : Text) (kind : TypeKind) (n : Nat) :
    (advance^[n] (start source className kind)).finish.1 =
      assemble (insertPlaceholders source) 0
        ((placed 0 (grains (insertPlaceholders source))).filterMap
          (removalAt (insertPlaceholders source))) := by
  obtain ⟨ht, hr, he⟩ := iterate_advance_frame n (start source className kind)
  rw [finish_eq (hr.trans rfl), ht, he, removals_start]
  rfl

end DocGraft.Scanner

/-! ## What a scanner visits -/

namespace DocGraft.Scanner

open Text Source

variable {gs : List Grain} {s s' : Scanner}

/-! ### Comments to visit -/

/-- The comments that a scanner visits among candidates, with the keys of what they document. -/
def sights : List Candidate → Scanner → List (SignatureKey × Text)
  | [], _ => []
  | candidate :: rest, scanner =>
    let comment := slice scanner.text candidate.start candidate.stop
    let resolved := scanner.resolve candidate
    if isBanner comment then sights rest scanner
    else if hasPlaceholder comment then sights rest resolved.2.1
    else if rest.head?.any fun next => !next.codeBefore then sights rest scanner
    else (resolved.1.map fun key => (key, comment)).toList ++ sights rest resolved.2.1

/-- Two scanners see the same: they may differ in what is pending and in what was edited. -/
structure Alike (s s' : Scanner) : Prop where
  text : s.text = s'.text
  masked : s.masked = s'.masked
  kind : s.kind = s'.kind
  scope : s.scope = s'.scope
  outerScopes : s.outerScopes = s'.outerScopes

theorem alike_idle (s : Scanner) : Alike s { s with current := none } :=
  ⟨rfl, rfl, rfl, rfl, rfl⟩

theorem Alike.leaveScopes (h : Alike s s') (stop : Nat) :
    Alike (s.leaveScopes stop) (s'.leaveScopes stop) := by
  refine ⟨h.text, h.masked, h.kind, ?_, ?_⟩
  · simp only [Scanner.leaveScopes, h.scope, h.outerScopes]
  · simp only [Scanner.leaveScopes, h.scope, h.outerScopes]

theorem Alike.enterScope (h : Alike s s') (scope : Scope) :
    Alike (s.enterScope scope) (s'.enterScope scope) :=
  ⟨h.text, h.masked, h.kind, rfl, by simp only [Scanner.enterScope, h.scope, h.outerScopes]⟩

theorem Alike.declarationAt? (h : Alike s s') (start : Nat) :
    s.declarationAt? start = s'.declarationAt? start := by
  rw [Scanner.declarationAt?, Scanner.declarationAt?, h.masked, h.kind]

/-- Scanners that see the same find the same key, and then see the same again. -/
theorem Alike.resolve (h : Alike s s') (candidate : Candidate) :
    (s.resolve candidate).1 = (s'.resolve candidate).1 ∧
      Alike (s.resolve candidate).2.1 (s'.resolve candidate).2.1 := by
  have hleft := h.leaveScopes candidate.stop
  unfold Scanner.resolve
  simp only [hleft.masked, hleft.declarationAt?, hleft.scope]
  split
  · exact ⟨rfl, hleft⟩
  · split
    · exact ⟨rfl, hleft⟩
    · split_ifs
      · split
        · exact ⟨rfl, hleft.enterScope _⟩
        · exact ⟨rfl, hleft.enterScope _⟩
      · exact ⟨rfl, hleft⟩

/-! ### Comments found -/

/-- Whether the comment of a candidate is neither a banner nor a placeholder. -/
def isProper (text : Text) (candidate : Candidate) : Bool :=
  !isBanner (slice text candidate.start candidate.stop) &&
    !hasPlaceholder (slice text candidate.start candidate.stop)

/-- Whether a comment with the candidates `rest` behind it has another one of its run behind it. -/
def isSuperseded (rest : List Candidate) : Bool :=
  rest.head?.any fun next => !next.codeBefore

/-- The comment of a candidate that documents a declaration with a key. -/
def spanOf (text : Text) (candidate : Candidate) (key : SignatureKey) : CommentSpan :=
  ⟨slice text candidate.start candidate.stop, candidate.start, candidate.stop, some key⟩

/-- Goes past a candidate. -/
def pass (scanner : Scanner) (superseded : Bool) (candidate : Candidate) : Scanner :=
  let comment := slice scanner.text candidate.start candidate.stop
  if isBanner comment || (superseded && !hasPlaceholder comment) then scanner
  else (scanner.resolve candidate).2.1

/-- The comments found among candidates, with the keys of what they document. -/
def findings : List Candidate → Scanner → List (CommentSpan × SignatureKey)
  | [], _ => []
  | candidate :: rest, scanner =>
    let own :=
      if isProper scanner.text candidate && !isSuperseded rest then (scanner.resolve candidate).1
      else none
    (own.map fun key => (spanOf scanner.text candidate key, key)).toList ++
      findings rest (scanner.pass (isSuperseded rest) candidate)

@[simp] theorem pass_text (scanner : Scanner) (superseded : Bool) (candidate : Candidate) :
    (scanner.pass superseded candidate).text = scanner.text := by
  unfold pass
  simp only
  split_ifs
  · rfl
  · exact (resolve_frame scanner candidate).1

theorem Alike.pass (h : Alike s s') (superseded : Bool) (candidate : Candidate) :
    Alike (s.pass superseded candidate) (s'.pass superseded candidate) := by
  unfold Scanner.pass
  simp only [h.text]
  split_ifs
  · exact h
  · exact (h.resolve candidate).2

/-- Scanners that see the same find the same comments. -/
theorem Alike.findings (h : Alike s s') (candidates : List Candidate) :
    findings candidates s = findings candidates s' := by
  induction candidates generalizing s s' with
  | nil => rfl
  | cons candidate rest ih =>
    rw [Scanner.findings, Scanner.findings, h.text, (h.resolve candidate).1,
      ih (h.pass _ candidate)]

/-- The comments found are the next one and those found after it. -/
theorem findings_eq (candidates : List Candidate) (scanner : Scanner) :
    findings candidates scanner =
      match (nextFrom candidates scanner).found with
      | none => []
      | some found =>
        found :: findings (nextFrom candidates scanner).scanner.pending
          (nextFrom candidates scanner).scanner := by
  fun_induction nextFrom candidates scanner with
  | case1 => rfl
  | case2 candidate rest scanner comment hbanner ih =>
    simp_all [findings, isProper, pass, comment]
  | case3 candidate rest scanner comment hbanner hplace key resolved notices hresolve
    start step ih =>
    have halike : Alike resolved (resolved.edit start candidate.stop []) :=
      ⟨rfl, rfl, rfl, rfl, rfl⟩
    rw [← halike.findings rest] at ih
    simp_all [findings, isProper, pass, comment, step]
  | case4 candidate rest scanner comment hbanner hplace hnext ih =>
    simp_all [findings, isProper, pass, isSuperseded, comment]
  | case5 candidate rest scanner comment hbanner hplace hnext resolved notices hresolve step ih =>
    simp_all [findings, isProper, pass, isSuperseded, comment, step]
  | case6 candidate rest scanner comment hbanner hplace hnext key resolved notices hresolve span =>
    have halike : Alike resolved { resolved with pending := rest, current := some span } :=
      ⟨rfl, rfl, rfl, rfl, rfl⟩
    simp_all [findings, isProper, pass, isSuperseded, spanOf, comment, span, halike.findings rest]

/-- The comments to visit are those that are found. -/
theorem sights_eq (candidates : List Candidate) (scanner : Scanner) :
    sights candidates scanner =
      (findings candidates scanner).map fun found => (found.2, found.1.text) := by
  induction candidates generalizing scanner with
  | nil => rfl
  | cons candidate rest ih =>
    rw [sights, findings, List.map_append, ← ih, pass, isProper, isSuperseded]
    split_ifs <;> simp_all
    cases (scanner.resolve candidate).1 <;> rfl

/-- Scanners that see the same visit the same comments. -/
theorem Alike.sights (h : Alike s s') (candidates : List Candidate) :
    sights candidates s = sights candidates s' := by
  rw [sights_eq, sights_eq, h.findings]

/-! ### The beginning -/

section Start

variable (source className : Text) (kind : TypeKind)

@[simp] theorem start_text : (start source className kind).text = insertPlaceholders source := rfl

@[simp] theorem start_masked :
    (start source className kind).masked = mask (insertPlaceholders source) := rfl

@[simp] theorem start_kind : (start source className kind).kind = kind := rfl

@[simp] theorem start_scope : (start source className kind).scope =
    ⟨Signature.simpleName className, (insertPlaceholders source).length⟩ := rfl

@[simp] theorem start_outerScopes : (start source className kind).outerScopes = [] := rfl

@[simp] theorem start_pending :
    (start source className kind).pending = candidates (insertPlaceholders source) := rfl

end Start

/-! ### Runs without replacements -/

variable (synthesize : CommentSpan → LocalizedComment → Synthesis)

/-- A run without replacements visits the comments to visit. -/
theorem visited_visit {n : Nat} {scanner : Scanner} (h : scanner.pending.length < n) :
    (visit synthesize (fun _ => none) n scanner).visited = sights scanner.pending scanner := by
  induction n generalizing scanner with
  | zero => omega
  | succ n ih =>
    have hless := (nextFrom_pending scanner.pending { scanner with current := none }).2
    rw [(alike_idle scanner).sights, sights_eq, findings_eq, visit, next]
    rcases hfound : (nextFrom scanner.pending { scanner with current := none }).found with
      _ | ⟨span, key⟩
    · rfl
    · have hpending := hless (by rw [hfound]; rfl)
      simp only [localize, Except.toOption, Option.getD_some]
      rw [ih (by omega), sights_eq]
      rfl

theorem visited_run (scanner : Scanner) :
    (run synthesize (fun _ => none) scanner).visited = sights scanner.pending scanner :=
  visited_visit synthesize (Nat.lt_succ_self _)

/-- A run without replacements does nothing but going on. -/
theorem exists_scanner_visit (n : Nat) (scanner : Scanner) :
    ∃ k, (visit synthesize (fun _ => none) n scanner).scanner = advance^[k] scanner := by
  induction n generalizing scanner with
  | zero => exact ⟨0, rfl⟩
  | succ n ih =>
    rw [visit]
    simp only
    split
    · exact ⟨1, rfl⟩
    · next span key hfound =>
      obtain ⟨k, hk⟩ := ih scanner.next.scanner
      exact ⟨k + 1, hk⟩

theorem exists_scanner_run (scanner : Scanner) :
    ∃ k, (run synthesize (fun _ => none) scanner).scanner = advance^[k] scanner :=
  exists_scanner_visit synthesize _ scanner

/-! ### Candidates by grains -/

/-- Whether a grain is code that is not white space, or a literal. -/
def isInk (g : Grain) : Bool :=
  !g.1.isComment && !allBlank g.2

theorem any_isInk_codeGrains (w : Text) : (codeGrains w).any isInk = !allBlank w := by
  simp [codeGrains, isInk, Region.isComment, allBlank, List.any_map, Function.comp_def,
    List.not_all_eq_any_not]

/-- Grains that are no documentation comments show up in the candidates only by whether there is
anything but comments and white space. -/
theorem candidatesFrom_of_undocumented (text : Text)
    (h : ∀ g ∈ gs, g.1 = .blockComment → startsWith "/**".toList g.2 = false) (pos : Nat)
    (codeBefore : Bool) (rest : List Segment) :
    candidatesFrom text codeBefore (placed pos gs ++ rest) =
      candidatesFrom text (codeBefore || gs.any isInk) rest := by
  induction gs generalizing pos codeBefore with
  | nil => simp [placed]
  | cons g gs ih =>
    obtain ⟨hg, hgs⟩ := List.forall_mem_cons.mp h
    have hdoc : isDocComment text ⟨g.1, pos, g.2⟩ = false := by
      by_cases hblock : g.1 = .blockComment
      · simp only [isDocComment, hg hblock, Bool.and_false, Bool.false_and]
      · simp [isDocComment, hblock]
    rw [placed, List.cons_append, candidatesFrom, hdoc]
    simp only [Bool.false_eq_true, if_false, ih hgs, List.any_cons, Bool.or_assoc]
    rfl

/-- Code and literals show up in the candidates only by whether there is anything but white
space. -/
theorem candidatesFrom_of_ne (text : Text) (h : ∀ g ∈ gs, g.1 ≠ .blockComment) (pos : Nat)
    (codeBefore : Bool) (rest : List Segment) :
    candidatesFrom text codeBefore (placed pos gs ++ rest) =
      candidatesFrom text (codeBefore || gs.any isInk) rest :=
  candidatesFrom_of_undocumented text (fun g hg hblock => absurd hblock (h g hg)) pos
    codeBefore rest

theorem ne_of_mem_codeGrains {w : Text} : ∀ g ∈ codeGrains w, g.1 ≠ .blockComment := by
  intro g hg
  obtain ⟨c, -, rfl⟩ := List.mem_map.mp hg
  simp

/-- The candidates of a text, grain by grain. -/
theorem candidates_eq (text : Text) :
    candidates text = candidatesFrom text false (placed 0 (grains text)) := by
  have hmain : ∀ s pos codeBefore, candidatesFrom text codeBefore (segmentsFrom [] pos 0 s) =
      candidatesFrom text codeBefore (placed pos (grains s)) := by
    intro s
    induction s using segment_induction with
    | nil => exact fun _ _ => rfl
    | cons region w t h ih =>
      intro pos codeBefore
      rw [h.segmentsFrom, h.grains, placed_append]
      by_cases hcode : region = .code
      · subst hcode
        have hgrains : Segment.grains ⟨.code, 0, w⟩ = codeGrains w := rfl
        simp [hgrains, candidatesFrom_of_ne text ne_of_mem_codeGrains, any_isInk_codeGrains,
          candidatesFrom, isDocComment, Region.isComment, ih]
      · simp [Segment.grains, placed, candidatesFrom, ih]
  rw [candidates, segments_eq, hmain]

end DocGraft.Scanner
