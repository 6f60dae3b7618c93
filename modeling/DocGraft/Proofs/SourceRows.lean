import DocGraft.Proofs.AnnotationIndependence
import DocGraft.Proofs.CommentClosing
import DocGraft.Proofs.CommentRuns
import DocGraft.Proofs.CopiedTags

/-!
# Sources as rows of declarations

A source is a sequence of rows: a declaration up to its end or its body, or a closing brace, each
with the comment before it. A run visits the comments of the rows, each with the key of its
declaration, and what it puts in their place does not touch anything else. So the result of a run is
the source with other comments in its rows.
-/

/-! ## Runs of a scanner with replacements -/

namespace DocGraft.Scanner

open Text Source

variable {candidate : Candidate} {text : Text} {e : Edit} {key : SignatureKey} {scanner : Scanner}

variable (synthesize : CommentSpan → LocalizedComment → Synthesis)
  (lookUp : SignatureKey → Option LocalizedComment)

/-! ### Edits among candidates -/

/-- The edit by which a run replaces the comment of a declaration with a key, if it does. -/
def replacement? (span : CommentSpan) (key : SignatureKey) : Option Edit :=
  (lookUp key).bind fun doc =>
    let made := (synthesize span doc).text
    if made = [] ∨ made = span.text then none else some ⟨span.start, span.stop, made⟩

/-- The edits of a run among candidates: those with a placeholder lose it, and the others document
declarations with the given keys. -/
def editsOf (text : Text) : List Candidate → List SignatureKey → List Edit
  | [], _ => []
  | candidate :: rest, keys =>
    match removal? text candidate with
    | some e => e :: editsOf text rest keys
    | none =>
      (keys.head?.bind fun key =>
        replacement? synthesize lookUp (spanOf text candidate key) key).toList ++
          editsOf text rest keys.tail

/-- The number of candidates without a placeholder. -/
def remaining (text : Text) (candidates : List Candidate) : Nat :=
  candidates.countP fun candidate => (removal? text candidate).isNone

/-- Every candidate without a placeholder is visited. -/
def Complete (candidates : List Candidate) (scanner : Scanner) : Prop :=
  remaining scanner.text candidates ≤ (sights candidates scanner).length

/-- The keys of the comments to visit. -/
def keysOf (candidates : List Candidate) (scanner : Scanner) : List SignatureKey :=
  (sights candidates scanner).map Prod.fst

theorem remaining_cons_of_none (h : removal? text candidate = none) (rest : List Candidate) :
    remaining text (candidate :: rest) = remaining text rest + 1 := by
  simp [remaining, h]

theorem remaining_cons_of_some (h : removal? text candidate = some e) (rest : List Candidate) :
    remaining text (candidate :: rest) = remaining text rest := by
  simp [remaining, h]

/-- Only candidates without a placeholder are visited. -/
theorem length_sights_le (candidates : List Candidate) (scanner : Scanner) :
    (sights candidates scanner).length ≤ remaining scanner.text candidates := by
  induction candidates generalizing scanner with
  | nil => simp [sights]
  | cons candidate rest ih =>
    have hrest := ih scanner
    have hresolved := ih (scanner.resolve candidate).2.1
    rw [(resolve_frame scanner candidate).1] at hresolved
    rw [sights]
    by_cases hbanner : isBanner (slice scanner.text candidate.start candidate.stop)
    · rw [if_pos hbanner, remaining_cons_of_none (removal?_eq_none (.inl hbanner))]
      omega
    rw [if_neg hbanner]
    by_cases hplace : hasPlaceholder (slice scanner.text candidate.start candidate.stop)
    · rw [if_pos hplace, remaining_cons_of_some (removal?_eq_some hbanner hplace)]
      exact hresolved
    rw [if_neg hplace, remaining_cons_of_none (removal?_eq_none (.inr hplace))]
    grind

section Alike

variable {scanner scanner' : Scanner} {candidates : List Candidate}

theorem Complete.alike (h : Complete candidates scanner) (halike : Alike scanner scanner') :
    Complete candidates scanner' := by
  rwa [Complete, ← halike.text, ← halike.sights]

theorem Alike.keysOf (halike : Alike scanner scanner') (candidates : List Candidate) :
    keysOf candidates scanner = keysOf candidates scanner' := by
  rw [Scanner.keysOf, halike.sights, Scanner.keysOf]

end Alike

/-! ### One step -/

theorem editsOf_of_some (h : removal? text candidate = some e) (rest : List Candidate)
    (keys : List SignatureKey) :
    editsOf synthesize lookUp text (candidate :: rest) keys =
      e :: editsOf synthesize lookUp text rest keys := by
  rw [editsOf, h]

theorem editsOf_of_none (h : removal? text candidate = none) (rest : List Candidate)
    (key : SignatureKey) (keys : List SignatureKey) :
    editsOf synthesize lookUp text (candidate :: rest) (key :: keys) =
      (replacement? synthesize lookUp (spanOf text candidate key) key).toList ++
        editsOf synthesize lookUp text rest keys := by
  rw [editsOf, h]
  rfl

/-- The edits of a scanner so far and still to come, with the candidates `candidates` before it. -/
def prospect (candidates : List Candidate) (scanner : Scanner) : List Edit :=
  scanner.edits ++ editsOf synthesize lookUp scanner.text candidates (keysOf candidates scanner)

/-- A step has found a comment, and `prospect` are the edits in the end. -/
structure Found (prospect : List Edit) (span : CommentSpan) (key : SignatureKey)
    (scanner : Scanner) : Prop where
  current : scanner.current = some span
  key_eq : span.key = some key
  /-- All candidates behind it without a placeholder are visited. -/
  complete : Complete scanner.pending scanner
  prospect_eq : prospect = scanner.edits ++ ((replacement? synthesize lookUp span key).toList ++
    editsOf synthesize lookUp scanner.text scanner.pending (keysOf scanner.pending scanner))

theorem alike_edit (scanner : Scanner) (start stop : Nat) (replacement : Text) :
    Alike scanner (scanner.edit start stop replacement) :=
  ⟨rfl, rfl, rfl, rfl, rfl⟩

theorem prospect_edit {start : Nat}
    (hremoval : removal? scanner.text candidate = some ⟨start, candidate.stop, []⟩)
    (rest : List Candidate) :
    prospect synthesize lookUp rest
        ((scanner.resolve candidate).2.1.edit start candidate.stop []) =
      scanner.edits ++ editsOf synthesize lookUp scanner.text (candidate :: rest)
        (keysOf rest (scanner.resolve candidate).2.1) := by
  obtain ⟨htext, hedits⟩ := resolve_frame scanner candidate
  have halike := alike_edit (scanner.resolve candidate).2.1 start candidate.stop []
  rw [editsOf_of_some synthesize lookUp hremoval, prospect, ← halike.keysOf, ← halike.text, htext,
    edit, hedits, List.append_assoc]
  rfl

/-- The comment of a candidate with a declaration is found. -/
theorem found_resolve {resolved : Scanner} {notices : List Notice}
    (hcase : scanner.resolve candidate = (some key, resolved, notices))
    (hnone : removal? scanner.text candidate = none) {rest : List Candidate}
    (h : Complete rest resolved) :
    Found synthesize lookUp (scanner.edits ++ editsOf synthesize lookUp scanner.text
        (candidate :: rest) (key :: keysOf rest resolved)) (spanOf scanner.text candidate key) key
      { resolved with
        pending := rest
        current := some (spanOf scanner.text candidate key) } := by
  obtain ⟨htext, hedits⟩ := resolve_frame scanner candidate
  rw [hcase] at htext hedits
  have halike : Alike resolved { resolved with
      pending := rest
      current := some (spanOf scanner.text candidate key) } := ⟨rfl, rfl, rfl, rfl, rfl⟩
  refine ⟨rfl, rfl, h.alike halike, ?_⟩
  rw [editsOf_of_none synthesize lookUp hnone, halike.keysOf rest, ← hedits, ← htext]

/-- Going on among candidates that are all visited, unless they hold a placeholder. -/
theorem nextFrom_complete {candidates : List Candidate} (h : Complete candidates scanner) :
    ((nextFrom candidates scanner).found = none →
      (nextFrom candidates scanner).scanner.edits =
        prospect synthesize lookUp candidates scanner) ∧
    ∀ span key, (nextFrom candidates scanner).found = some (span, key) →
      Found synthesize lookUp (prospect synthesize lookUp candidates scanner) span key
        (nextFrom candidates scanner).scanner := by
  induction candidates generalizing scanner with
  | nil => simp [nextFrom, prospect, editsOf]
  | cons candidate rest ih =>
    have hrest := length_sights_le rest scanner
    have hresolved := length_sights_le rest (scanner.resolve candidate).2.1
    have htext := (resolve_frame scanner candidate).1
    rw [Complete, sights] at h
    rw [nextFrom, prospect, keysOf, sights]
    simp only at h ⊢
    by_cases hbanner : isBanner (slice scanner.text candidate.start candidate.stop)
    · -- A banner is not visited.
      rw [if_pos hbanner, remaining_cons_of_none (removal?_eq_none (.inl hbanner))] at h
      omega
    rw [if_neg hbanner] at h
    rw [if_neg hbanner, if_neg hbanner]
    by_cases hplace : hasPlaceholder (slice scanner.text candidate.start candidate.stop)
    · -- A placeholder is taken out.
      have hremoval := removal?_eq_some hbanner hplace
      rw [if_pos hplace, remaining_cons_of_some hremoval, ← htext] at h
      have hprospect := prospect_edit synthesize lookUp hremoval rest
      rw [keysOf] at hprospect
      rw [if_pos hplace, if_pos hplace, ← hprospect]
      exact ih (Complete.alike h (alike_edit ..))
    have hnone := removal?_eq_none (.inr hplace)
    rw [if_neg hplace, remaining_cons_of_none hnone] at h
    rw [if_neg hplace, if_neg hplace]
    by_cases hnext : rest.head?.any fun next => !next.codeBefore
    · -- A comment with no code before the next one is not visited.
      rw [if_pos hnext] at h
      omega
    rw [if_neg hnext] at h
    rw [if_neg hnext, if_neg hnext]
    rw [htext] at hresolved
    rcases hcase : scanner.resolve candidate with ⟨_ | key, resolved, notices⟩
    · -- A comment without a declaration is not visited.
      grind
    · rw [hcase] at h htext
      simp only [Option.map_some, Option.toList_some, List.singleton_append, List.length_cons,
        Nat.add_le_add_iff_right, List.map_cons] at h htext ⊢
      refine ⟨by simp, ?_⟩
      rintro span key' hfound
      obtain ⟨rfl, rfl⟩ := Prod.mk.inj (Option.some.inj hfound)
      rw [← htext] at h
      exact found_resolve synthesize lookUp hcase hnone h

/-! ### Whole runs -/

/-- A comment that has been found is replaced, or it stays and nothing else happens. -/
theorem Found.localize {edits : List Edit} {span : CommentSpan}
    (h : Found synthesize lookUp edits span key scanner) :
    ∃ scanner' warning,
      scanner.localize synthesize key (lookUp key) = .ok (scanner', warning) ∧
      Alike scanner scanner' ∧ scanner'.pending = scanner.pending ∧
      scanner'.result = scanner.result ∧
      scanner'.edits = scanner.edits ++ (replacement? synthesize lookUp span key).toList := by
  have hsame : key.same key = true := by simp [SignatureKey.same]
  rw [replacement?]
  cases lookUp key with
  | none => exact ⟨scanner, none, rfl, ⟨rfl, rfl, rfl, rfl, rfl⟩, rfl, rfl, by simp⟩
  | some doc =>
    simp only [Scanner.localize, h.current, h.key_eq, Option.getD_some, hsame, if_true,
      Option.bind_some]
    split_ifs
    · exact ⟨_, _, rfl, ⟨rfl, rfl, rfl, rfl, rfl⟩, rfl, rfl, by simp⟩
    · exact ⟨_, _, rfl, ⟨rfl, rfl, rfl, rfl, rfl⟩, rfl, rfl, rfl⟩

/-- What holds at the end of a run. -/
structure Ended (text : Text) (edits : List Edit) (scanner : Scanner) : Prop where
  text_eq : scanner.text = text
  pending : scanner.pending = []
  edits_eq : scanner.edits = edits
  result : scanner.result = none

/-- A run among candidates that are all visited, unless they hold a placeholder. -/
theorem edits_visit {n : Nat} (hn : scanner.pending.length < n) (hresult : scanner.result = none)
    (h : Complete scanner.pending scanner) :
    Ended scanner.text (prospect synthesize lookUp scanner.pending scanner)
      (visit synthesize lookUp n scanner).scanner := by
  induction n generalizing scanner with
  | zero => omega
  | succ n ih =>
    obtain ⟨hnone, hsome⟩ := nextFrom_complete synthesize lookUp (h.alike (alike_idle scanner))
    obtain ⟨htext, hresult', -⟩ := nextFrom_frame scanner.pending { scanner with current := none }
    obtain ⟨hempty, hless⟩ := nextFrom_pending scanner.pending { scanner with current := none }
    have hprospect : prospect synthesize lookUp scanner.pending { scanner with current := none } =
        prospect synthesize lookUp scanner.pending scanner := by
      rw [prospect, prospect, (alike_idle scanner).keysOf]
    rw [hprospect] at hnone hsome
    rw [visit, next]
    rcases hfound : (nextFrom scanner.pending { scanner with current := none }).found with
      _ | ⟨span, key⟩
    · exact ⟨htext, hempty hfound, hnone hfound, hresult'.trans hresult⟩
    · have hstep := hsome span key hfound
      obtain ⟨scanner', warning, hlocalize, halike', hpending', hresult'', hedits⟩ :=
        hstep.localize synthesize lookUp
      have hlonger := hless (by rw [hfound]; rfl)
      simp only [hlocalize, Except.toOption, Option.getD_some]
      have hshort : scanner'.pending.length < n := by
        rw [hpending']
        omega
      have hrun := ih hshort (hresult''.trans (hresult'.trans hresult))
        (by rw [hpending']; exact hstep.complete.alike halike')
      rw [prospect, hpending', hedits, ← halike'.keysOf, ← halike'.text, List.append_assoc,
        ← hstep.prospect_eq, htext] at hrun
      exact hrun

/-- The result of a run among candidates that are all visited, unless they hold a placeholder. -/
theorem finish_run_eq (hresult : scanner.result = none) (hedits : scanner.edits = [])
    (h : Complete scanner.pending scanner) :
    (run synthesize lookUp scanner).scanner.finish.1 =
      assemble scanner.text 0 (editsOf synthesize lookUp scanner.text scanner.pending
        (keysOf scanner.pending scanner)) := by
  have hended := edits_visit synthesize lookUp (Nat.lt_succ_self _) hresult h
  rw [run, finish_eq hended.result, hended.text_eq, removals, hended.pending, hended.edits_eq,
    prospect, hedits]
  simp

end DocGraft.Scanner

/-! ## Sources as rows of declarations -/

namespace DocGraft.TypeTree

open List Text Source Signature Scanner Declaration

/-! ### Rows -/

/-- What stands before a declaration. -/
inductive Lead where
  | nothing
  | missing
  | doc (line : DocLine)

/-- The comment before a declaration. -/
def Lead.doc? : Lead → Option DocLine
  | .doc line => some line
  | nothing | missing => none

/-- What a placeholder on a line of its own says. -/
def placeholderWords : Text :=
  "javadoc-merge placeholder".toList

/-- A placeholder on a line of its own. -/
def placeholderLine : Text :=
  commentLine 0 placeholderWords

/-- What the comment before a declaration says and the number of spaces before it; a placeholder may
stand for it. -/
def Lead.comment? : Lead → Option (Nat × Text)
  | .doc line => some (line.indent, line.text)
  | missing => some (0, placeholderWords)
  | nothing => none

/-- A declaration with what stands before it, or another line of a source. -/
structure Row where
  /-- The key of the declaration; a line without a declaration may have any. -/
  key : SignatureKey
  /-- What stands before it. -/
  lead : Lead
  /-- The declaration with what follows it. -/
  own : Text

namespace Row

/-- The text of a row in which `shown` stands in the place of the comment. -/
def redocumented (shown : SignatureKey → DocLine → Text) (row : Row) : Text :=
  row.lead.doc?.elim [] (shown row.key) ++ row.own

def text (row : Row) : Text :=
  row.redocumented fun _ => DocLine.line

/-- The text of a row with its placeholder. -/
def markedText (row : Row) : Text :=
  row.lead.comment?.elim [] (fun comment => commentLine comment.1 comment.2) ++ row.own

/-- The candidates in a row that begins, with its placeholder, at `pos`. -/
def candidates (pos : Nat) (codeBefore : Bool) (row : Row) : List Candidate :=
  row.lead.comment?.toList.map (commentCandidate pos codeBefore)

/-- The documented declaration of a row. -/
def documented (row : Row) : List (SignatureKey × Text) :=
  row.lead.doc?.toList.map fun doc => (row.key, doc.line)

end Row

/-- The candidates in rows that begin, with their placeholders, at `pos`. -/
def rowCandidates : (pos : Nat) → (codeBefore : Bool) → List Row → List Candidate
  | _, _, [] => []
  | pos, codeBefore, row :: rows =>
    row.candidates pos codeBefore ++ rowCandidates (pos + row.markedText.length) true rows

/-! ### Edits at the comments of rows -/

section Edits

variable {synthesize : CommentSpan → LocalizedComment → Synthesis}
  {lookUp : SignatureKey → Option LocalizedComment} {shown : SignatureKey → DocLine →
    Text} {copied : Nat} {last pre t text : Text}

/-- A run shows `shown` in the place of a comment, wherever it stands. -/
def ShownAs (synthesize : CommentSpan → LocalizedComment → Synthesis)
    (lookUp : SignatureKey → Option LocalizedComment) (shown : SignatureKey → DocLine → Text) :
    Prop :=
  ∀ (key : SignatureKey) (doc : DocLine) (start stop : Nat),
    (replacement? synthesize lookUp ⟨doc.line, start, stop, some key⟩ key).elim doc.line
      Edit.replacement = shown key doc

theorem slice_commentCandidate (pre : Text) (codeBefore : Bool) (n : Nat) (v t : Text) :
    slice (pre ++ (commentLine n v ++ t)) (commentCandidate pre.length codeBefore (n, v)).start
      (commentCandidate pre.length codeBefore (n, v)).stop = commentLine n v := by
  refine slice_eq_of_append rfl rfl ?_
  simp [commentCandidate, commentLine, spaces]
  omega

theorem stop_commentCandidate (pos : Nat) (codeBefore : Bool) (n : Nat) (v : Text) :
    (commentCandidate pos codeBefore (n, v)).stop = pos + (commentLine n v).length := by
  simp [commentCandidate, commentLine, spaces]
  omega

/-- A placeholder on a line of its own is taken out. -/
theorem removal?_placeholder (pre : Text) (htext : text = pre ++ (placeholderLine ++ t))
    (codeBefore : Bool) :
    removal? text (commentCandidate pre.length codeBefore (0, placeholderWords)) =
      some ⟨pre.length, (pre ++ placeholderLine).length, []⟩ := by
  have hslice := slice_commentCandidate pre codeBefore 0 placeholderWords t
  have hstop := stop_commentCandidate pre.length codeBefore 0 placeholderWords
  have hbanner : ¬ isBanner placeholderLine = true := by decide
  have hplace : hasPlaceholder placeholderLine = true := by decide
  have hinline : contains Placeholder.inline.comment placeholderLine = false := by decide
  rw [← placeholderLine, ← htext] at hslice
  rw [removal?_eq_some (by rwa [hslice]) (by rwa [hslice]), hslice, hstop, placeholderStart,
    hinline, length_append]
  rfl

theorem removal?_doc (pre : Text) (doc : DocLine) (htext : text = pre ++ (doc.line ++ t))
    (codeBefore : Bool) :
    removal? text (commentCandidate pre.length codeBefore (doc.indent, doc.text)) = none := by
  have hslice := slice_commentCandidate pre codeBefore doc.indent doc.text t
  rw [← DocLine.line, ← htext] at hslice
  refine removal?_eq_none (.inr ?_)
  rw [hslice, not_hasPlaceholder_line]
  simp

theorem spanOf_doc {doc : DocLine} (htext : text = pre ++ (doc.line ++ t)) (codeBefore : Bool)
    (key : SignatureKey) :
    spanOf text (commentCandidate pre.length codeBefore (doc.indent, doc.text)) key =
      ⟨doc.line, pre.length, (pre ++ doc.line).length, some key⟩ := by
  have hslice := slice_commentCandidate pre codeBefore doc.indent doc.text t
  have hstop := stop_commentCandidate pre.length codeBefore doc.indent doc.text
  rw [← DocLine.line, ← htext] at hslice
  rw [spanOf, hslice, hstop, length_append]
  rfl

theorem replacement?_place {span : CommentSpan} {key : SignatureKey} {e : Edit}
    (h : replacement? synthesize lookUp span key = some e) :
    e.start = span.start ∧ e.stop = span.stop := by
  obtain ⟨doc, -, hdoc⟩ := Option.bind_eq_some_iff.mp h
  simp only [Option.ite_none_left_eq_some, Option.some.injEq] at hdoc
  obtain ⟨-, rfl⟩ := hdoc
  exact ⟨rfl, rfl⟩

/-- A part of a text up to a later place. -/
theorem slice_extend {w : Text} (htext : text = pre ++ (w ++ t)) (h : copied ≤ pre.length) :
    slice text copied (pre ++ w).length = slice text copied pre.length ++ w := by
  obtain ⟨p, q, rfl, rfl⟩ : ∃ p q, pre = p ++ q ∧ copied = p.length :=
    ⟨pre.take copied, pre.drop copied, (take_append_drop copied pre).symm,
      (length_take_of_le h).symm⟩
  rw [slice_eq_of_append (a := p) (b := q ++ w) (c := t) (by simp [htext]) rfl (by simp),
    slice_eq_of_append (a := p) (b := q) (c := w ++ t) (by simp [htext]) rfl (by simp)]

/-- The edit at a comment, if there is one, puts what is shown in its place. -/
theorem assemble_replacement (hshown : ShownAs synthesize lookUp shown) (key : SignatureKey)
    (doc : DocLine) {behind : Text} {later : List Edit}
    (hkeep : assemble text copied later = slice text copied pre.length ++ (doc.line ++ behind))
    (hskip : assemble text (pre ++ doc.line).length later = behind) :
    assemble text copied ((replacement? synthesize lookUp
        ⟨doc.line, pre.length, (pre ++ doc.line).length, some key⟩ key).toList ++ later) =
      slice text copied pre.length ++ (shown key doc ++ behind) := by
  have hrow := hshown key doc pre.length (pre ++ doc.line).length
  rw [← hrow]
  cases hcase : replacement? synthesize lookUp
      ⟨doc.line, pre.length, (pre ++ doc.line).length, some key⟩ key with
  | none => exact hkeep
  | some e =>
    obtain ⟨hstart, hstop⟩ := replacement?_place hcase
    rw [Option.toList_some, singleton_append, assemble, hstart, hstop, hskip]
    simp

/-- Edits at the comments of rows put other comments in their place and take placeholders out. -/
theorem assemble_rows (hshown : ShownAs synthesize lookUp shown) (rows : List Row)
    (htext : text = pre ++ (rows.flatMap Row.markedText ++ last)) (hcopied : copied ≤ pre.length)
    (codeBefore : Bool) :
    assemble text copied (editsOf synthesize lookUp text
        (rowCandidates pre.length codeBefore rows) ((rows.flatMap Row.documented).map Prod.fst)) =
      slice text copied pre.length ++ (rows.flatMap (Row.redocumented shown) ++ last) := by
  induction rows generalizing pre copied codeBefore with
  | nil =>
    obtain ⟨p, q, rfl, rfl⟩ : ∃ p q, pre = p ++ q ∧ copied = p.length :=
      ⟨pre.take copied, pre.drop copied, (take_append_drop copied pre).symm,
        (length_take_of_le hcopied).symm⟩
    rw [rowCandidates, editsOf, assemble,
      slice_eq_of_append (a := p) (b := q) (c := last) (by simp [htext]) rfl (by simp), htext]
    simp
  | cons row rows ih =>
    rw [flatMap_cons, append_assoc] at htext
    have hbehind : text = (pre ++ row.markedText) ++ (rows.flatMap Row.markedText ++ last) := by
      rw [htext, append_assoc]
    have hlater : ∀ {copied : Nat}, copied ≤ (pre ++ row.markedText).length → _ := fun h =>
      ih hbehind h true
    rw [rowCandidates, ← length_append, flatMap_cons, map_append, flatMap_cons, append_assoc]
    generalize rowCandidates (pre ++ row.markedText).length true rows = later at *
    -- Behind a comment that is replaced or taken out, copying begins anew.
    have hskip : ∀ w own, row.markedText = w ++ own →
        assemble text (pre ++ w).length (editsOf synthesize lookUp text later
          ((rows.flatMap Row.documented).map Prod.fst)) =
            own ++ (rows.flatMap (Row.redocumented shown) ++ last) := by
      intro w own hrow
      rw [hlater (by simp [hrow]), slice_eq_of_append (a := pre ++ w) (b := own)
        (by simp [htext, hrow]; rfl) rfl (by simp [hrow, Nat.add_assoc])]
    have hkeep := hlater (hcopied.trans (by simp))
    rw [slice_extend htext hcopied, append_assoc] at hkeep
    obtain ⟨key, lead, own⟩ := row
    cases lead with
    | nothing => exact hkeep
    | missing =>
      have hsplit : text =
          pre ++ (placeholderLine ++ (own ++ (rows.flatMap Row.markedText ++ last))) :=
        htext.trans (by rw [← append_assoc placeholderLine]; rfl)
      have hcandidates : Row.candidates pre.length codeBefore ⟨key, .missing, own⟩ =
          [commentCandidate pre.length codeBefore (0, placeholderWords)] := rfl
      rw [hcandidates, singleton_append, editsOf_of_some synthesize lookUp
        (removal?_placeholder pre hsplit codeBefore), assemble, append_nil]
      exact congrArg _ (hskip placeholderLine own rfl)
    | doc doc =>
      have hsplit : text = pre ++ (doc.line ++ (own ++ (rows.flatMap Row.markedText ++ last))) :=
        htext.trans (by rw [← append_assoc doc.line]; rfl)
      have hcandidates : Row.candidates pre.length codeBefore ⟨key, .doc doc, own⟩ =
          [commentCandidate pre.length codeBefore (doc.indent, doc.text)] := rfl
      have hdocumented : (Row.documented ⟨key, .doc doc, own⟩).map Prod.fst = [key] := rfl
      have hredocumented : Row.redocumented shown ⟨key, .doc doc, own⟩ = shown key doc ++ own := rfl
      have hmarked : Row.markedText ⟨key, .doc doc, own⟩ = doc.line ++ own := rfl
      rw [hmarked, append_assoc] at hkeep
      rw [hcandidates, hdocumented, singleton_append, singleton_append,
        editsOf_of_none synthesize lookUp (removal?_doc pre doc hsplit codeBefore),
        spanOf_doc hsplit codeBefore key, hredocumented, append_assoc]
      exact assemble_replacement hshown key doc hkeep (hskip doc.line own rfl)

/-- The candidates of rows without a placeholder are their comments. -/
theorem remaining_rows (rows : List Row)
    (htext : text = pre ++ (rows.flatMap Row.markedText ++ last)) (codeBefore : Bool) :
    remaining text (rowCandidates pre.length codeBefore rows) =
      (rows.flatMap Row.documented).length := by
  induction rows generalizing pre codeBefore with
  | nil => rfl
  | cons row rows ih =>
    rw [flatMap_cons, append_assoc] at htext
    have hrest : text = pre ++ row.markedText ++ (rows.flatMap Row.markedText ++ last) := by
      rw [htext, append_assoc]
    have hlater := ih hrest true
    rw [rowCandidates, ← length_append, flatMap_cons]
    generalize rowCandidates (pre ++ row.markedText).length true rows = later at *
    rw [length_append, ← hlater]
    obtain ⟨key, lead, own⟩ := row
    cases lead with
    | nothing => simp [Row.candidates, Row.documented, Lead.comment?, Lead.doc?]
    | missing =>
      have hremoval := removal?_placeholder pre
        (htext.trans (by rw [Row.markedText, append_assoc]; rfl)) codeBefore
      exact (remaining_cons_of_some hremoval later).trans (Nat.zero_add _).symm
    | doc doc =>
      have hremoval := removal?_doc pre doc
        (htext.trans (by rw [Row.markedText, append_assoc]; rfl)) codeBefore
      exact (remaining_cons_of_none hremoval later).trans (Nat.add_comm ..)

end Edits

/-! ### Rows of stretches -/

/-- A stretch of a source is a row. -/
structure Row.ShownBy (row : Row) (s : Stretch) : Prop where
  text_eq : grainText s.grains = row.text
  markedText_eq : grainText s.marked = row.markedText
  candidates_eq : ∀ pos codeBefore, s.candidates pos codeBefore = row.candidates pos codeBefore

def Line.row (key : SignatureKey) (line : Line) : Row where
  key := key
  lead := if line.needsMark then .missing else line.doc?.elim .nothing .doc
  own := spaces line.indent ++ (line.item ++ ['\n'])

theorem Line.doc?_row (key : SignatureKey) (line : Line) :
    (line.row key).lead.doc? = line.doc? := by
  match line with
  | .package _ | .closing _ | .opening none _ _ | .opening (some _) _ _ | .leaf none _ _
  | .leaf (some _) _ _ => rfl

theorem Line.comment?_row (key : SignatureKey) (line : Line) :
    (line.row key).lead.comment? = line.comment? true := by
  match line with
  | .package _ | .closing _ | .opening none _ _ | .opening (some _) _ _ | .leaf none _ _
  | .leaf (some _) _ _ => rfl

theorem Line.text_row (key : SignatureKey) (line : Line) : (line.row key).text = line.text := by
  rw [Row.text, Row.redocumented, Line.doc?_row]
  rfl

theorem Line.documented_row (key : SignatureKey) (line : Line) :
    (line.row key).documented = line.doc?.toList.map fun doc => (key, doc.line) := by
  rw [Row.documented, Line.doc?_row]
  rfl

theorem Line.shownBy_stretch (key : SignatureKey) (line : Line) :
    (line.row key).ShownBy line.stretch where
  text_eq := (grainText_grains_line line).trans (line.text_row key).symm
  markedText_eq := by
    rw [marked_stretch, Line.grains, grainText_append, grainText_append, grainText_append,
      grainText_commentGrains, grainText_itemGrains, grainText_codeGrains, grainText_codeGrains,
      Row.markedText, Line.comment?_row]
    rfl
  candidates_eq := fun pos codeBefore => by
    rw [Row.candidates, Line.comment?_row]
    rfl

def MemberLine.row (owner : Text) : MemberLine → Row
  | leaf line => line.line.row (line.member.declaration.key owner)
  | method line => {
      key := (Declaration.method line.member.method).key owner
      lead := line.doc.elim .nothing .doc
      own := grainText line.passage.own }

theorem MemberLine.text_row (owner : Text) (line : MemberLine) :
    (line.row owner).text = Form.text line := by
  match line with
  | .leaf line => exact Line.text_row _ line.line
  | .method ⟨none, member⟩ => rfl
  | .method ⟨some doc, member⟩ =>
    have htext : Form.text (MemberLine.method ⟨some doc, member⟩) =
        grainText (commentGrains (some (doc.indent, doc.text)) ++
          (MethodLine.passage ⟨some doc, member⟩).own) := rfl
    rw [htext, grainText_append, grainText_commentGrains]
    rfl

theorem MemberLine.documented_row (owner : Text) (line : MemberLine) :
    (line.row owner).documented = Form.documented owner line := by
  match line with
  | .leaf line => exact Line.documented_row _ line.line
  | .method ⟨none, member⟩ | .method ⟨some doc, member⟩ => rfl

/-- A member is a stretch with its row. -/
theorem MemberLine.exists_shownBy (owner : Text) {line : MemberLine} (h : line.Unending) :
    ∃ s, (line.row owner).ShownBy s := by
  match line with
  | .leaf line => exact ⟨_, Line.shownBy_stretch _ line.line⟩
  | .method line =>
    obtain ⟨m, hgrains, hmark, hcandidates, -⟩ :=
      exists_member_methodLine (show TypeKind.classType ≠ .annotationType by decide) h
    have htext := (MemberLine.method line).text_row owner
    have hcomment : ((MemberLine.method line).row owner).lead.comment? = line.passage.comment? := by
      match line with
      | ⟨none, _⟩ | ⟨some _, _⟩ => rfl
    refine ⟨m.toStretch, ⟨(congrArg grainText hgrains).trans htext.symm, ?_,
      fun pos codeBefore => ?_⟩⟩
    · rw [Stretch.marked, markedGrains, hmark, if_neg (by simp), nil_append, hgrains,
        Passage.grains, grainText_append, grainText_commentGrains, Row.markedText, hcomment]
      rfl
    · rw [hcandidates, Row.candidates, hcomment]

/-! ### Rows of a body -/

namespace Body

variable {owner : Text}

def last {α β : Type} : {owner : Text} → Body α β owner → β
  | _, close e => e
  | _, member _ rest => rest.last
  | _, type _ _ _ _ _ _ rest => rest.last

/-- The rows of a body before its end. -/
def rows : {owner : Text} → Body MemberLine Closing owner → List Row
  | _, close _ => []
  | owner, member a rest => a.row owner :: rest.rows
  | owner, type doc indent h header _ body rest =>
    (Line.opening doc indent header).row ((Declaration.type h).key owner) ::
      (body.rows ++ (Line.closing body.last.indent).row ((Declaration.type h).key owner) ::
        rest.rows)

theorem text_rows (body : Body MemberLine Closing owner) :
    body.text = body.rows.flatMap Row.text ++ Form.text body.last := by
  induction body with
  | close e => rfl
  | member a rest ih =>
    rw [text, rows, last, flatMap_cons, MemberLine.text_row, ih, append_assoc]
  | type doc indent h header distinct body rest ihBody ihRest =>
    simp [Line.text, Line.doc?, Line.item, Line.indent, Form.text, text, rows, last, Line.text_row,
      ihBody, ihRest]

theorem documented_rows (body : Body MemberLine Closing owner) :
    body.documented = body.rows.flatMap Row.documented := by
  induction body with
  | close e => rfl
  | member a rest ih =>
    rw [documented, rows, flatMap_cons, MemberLine.documented_row, ih]
  | type doc indent h header distinct body rest ihBody ihRest =>
    rw [documented, rows, flatMap_cons, flatMap_append, flatMap_cons,
      Line.documented_row, Line.documented_row, ihBody, ihRest]
    rfl

/-- A body is made of stretches with its rows. -/
theorem exists_shownBy (body : Body MemberLine Closing owner)
    (h : ∀ line ∈ body.members, line.Unending) :
    ∃ stretches, List.Forall₂ Row.ShownBy body.rows stretches := by
  induction body with
  | close e => exact ⟨[], .nil⟩
  | @member owner a rest ih =>
    obtain ⟨ha, hrest⟩ := forall_mem_cons.mp h
    obtain ⟨s, hs⟩ := MemberLine.exists_shownBy owner ha
    obtain ⟨ss, hss⟩ := ih hrest
    exact ⟨s :: ss, .cons hs hss⟩
  | type doc indent h' header distinct body rest ihBody ihRest =>
    obtain ⟨bs, hbs⟩ := ihBody fun a ha => h a (mem_append_left _ ha)
    obtain ⟨ss, hss⟩ := ihRest fun a ha => h a (mem_append_right _ ha)
    exact ⟨_, .cons (Line.shownBy_stretch _ _)
      (rel_append hbs (.cons (Line.shownBy_stretch _ _) hss))⟩

end Body

section Stretches

variable {rows : List Row} {stretches : List Stretch}

theorem grainText_stretches (h : List.Forall₂ Row.ShownBy rows stretches) :
    grainText (stretches.flatMap Stretch.grains) = rows.flatMap Row.text := by
  induction h with
  | nil => rfl
  | cons hrow _ ih => simp [hrow.text_eq, ih]

theorem grainText_marked_stretches (h : List.Forall₂ Row.ShownBy rows stretches) :
    grainText (stretches.flatMap Stretch.marked) = rows.flatMap Row.markedText := by
  induction h with
  | nil => rfl
  | cons hrow _ ih =>
    simp [hrow.markedText_eq, ih]

theorem stretchCandidates_rows (h : List.Forall₂ Row.ShownBy rows stretches) (pos : Nat)
    (codeBefore : Bool) :
    stretchCandidates pos codeBefore stretches = rowCandidates pos codeBefore rows := by
  induction h generalizing pos codeBefore with
  | nil => rfl
  | cons hrow _ ih =>
    rw [stretchCandidates, rowCandidates, hrow.candidates_eq, hrow.markedText_eq, ih]

end Stretches

end DocGraft.TypeTree

namespace DocGraft.SourceUnit

open List Text Source Signature Scanner Declaration TypeTree

/-! ### Rows of a source -/

/-- The rows of a source before the last closing brace. -/
def rows (unit : SourceUnit MemberLine Closing) : List Row :=
  unit.lines.map (Line.row ((Declaration.type unit.type).key unit.type.name.text)) ++ unit.body.rows

/-- The last closing brace of a source and what follows it. -/
def ending (unit : SourceUnit MemberLine Closing) : Text :=
  Form.text unit.body.last ++ unit.trail

/-- A source in which `shown` stands in the place of its comments. -/
def redocumented (shown : SignatureKey → DocLine → Text) (unit : SourceUnit MemberLine Closing) :
    Text :=
  unit.rows.flatMap (Row.redocumented shown) ++ unit.ending

variable {unit : SourceUnit MemberLine Closing}

theorem text_rows : unit.text = unit.rows.flatMap Row.text ++ unit.ending := by
  rw [text, rows, ending, flatMap_append, flatMap_map, unit.body.text_rows]
  simp [Line.text_row]

theorem documented_rows : unit.documented = unit.rows.flatMap Row.documented := by
  rw [documented, rows, flatMap_append, flatMap_map, ← unit.body.documented_rows, lines]
  cases unit.package <;> simp [Line.documented_row, Line.doc?]

theorem of_mem_ending {c : Char} (h : c ∈ unit.ending) : c = ' ' ∨ c = '}' ∨ c = '\n' := by
  rcases mem_append.mp h with h | h
  · rcases mem_append.mp (show c ∈ spaces unit.body.last.indent ++ ['}'] from h) with h | h
    · exact .inl (eq_of_mem_replicate h)
    · exact .inr (.inl (mem_singleton.mp h))
  · grind [trail]

theorem bare_ending : Bare unit.ending := by
  intro c hc
  rcases of_mem_ending hc with rfl | rfl | rfl <;> decide

/-- No type is declared behind the last closing brace. -/
theorem typeKeywordsFrom_ending (pos : Nat) (before : Option Char) :
    typeKeywordsFrom pos 0 before (maskText (codeGrains unit.ending)) = [] := by
  have hmarks : ∀ c ∈ unit.ending, isWord c = false ∧ c ≠ '@' := by
    intro c hc
    rcases of_mem_ending hc with rfl | rfl | rfl <;> decide
  have h := typeKeywordsFrom_marks hmarks pos before []
  rwa [append_nil, typeKeywordsFrom, ← maskText_codeGrains unit.ending] at h

/-- A source is made of stretches with its rows. -/
theorem exists_shownBy (h : ∀ line ∈ unit.body.members, line.Unending) :
    ∃ stretches, List.Forall₂ Row.ShownBy unit.rows stretches := by
  obtain ⟨ss, hss⟩ := unit.body.exists_shownBy h
  refine ⟨unit.lines.map Line.stretch ++ ss, rel_append ?_ hss⟩
  rw [forall₂_map_left_iff, forall₂_map_right_iff, forall₂_same]
  exact fun line _ => Line.shownBy_stretch _ line

/-- A source with its placeholders, and its candidates. -/
theorem start_rows (h : ∀ line ∈ unit.body.members, line.Unending) (className : Text)
    (kind : TypeKind) :
    (start unit.text className kind).text = unit.rows.flatMap Row.markedText ++ unit.ending ∧
      (start unit.text className kind).pending = rowCandidates 0 false unit.rows := by
  obtain ⟨ss, hss⟩ := exists_shownBy h
  have hne : ss ≠ [] := by
    rintro rfl
    simpa [rows, lines] using hss.length_eq
  have hgrains : grains unit.text = ss.flatMap Stretch.grains ++ codeGrains unit.ending := by
    rw [text_rows, ← grainText_stretches hss, ← grainText_codeGrains unit.ending,
      ← grainText_append, grains_grainText (standing_append.mpr
        ⟨standing_stretches _ _, bare_ending.standing []⟩), grainText_codeGrains]
  have hinsert := insertPlaceholders_stretches hgrains typeKeywordsFrom_ending
  have hmarked : insertPlaceholders unit.text =
      unit.rows.flatMap Row.markedText ++ unit.ending := by
    simp [hinsert, grainText_marked_stretches hss]
  refine ⟨(start_text ..).trans hmarked, (start_pending ..).trans ?_⟩
  have hcandidates := candidatesFrom_stretches ss [] (.inl rfl) unit.ending false
    (placed (grainText (ss.flatMap Stretch.marked)).length (codeGrains unit.ending)) (.inl hne)
  have hlast := candidatesFrom_of_ne (grainText (ss.flatMap Stretch.marked) ++ unit.ending)
    (ne_of_mem_codeGrains (w := unit.ending)) (grainText (ss.flatMap Stretch.marked)).length true []
  rw [append_nil, candidatesFrom] at hlast
  simp only [grainText_nil, nil_append, length_nil] at hcandidates
  rw [candidates_eq, hinsert, grains_grainText (standing_append.mpr
    ⟨standing_marked_stretches _ _, bare_ending.standing []⟩), grainText_append,
    grainText_codeGrains, placed_append, Nat.zero_add, hcandidates, hlast, append_nil,
    stretchCandidates_rows hss]

/-- What a run shows in the place of comments is all that it changes in a source. -/
theorem finish_run_text {synthesize : CommentSpan → LocalizedComment → Synthesis}
    {lookUp : SignatureKey → Option LocalizedComment} {shown : SignatureKey → DocLine → Text}
    (hshown : ShownAs synthesize lookUp shown) (h : ∀ line ∈ unit.body.members, line.Unending)
    (qualifiers : List Name) {kind : TypeKind} (hkind : kind ≠ .annotationType) :
    (run synthesize lookUp (start unit.text
      (QualifiedName.text ⟨qualifiers, unit.type.name⟩) kind)).scanner.finish.1 =
        unit.redocumented shown := by
  have hsights := sights_start (sound_of_unending hkind h) qualifiers
  obtain ⟨htext, hpending⟩ := start_rows h (QualifiedName.text ⟨qualifiers, unit.type.name⟩) kind
  generalize hscanner : start unit.text (QualifiedName.text ⟨qualifiers, unit.type.name⟩) kind =
    scanner at *
  rw [documented_rows] at hsights
  replace htext : scanner.text = [] ++ (unit.rows.flatMap Row.markedText ++ unit.ending) := htext
  have hcomplete : Complete scanner.pending scanner := by
    rw [Complete, hsights, hpending]
    exact (remaining_rows unit.rows htext false).le
  rw [finish_run_eq synthesize lookUp (by rw [← hscanner]; rfl)
    (by rw [← hscanner]; rfl) hcomplete, keysOf, hsights, hpending]
  exact assemble_rows hshown unit.rows htext (Nat.le_refl 0) false

end DocGraft.SourceUnit

/-! ## Comments of one line -/

namespace DocGraft.TypeTree

open List Text Source Comment

/-- Whether a comment begins with a block tag, up to white space and stars. -/
def DocLine.opensWithTag (doc : DocLine) : Bool :=
  (doc.text.dropWhile fun c => isBlank c || c = '*').head? = some '@'

/-- A comment has tags only if it begins with one. -/
theorem isTagsOnly_line (doc : DocLine) :
    isTagsOnly (substitute exceptionTagRule doc.line) = doc.opensWithTag := by
  have hline :
      doc.line = spaces doc.indent ++ ("/**".toList ++ ' ' :: (doc.text ++ " */\n".toList)) := by
    simp [DocLine.line, TypeTree.commentLine, docComment]
  have hopening : afterOpening? doc.line = some (' ' :: (doc.text ++ " */\n".toList)) := by
    rw [afterOpening?, hline, trimStart, dropWhile_append_of_pos fun c hc => by
      rw [eq_of_mem_replicate hc]; decide]
    rfl
  rw [isTagsOnly_substitute, isTagsOnly, hopening, Option.any_some,
    dropWhile_cons_of_pos (by decide), dropWhile_append, DocLine.opensWithTag]
  split_ifs with hempty
  · rw [List.isEmpty_iff.mp hempty]
    decide
  · obtain ⟨c, t, ht⟩ := exists_cons_of_ne_nil
      (fun hnil => hempty (List.isEmpty_iff.mpr hnil))
    rw [ht]
    rfl

end DocGraft.TypeTree

namespace DocGraft.Comment

open List Text Source TypeTree

variable {v : Text}

/-! ### Replacements -/

/-- There are no preformatted blocks in one line. -/
theorem fillBlocks_of_notMem (h : '\n' ∉ v) (source : Text) : fillBlocks source v = v := by
  have hparts : blocksOf (blockParts v) = [] := by
    have hmain : ∀ v : Text, '\n' ∉ v → blocksOf (blockPartsFrom 0 v) = [] := by
      intro v hv
      induction v with
      | nil => rfl
      | cons c v ih =>
        have hnone : blockAt? (c :: v) = none := by
          rw [blockAt?]
          split
          · next d rest hafter =>
            rw [after?_eq_some_iff.mp hafter] at hv
            exact absurd (by simp) hv
          · rfl
        rw [blockPartsFrom, hnone]
        exact ih fun hmem => hv (mem_cons_of_mem c hmem)
    exact hmain v h
  rw [fillBlocks, if_neg]
  rintro ⟨hne, hlength⟩
  grind

theorem height_line (doc : DocLine) : height doc.line = 1 := by
  have hshape : doc.line = (spaces doc.indent ++ docComment doc.text) ++ ['\n'] := by
    simp [DocLine.line, TypeTree.commentLine]
  have hcount : (spaces doc.indent ++ docComment doc.text).count '\n' = 0 := by
    have htext := doc.unbroken
    simp [spaces, docComment, count_eq_zero, htext]
  rw [height, hshape, count_append, hcount]
  simp

theorem indent_line (doc : DocLine) (start stop : Nat) (key : Option SignatureKey) :
    CommentSpan.indent ⟨doc.line, start, stop, key⟩ = spaces doc.indent := by
  have hshape : doc.line = spaces doc.indent ++ '/' :: ((docComment doc.text).tail ++ ['\n']) := by
    simp [DocLine.line, TypeTree.commentLine, docComment]
  rw [CommentSpan.indent, hshape, takeWhile_append_of_pos fun c hc => by
    simp [eq_of_mem_replicate hc], takeWhile_cons_of_neg (by decide), append_nil]

theorem sinces_prepare (source : Text) (doc : LocalizedComment) :
    (Draft.prepare source doc).sinces = doc.sinces := by
  dsimp only [Draft.prepare]
  split <;> rfl

/-- The replacement of a comment of one line. -/
theorem synthesize_line (style : Style) (doc : DocLine) (start stop : Nat)
    (key : Option SignatureKey) (hne : v ≠ []) (hline : '\n' ∉ v) :
    (synthesize style ⟨doc.line, start, stop, key⟩ { body := some v }).text =
      if doc.opensWithTag then [] else TypeTree.commentLine doc.indent v := by
  have hbody := Draft.body_prepare doc.line { body := some v }
  have hsinces := sinces_prepare doc.line { body := some v }
  have hlast : doc.line.getLast? = some '\n' := by
    simp [DocLine.line, TypeTree.commentLine]
  have hone : ∀ c ∈ v, c ≠ '\n' := fun c hc heq => hline (heq ▸ hc)
  rw [isTagsOnly_line] at hbody
  rw [synthesize, if_pos (by simp [height_line])]
  cases htag : doc.opensWithTag with
  | true =>
    rw [htag] at hbody
    simp [synthesizeShort, draftFor, Draft.description?, hbody, hsinces]
  | false =>
    rw [htag] at hbody
    simp only [Bool.false_eq_true, if_false] at hbody ⊢
    simp only [synthesizeShort, draftFor, Draft.description?, hbody, Option.map_some,
      fillBlocks_of_notMem hline, indent_line, height_line, hlast]
    rw [Option.filter_some_pos (by simpa using hne)]
    simpa [TypeTree.commentLine, docComment] using hone

end DocGraft.Comment

namespace DocGraft.TypeTree

open Text Source Scanner

/-- The comment that stands for one of one line, where `said` tells what is said about keys. -/
def shownFor (said : SignatureKey → Option Text) (key : SignatureKey) (doc : DocLine) : Text :=
  match said key with
  | none => doc.line
  | some v => if doc.opensWithTag then doc.line else TypeTree.commentLine doc.indent v

/-- A run shows what is said in one line. -/
theorem shownAs_shownFor (style : Style) {said : SignatureKey → Option Text}
    (h : ∀ key v, said key = some v → v ≠ [] ∧ '\n' ∉ v) :
    ShownAs (Comment.synthesize style) (fun key => (said key).map fun v => { body := some v })
      (shownFor said) := by
  intro key doc start stop
  rw [replacement?, shownFor]
  cases hsaid : said key with
  | none => rfl
  | some v =>
    obtain ⟨hne, hline⟩ := h key v hsaid
    have hmade := Comment.synthesize_line style doc start stop (some key) hne hline
    simp only [Option.map_some, Option.bind_some, hmade]
    cases doc.opensWithTag with
    | true => simp
    | false =>
      have hshown : TypeTree.commentLine doc.indent v ≠ [] := by
        simp [TypeTree.commentLine, docComment]
      by_cases hsame : TypeTree.commentLine doc.indent v = doc.line
      · simp [hsame]
      · simp [hsame, hshown]

end DocGraft.TypeTree
