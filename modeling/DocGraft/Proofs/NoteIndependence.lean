import DocGraft.Proofs.CommentRuns
import DocGraft.Proofs.NotedHeaders

/-!
# Keys and scopes without regard to notes

A scanner stands before the documentation comment of a declaration. Notes in the header of the
declaration move what stands behind them, and that is all: the scanner finds the comment with the
same key and opens the same scope, which ends where the body ends. The exceptions are headers that
notes make unreadable, such as one with a block comment behind a comma of its parameters.

The main results are `Scanner.exists_found_of_faces`, `Scanner.exists_found_of_start` for whole
runs, and `Scanner.next_noted`.
-/

namespace DocGraft.Source

/-! ### The end of a body -/

/-- The end of a body moves with the text. -/
theorem braceEndFrom_add (k pos : Nat) (depth : Int) (opened : Bool) (s : Text) :
    braceEndFrom (k + pos) depth opened s = (braceEndFrom pos depth opened s).map (k + ·) := by
  induction s generalizing pos depth opened with
  | nil => rfl
  | cons c s ih =>
    grind [braceEndFrom]

theorem braceEnd?_header {head : Text} (hopen : '{' ∉ head) (hclose : '}' ∉ head) (a s : Text) :
    braceEnd? (a ++ (head ++ s)) a.length =
      (braceEnd? s 0).map (a.length + head.length + ·) := by
  rw [braceEnd?, List.drop_left, braceEndFrom_append hopen hclose, ← Nat.add_zero (a.length + _),
    braceEndFrom_add]
  rfl

end DocGraft.Source

namespace DocGraft

open List Text Source Signature

/-- A scope that ends behind the offset `pos` moves by `n` characters. -/
def Scope.moved (pos n : Nat) (scope : Scope) : Scope :=
  if pos < scope.stop then { scope with stop := scope.stop + n } else scope

namespace Scanner

open Declaration TypeTree

variable {a b : Nat} {candidate : Candidate} {outer : List Scope} {scope : Scope}

/-! ### Scopes -/

/-- The scopes of a scanner, innermost first. -/
def scopes (scanner : Scanner) : List Scope :=
  scanner.scope :: scanner.outerScopes

/-- Scopes that end on the same side are left in the same way. -/
theorem leave_map {f : Scope → Scope} (h : ∀ s ∈ scope :: outer, ((f s).stop < b ↔ s.stop < a)) :
    leave b (f scope) (outer.map f) = (leave a scope outer).map f (List.map f) := by
  induction outer generalizing scope with
  | nil => rfl
  | cons next rest ih =>
    obtain ⟨hscope, hrest⟩ := forall_mem_cons.mp h
    rw [map_cons, leave, leave]
    grind

theorem leave_congr (h : ∀ s ∈ scope :: outer, (s.stop < b ↔ s.stop < a)) :
    leave b scope outer = leave a scope outer := by
  have hmap := leave_map (f := id) h
  simpa using hmap

theorem leave_fst_mem (stop : Nat) (scope : Scope) (outer : List Scope) :
    (leave stop scope outer).1 ∈ scope :: outer := by
  induction outer generalizing scope with
  | nil => exact mem_cons_self
  | cons next rest ih =>
    grind [leave]

/-! ### Candidates -/

theorem exists_of_mem_candidatesFrom {text : Text} {codeBefore : Bool} {segments : List Segment}
    (h : candidate ∈ candidatesFrom text codeBefore segments) :
    ∃ segment ∈ segments, candidate.commentStop = segment.stop := by
  induction segments generalizing codeBefore with
  | nil => simp [candidatesFrom] at h
  | cons segment segments ih =>
    rw [candidatesFrom_segment] at h
    split_ifs at h
    · rcases mem_cons.mp h with rfl | h
      · exact ⟨segment, mem_cons_self, rfl⟩
      · grind
    · grind

theorem stop_of_mem_placed {pos : Nat} {gs : List Grain} {segment : Segment}
    (h : segment ∈ placed pos gs) :
    pos ≤ segment.stop ∧ segment.stop ≤ pos + (grainText gs).length := by
  obtain ⟨as, bs, rfl, hstart⟩ := mem_placed.mp h
  simp only [Segment.stop, hstart, grainText_append, grainText_cons, length_append]
  omega

/-! ### Places of documentation comments -/

/-- A documentation comment in a text, with room for a declaration behind it. -/
structure DocumentedPlace where
  before : Text
  inner : Text
  after : Text
  /-- What stands before the comment is not part of a literal or another comment. -/
  standing : Standing (grains before) ['/']
  spaces : (lineLead before before.length).all (· = ' ') = true
  star : inner.head? = some '*'
  unclosed : ¬ HasClosing (inner ++ ['*'])
  unbanner : isBanner ('/' :: '*' :: (inner ++ ['*', '/'])) = false
  unmarked : ¬ Placeholder.word <:+: '/' :: '*' :: (inner ++ ['*', '/'])
  ended : after.head?.any (· ∈ declarationEnds) = true

namespace DocumentedPlace

variable {d : Declaration} (place : DocumentedPlace) (header : NotedHeader d)

def comment : Text :=
  '/' :: '*' :: (place.inner ++ ['*', '/'])

/-- The text with a declaration behind the comment. -/
def text : Text :=
  place.before ++ (place.comment ++ (header.text ++ place.after))

/-- The offset at which the header of the declaration ends. -/
def headerStop : Nat :=
  place.before.length + place.comment.length + header.text.length

def grains : List Grain :=
  Source.grains place.before ++ ((.blockComment, place.comment) ::
    (header.grains ++ Source.grains place.after))

theorem grainText_grains : grainText (place.grains header) = place.text header := by
  simp [grains, text, NotedHeader.text]

theorem standing_grains : Standing (place.grains header) [] := by
  refine standing_append.mpr ⟨place.standing.congr ?_, stands_block_of_closed place.unclosed _,
    standing_append.mpr ⟨header.standing_grains _, Source.standing_grains _⟩⟩
  rfl

theorem grains_text : Source.grains (place.text header) = place.grains header := by
  rw [← place.grainText_grains header, grains_grainText (place.standing_grains header)]

theorem mask_text : mask (place.text header) =
    (mask place.before ++ maskGrain (.blockComment, place.comment)) ++
      (shown header.pieces ++ (maskText header.tail ++ mask place.after)) := by
  rw [mask_eq, place.grains_text header, mask_eq, mask_eq, ← maskText_notedGrains]
  simp [grains, NotedHeader.grains, maskText]

theorem length_mask_comment :
    (mask place.before ++ maskGrain (.blockComment, place.comment)).length =
      place.before.length + place.comment.length := by
  have hbefore := length_flatMap_maskGrain place.standing
  have hcomment := length_maskGrain (stands_block_of_closed place.unclosed [])
  simp [mask_eq, hbefore, comment, hcomment]

/-- What follows the header begins with a mark that ends a declaration. -/
theorem exists_after : ∃ c t, Source.grains place.after = (.code, [c]) :: Source.grains t ∧
    c ∈ declarationEnds := by
  obtain ⟨c, hhead, hc⟩ := (Option.any_eq_true _ _).mp place.ended
  obtain ⟨t, ht⟩ := head?_eq_some_iff.mp hhead
  have hc : c ∈ declarationEnds := of_decide_eq_true hc
  have hall : (declarationEnds.all fun c => c ≠ '"' ∧ c ≠ '\'' ∧ c ≠ '/') = true := by decide
  have hne : c ≠ '"' ∧ c ≠ '\'' ∧ c ≠ '/' := by simpa using all_eq_true.mp hall c hc
  refine ⟨c, t, ?_, hc⟩
  rw [ht, grains_cons_code (regionAt_eq_code_iff.mpr ⟨hne.1, hne.2.1, fun h => absurd h hne.2.2⟩)]

theorem exists_mask_after : ∃ c t, mask place.after = c :: t ∧ c ∈ declarationEnds := by
  obtain ⟨c, t, hgrains, hc⟩ := place.exists_after
  refine ⟨c, (Source.grains t).flatMap maskGrain, ?_, hc⟩
  rw [mask_eq, hgrains]
  rfl

/-- The candidates before a comment, its own, and those behind the declaration. -/
theorem exists_candidates : ∃ front codeBefore rest,
    candidates (place.text header) = front ++
      candidateAt place.before place.comment (header.text ++ place.after) codeBefore :: rest ∧
    (∀ c ∈ front, c.commentStop ≤ place.before.length) ∧
    ((candidates (place.text header)).filter fun c => place.before.length < c.commentStop) =
      candidateAt place.before place.comment (header.text ++ place.after) codeBefore :: rest ∧
    ∀ next ∈ rest.head?, next.codeBefore = true := by
  obtain ⟨c, t, hafter, hc⟩ := place.exists_after
  let pos := place.before.length + place.comment.length
  let front := placed 0 (Source.grains place.before)
  let behind := placed pos (header.grains ++ Source.grains place.after)
  have hdoc : isDocComment (place.text header)
      ⟨.blockComment, place.before.length, place.comment⟩ = true := by
    have hopen : startsWith "/**".toList place.comment = true := by
      obtain ⟨v, hv⟩ := head?_eq_some_iff.mp place.star
      simp [comment, hv, startsWith, after?]
    have hlead : lineLead (place.text header) place.before.length =
        lineLead place.before place.before.length := by
      have hself := lineLead_append place.before []
      rw [append_nil] at hself
      rw [text, lineLead_append, hself]
    simp only [isDocComment, hopen, hlead, place.spaces]
    rfl
  have hcandidates := candidates_eq (place.text header)
  rw [place.grains_text, grains, placed_append, candidatesFrom_append, Nat.zero_add,
    Source.grainText_grains, placed] at hcandidates
  have hcons := candidatesFrom_cons place.before (header.text ++ place.after)
    (.blockComment, place.comment)
    (codeSince (place.text header) false front) behind
  have hbehind : candidatesFrom (place.text header) false behind =
      candidatesFrom (place.text header) (false || header.grains.any isInk)
        (placed (pos + (grainText header.grains).length) (Source.grains place.after)) := by
    rw [← candidatesFrom_of_undocumented _ header.undocumented_grains, ← placed_append]
  have hsplit : candidates (place.text header) =
      candidatesFrom (place.text header) false front ++
        candidateAt place.before place.comment (header.text ++ place.after)
          (codeSince (place.text header) false front) ::
            candidatesFrom (place.text header) false behind :=
    hcandidates.trans (congrArg _ (hcons.trans (if_pos hdoc)))
  have hfront : ∀ c ∈ candidatesFrom (place.text header) false front,
      c.commentStop ≤ place.before.length := by
    intro candidate hmem
    obtain ⟨segment, hsegment, hstop⟩ := exists_of_mem_candidatesFrom hmem
    have hle := (stop_of_mem_placed hsegment).2
    rw [Source.grainText_grains] at hle
    omega
  have hrest : ∀ c ∈ candidatesFrom (place.text header) false behind,
      place.before.length < c.commentStop := by
    intro candidate hmem
    obtain ⟨segment, hsegment, hstop⟩ := exists_of_mem_candidatesFrom hmem
    have hle := (stop_of_mem_placed hsegment).1
    grind [comment]
  refine ⟨candidatesFrom (place.text header) false front, codeSince (place.text header) false front,
    candidatesFrom (place.text header) false behind, hsplit, hfront, ?_, ?_⟩
  · have hown : place.before.length < place.before.length + place.comment.length := by
      simp [comment]
    rw [hsplit, filter_append, filter_eq_nil_iff.mpr fun c hc => by simpa using hfront c hc,
      nil_append, filter_eq_self]
    exact forall_mem_cons.mpr ⟨decide_eq_true hown, fun c hc => decide_eq_true (hrest c hc)⟩
  · rw [hbehind]
    refine codeBefore_of_holdsCode ?_ _
    rw [hafter]
    rintro segment ⟨⟩
    simp [holdsCode, Region.isComment, allBlank, (of_mem_declarationEnds hc).2.1]

/-- The comment of a place with the rest of its line is neither a banner nor a placeholder. -/
theorem proper_commentLine (b : Text) :
    isBanner (Source.commentLine place.before place.comment b) = false ∧
      hasPlaceholder (Source.commentLine place.before place.comment b) = false := by
  have hself := lineLead_append place.before []
  rw [append_nil] at hself
  have hlead : ∀ c ∈ (place.before.reverse.takeWhile (· ≠ '\n')).reverse, c = ' ' := by
    intro c hc
    have hspaces := place.spaces
    grind
  have hend : ∀ c ∈ Source.lineEnd b, c = '\n' := by
    intro c hc
    grind [Source.lineEnd]
  constructor
  · have htrim : ∀ {w e : Text}, (∀ c ∈ w, isBlank c) → (∀ c ∈ e, isBlank c) →
        trim (w ++ (place.comment ++ e)) = place.comment := by
      intro w e hw he
      have h := trim_comment hw ('*' :: (place.inner ++ ['*'])) he
      simpa [comment] using h
    have hself := htrim (w := []) (e := []) (by simp) (by simp)
    have hbanner := place.unbanner
    rw [nil_append, append_nil] at hself
    rw [isBanner, ← comment, hself] at hbanner
    rw [isBanner, Source.commentLine, htrim (fun c hc => by rw [hlead c hc]; decide)
      (fun c hc => by rw [hend c hc]; decide)]
    exact hbanner
  · by_contra h
    have hword := word_infix_of_hasPlaceholder (by simpa using h)
    refine place.unmarked (infix_of_infix_append_right (by decide) (fun c hc => ?_)
      (infix_of_infix_append_left (by decide) (fun c hc => ?_) hword))
    · rw [hend c hc]
      decide
    · rw [hlead c hc]
      decide

end DocumentedPlace

/-! ### Going on to a declaration -/

/-- A proper comment that is not superseded is found if a declaration stands behind it. -/
theorem nextFrom_of_resolve {scanner resolved : Scanner} {rest : List Candidate}
    (hproper : isProper scanner.text candidate = true) (hrest : isSuperseded rest = false)
    {key : SignatureKey} {notices : List Notice}
    (hresolve : scanner.resolve candidate = (some key, resolved, notices)) :
    nextFrom (candidate :: rest) scanner =
      ⟨some (spanOf scanner.text candidate key, key),
        { resolved with
          pending := rest
          current := some (spanOf scanner.text candidate key) }, notices⟩ := by
  simp only [isProper, Bool.and_eq_true, Bool.not_eq_true'] at hproper
  rw [isSuperseded] at hrest
  simp only [nextFrom, hproper, hrest, hresolve, Bool.false_eq_true, if_false]
  rfl

/-- A scanner stands before the comment of a declaration. -/
structure Faces (scanner : Scanner) (place : DocumentedPlace) {d : Declaration}
    (header : NotedHeader d) : Prop where
  text : scanner.text = place.text header
  masked : scanner.masked = mask (place.text header)
  kind : scanner.kind ≠ .annotationType
  pending : scanner.pending =
    (candidates (place.text header)).filter fun c => place.before.length < c.commentStop
  names : ∀ scope ∈ scanner.scopes, IsName scope.name
  apart : ∀ scope ∈ scanner.scopes,
    scope.stop ≤ place.before.length ∨ place.headerStop header < scope.stop

/-- The name of the innermost class around an offset. -/
def ownerAt (scanner : Scanner) (offset : Nat) : Text :=
  (scanner.leaveScopes offset).scope.name

section Faces

variable {d : Declaration} {place : DocumentedPlace} {header : NotedHeader d} {scanner : Scanner}

namespace Faces

theorem exists_pending (h : scanner.Faces place header) : ∃ codeBefore rest,
    scanner.pending =
      candidateAt place.before place.comment (header.text ++ place.after) codeBefore :: rest ∧
    ∀ next ∈ rest.head?, next.codeBefore = true := by
  obtain ⟨-, codeBefore, rest, -, -, hfilter, hnext⟩ := place.exists_candidates header
  exact ⟨codeBefore, rest, h.pending.trans hfilter, hnext⟩

/-- Up to the end of the header the scopes are left as they are before the comment. -/
theorem leaveScopes_eq (h : scanner.Faces place header) {stop : Nat}
    (hstop : place.before.length < stop) (hle : stop ≤ place.headerStop header) :
    scanner.leaveScopes stop = scanner.leaveScopes (place.before.length + 1) := by
  have hleave : leave stop scanner.scope scanner.outerScopes =
      leave (place.before.length + 1) scanner.scope scanner.outerScopes := by
    refine leave_congr fun scope hscope => ?_
    have := h.apart scope hscope
    omega
  rw [leaveScopes, leaveScopes, hleave]

theorem isName_ownerAt (h : scanner.Faces place header) (offset : Nat) :
    IsName (scanner.ownerAt offset) :=
  h.names _ (leave_fst_mem offset scanner.scope scanner.outerScopes)

/-- The comment is resolved to the key of the declaration, and a type opens a scope. -/
theorem resolve_eq (h : scanner.Faces place header) (hreadable : header.isReadable)
    {candidate : Candidate}
    (hcomment : candidate.commentStop = place.before.length + place.comment.length)
    (hstop : place.before.length < candidate.stop) (hle : candidate.stop ≤ place.headerStop header)
    {bodyStop : Nat}
    (hbody : (∃ t, d = .type t) → braceEnd? (mask place.after) 0 = some bodyStop) :
    let key := d.key (scanner.ownerAt (place.before.length + 1))
    let left := scanner.leaveScopes (place.before.length + 1)
    scanner.resolve candidate = (some key,
      if key.declaresInner then left.enterScope ⟨key.owner, place.headerStop header + bodyStop⟩
      else left, []) := by
  intro key left
  have hleft : scanner.leaveScopes candidate.stop = left := h.leaveScopes_eq hstop hle
  have hread := NotedHeader.readAs hreadable (header.endedBy place.exists_mask_after) h.kind
  let a := mask place.before ++ maskGrain (.blockComment, place.comment)
  have ha : a.length = place.before.length + place.comment.length := place.length_mask_comment
  have hsplit : shown header.pieces = shown header.lead ++ shown header.core := by
    rw [shown, ← header.lead_append_core, flatMap_append]
    rfl
  have hmasked : scanner.masked = a ++ (shown header.lead ++ (shown header.core ++
      (maskText header.tail ++ mask place.after))) := by
    rw [h.masked, place.mask_text header, hsplit]
    simp [a]
  have hkey : SignatureKey.ofDeclaration (scanner.leaveScopes candidate.stop).scope.name
      (spelling (readPieces header.core)) = .ok key := by
    rw [hleft]
    exact NotedHeader.ofDeclaration_core
      (Name.unqualified ⟨scanner.ownerAt (place.before.length + 1), h.isName_ownerAt _⟩)
  have hend : key.declaresInner = true →
      braceEnd? scanner.masked (a.length + (shown header.lead).length) =
        some (place.headerStop header + bodyStop) := by
    intro hinner
    obtain ⟨t, rfl⟩ : ∃ t, d = .type t := by
      cases d with
      | method m => cases hinner
      | field f => cases hinner
      | type t => exact ⟨t, rfl⟩
    have htail : header.tail = [] := by
      have hthrown := header.thrown
      rw [NotedHeader.tail]
      cases hexceptions : header.exceptions with
      | none => rfl
      | some ps =>
        obtain ⟨m, hm⟩ := hthrown (by rw [hexceptions]; rfl)
        cases hm
    have hlength : (shown header.lead).length + (shown header.core).length =
        header.text.length := by
      rw [← length_append, ← hsplit, ← maskText_notedGrains,
        length_maskText (standing_notedGrains header.pieces []), NotedHeader.text,
          NotedHeader.grains,
        htail, append_nil]
    have hbrace := braceEnd?_header (NotedHeader.brace_notMem_core hreadable (.inl rfl))
      (NotedHeader.brace_notMem_core hreadable (.inr rfl)) (a ++ shown header.lead)
        (mask place.after)
    rw [hmasked, htail, maskText_nil, nil_append, ← append_assoc, ← length_append, hbrace,
      hbody ⟨t, rfl⟩, Option.map_some, length_append, DocumentedPlace.headerStop, ← hlength, ha]
    simp only [Option.some.injEq]
    omega
  rw [TypeTree.resolve_eq hread hmasked (hcomment.trans ha.symm) hkey hend, hleft]

end Faces

/-- A scanner before the comment of a declaration finds it with the key of the declaration in the
innermost class. A type with another name opens a scope, which ends with its body. -/
theorem exists_found_of_faces (h : scanner.Faces place header) (hreadable : header.isReadable)
    {bodyStop : Nat}
    (hbody : (∃ t, d = .type t) → braceEnd? (mask place.after) 0 = some bodyStop) :
    let key := d.key (scanner.ownerAt (place.before.length + 1))
    let left := (scanner.leaveScopes (place.before.length + 1)).scopes
    (∃ span, scanner.next.found = some (span, key) ∧
      span.start = lineStart place.before place.before.length) ∧
    scanner.next.scanner.scopes =
      if key.declaresInner then ⟨key.owner, place.headerStop header + bodyStop⟩ ::
        left else left := by
  intro key left
  obtain ⟨codeBefore, rest, hpending, hrest⟩ := h.exists_pending
  let candidate := candidateAt place.before place.comment (header.text ++ place.after) codeBefore
  have hproper : isProper scanner.text candidate = true := by
    have hslice : slice scanner.text candidate.start candidate.stop =
        Source.commentLine place.before place.comment (header.text ++ place.after) := by
      rw [h.text]
      exact slice_commentLine _ _ _
    obtain ⟨hbanner, hplace⟩ := place.proper_commentLine (header.text ++ place.after)
    rw [isProper, hslice, hbanner, hplace]
    rfl
  have hlast := isSuperseded_eq_false hrest
  have hstop : place.before.length < candidate.stop ∧ candidate.stop ≤ place.headerStop header := by
    have hcomment : 0 < place.comment.length := by simp [DocumentedPlace.comment]
    have hlineEnd : (Source.lineEnd (header.text ++ place.after)).length ≤ header.text.length := by
      have hne := length_pos_of_ne_nil header.text_ne_nil
      rw [Source.lineEnd]
      split_ifs <;> simp
      omega
    simp only [candidate, candidateAt, DocumentedPlace.headerStop]
    omega
  let idle : Scanner := { scanner with current := none }
  have hidle : idle.Faces place header := ⟨h.text, h.masked, h.kind, h.pending, h.names, h.apart⟩
  let entered := idle.leaveScopes (place.before.length + 1)
  let resolved : Scanner :=
    if key.declaresInner then entered.enterScope ⟨key.owner, place.headerStop header + bodyStop⟩
    else entered
  have hresolve : idle.resolve candidate = (some key, resolved, []) :=
    hidle.resolve_eq hreadable rfl hstop.1 hstop.2 hbody
  have hscopes : resolved.scopes =
      if key.declaresInner then ⟨key.owner, place.headerStop header + bodyStop⟩ ::
        left else left := by
    by_cases hinner : key.declaresInner = true
    · simp only [resolved, if_pos hinner]
      rfl
    · simp only [resolved, if_neg hinner]
      rfl
  have hstart : candidate.start = lineStart place.before place.before.length := by
    have hself := lineLead_append place.before []
    rw [append_nil] at hself
    simp only [candidate, candidateAt, lineStart]
    rw [lineLead_append, hself]
  have hnext : scanner.next = nextFrom (candidate :: rest) idle :=
    congrArg (nextFrom · idle) hpending
  rw [nextFrom_of_resolve (show isProper idle.text candidate = true from hproper)
    hlast hresolve] at hnext
  rw [hnext]
  exact ⟨⟨_, rfl, hstart⟩, hscopes⟩

end Faces

/-! ### Coming to a declaration -/

section Start

variable {d : Declaration} {place : DocumentedPlace} {header : NotedHeader d} {scanner : Scanner}
  {kind : TypeKind} {source className : Text}

/-- Going past a comment that documents no inner class keeps the outermost scope. -/
theorem alike_pass (houter : scanner.outerScopes = [])
    (h : ∀ key ∈ (scanner.resolve candidate).1, key.declaresInner = false) (superseded : Bool) :
    Alike scanner (scanner.pass superseded candidate) := by
  have hleft : Alike scanner (scanner.leaveScopes candidate.stop) := by
    refine ⟨rfl, rfl, rfl, ?_, ?_⟩ <;> simp [leaveScopes, houter, leave]
  have hresolve : (scanner.resolve candidate).2.1 = scanner.leaveScopes candidate.stop := by
    unfold resolve at h ⊢
    dsimp only at h ⊢
    split
    · rfl
    · split
      · rfl
      · grind
  unfold pass
  dsimp only
  split_ifs
  · exact ⟨rfl, rfl, rfl, rfl, rfl⟩
  · rwa [hresolve]

/-- What is found behind comments that document no inner classes is found in the whole. -/
theorem findings_subset {front : List Candidate} (houter : scanner.outerScopes = [])
    (h : ∀ c ∈ front, ∀ key ∈ (scanner.resolve c).1, key.declaresInner = false)
    (behind : List Candidate) : findings behind scanner ⊆ findings (front ++ behind) scanner := by
  induction front with
  | nil => exact Subset.refl _
  | cons c front ih =>
    rw [forall_mem_cons] at h
    rw [cons_append, findings, ← (alike_pass houter h.1 _).findings]
    exact Subset.trans (ih h.2) (subset_append_right _ _)

theorem length_text (place : DocumentedPlace) (header : NotedHeader d) :
    (place.text header).length = place.headerStop header + place.after.length := by
  simp [DocumentedPlace.text, DocumentedPlace.headerStop, Nat.add_assoc]

/-- A scanner at the beginning, with the comments before the declaration left out, faces it. -/
theorem faces_start (hsource : insertPlaceholders source = place.text header)
    (hkind : kind ≠ .annotationType) (hname : IsName (simpleName className)) :
    Faces { start source className kind with
      pending := (candidates (place.text header)).filter fun c =>
        place.before.length < c.commentStop } place header := by
  have hafter : place.after ≠ [] := by
    intro hnil
    simpa [hnil] using place.ended
  have hstop : place.headerStop header < (insertPlaceholders source).length := by
    have hpos := length_pos_of_ne_nil hafter
    rw [hsource, length_text]
    omega
  exact ⟨hsource, congrArg mask hsource, hkind, rfl, forall_mem_singleton.mpr hname,
    forall_mem_singleton.mpr (.inr hstop)⟩

/-- **Notes in a run.** A run over a source finds the comment of a declaration with the key of the
declaration, whatever notes stand in the header, if the comments before it document no inner
classes. -/
theorem exists_found_of_start (hsource : insertPlaceholders source = place.text header)
    (hkind : kind ≠ .annotationType) (hname : IsName (simpleName className))
    (hreadable : header.isReadable)
    (hinner : ∀ c ∈ candidates (place.text header), c.commentStop ≤ place.before.length →
      ∀ key ∈ ((start source className kind).resolve c).1, key.declaresInner = false)
    {bodyStop : Nat}
    (hbody : (∃ t, d = .type t) → braceEnd? (mask place.after) 0 = some bodyStop) :
    ∃ n span, (advance^[n] (start source className kind)).next.found =
        some (span, d.key (simpleName className)) ∧
      span.start = lineStart place.before place.before.length := by
  let waiting : Scanner := { start source className kind with
    pending := (candidates (place.text header)).filter fun c =>
      place.before.length < c.commentStop }
  have hfaces : waiting.Faces place header := faces_start hsource hkind hname
  have halike : Alike (start source className kind) waiting := ⟨rfl, rfl, rfl, rfl, rfl⟩
  obtain ⟨⟨span, hfound, hstart⟩, -⟩ := exists_found_of_faces hfaces hreadable hbody
  obtain ⟨front, codeBefore, rest, hcandidates, hfront, hfilter, -⟩ :=
    place.exists_candidates header
  have hmem : (span, d.key (simpleName className)) ∈
      findings waiting.pending (start source className kind) := by
    rw [halike.findings, findings_pending, hfound]
    exact mem_cons_self
  -- What is found behind the other comments is found in the run over all of them.
  have hall := findings_subset (start_outerScopes source className kind)
    (fun c hc => hinner c (hcandidates ▸ mem_append_left _ hc) (hfront c hc)) waiting.pending hmem
  have hpending : (start source className kind).pending = front ++ waiting.pending := by
    rw [start_pending, hsource, hcandidates, ← hfilter]
  rw [← hpending] at hall
  obtain ⟨n, hn⟩ := (exists_found_iff _ _).mpr hall
  exact ⟨n, span, hn, hstart⟩

end Start

/-! ### Notes -/

section Notes

variable {d : Declaration} {place : DocumentedPlace} {header : NotedHeader d}
  {scanner noted : Scanner}

/-- The number of characters by which notes make a header longer. -/
def noteLength (header : NotedHeader d) : Nat :=
  header.text.length - header.bare.text.length

theorem headerStop_eq (place : DocumentedPlace) (header : NotedHeader d) :
    place.headerStop header = place.headerStop header.bare + noteLength header := by
  have hle : header.bare.text.length ≤ header.text.length := NotedHeader.length_bare_le
  grind [DocumentedPlace.headerStop, noteLength]

theorem name_moved (pos n : Nat) (scope : Scope) : (scope.moved pos n).name = scope.name := by
  rw [Scope.moved]
  split_ifs <;> rfl

/-- A run over the text with notes begins with the moved scopes of a run over the bare one. -/
theorem scopes_start_noted {source notedSource className : Text} {kind : TypeKind}
    (hsource : insertPlaceholders source = place.text header.bare)
    (hnoted : insertPlaceholders notedSource = place.text header) :
    (start notedSource className kind).scopes = (start source className kind).scopes.map
      (Scope.moved place.before.length (noteLength header)) := by
  have hstop := headerStop_eq place header
  have hbefore : place.before.length < place.headerStop header.bare := by
    grind [DocumentedPlace.comment, DocumentedPlace.headerStop]
  simp only [scopes, start_scope, start_outerScopes, hsource, hnoted, length_text, map_cons,
    map_nil, Scope.moved]
  grind

/-- Scopes that have moved are left in the same way at the offset from which on they move. -/
theorem scopes_leaveScopes_moved {pos n : Nat}
    (h : noted.scopes = scanner.scopes.map (Scope.moved pos n)) :
    (noted.leaveScopes (pos + 1)).scopes =
      (scanner.leaveScopes (pos + 1)).scopes.map (Scope.moved pos n) := by
  obtain ⟨hscope, houter⟩ := List.cons.inj h
  have hside : ∀ scope : Scope, ((scope.moved pos n).stop < pos + 1 ↔ scope.stop < pos + 1) := by
    intro scope
    grind [Scope.moved]
  have hleave : leave (pos + 1) noted.scope noted.outerScopes =
      (leave (pos + 1) scanner.scope scanner.outerScopes).map (Scope.moved pos n)
        (List.map (Scope.moved pos n)) := by
    rw [hscope, houter]
    exact leave_map fun scope _ => hside scope
  have hscopes : (noted.leaveScopes (pos + 1)).scopes =
      (leave (pos + 1) noted.scope noted.outerScopes).1 ::
        (leave (pos + 1) noted.scope noted.outerScopes).2 :=
    rfl
  rw [hscopes, hleave]
  rfl

/-- Notes in a header that can be read change neither the key that a scanner finds for the
declaration nor, but for where they end, the scopes that it is then inside of. -/
theorem next_noted (place : DocumentedPlace) (header : NotedHeader d)
    (hreadable : header.isReadable) (h : scanner.Faces place header.bare)
    (hnoted : noted.Faces place header)
    (hscopes : noted.scopes =
      scanner.scopes.map (Scope.moved place.before.length (noteLength header)))
    {bodyStop : Nat}
    (hbody : (∃ t, d = .type t) → braceEnd? (mask place.after) 0 = some bodyStop) :
    let key := d.key (scanner.ownerAt (place.before.length + 1))
    (∃ span, scanner.next.found = some (span, key) ∧
      span.start = lineStart place.before place.before.length) ∧
    (∃ span, noted.next.found = some (span, key) ∧
      span.start = lineStart place.before place.before.length) ∧
    (key.declaresInner →
      scanner.next.scanner.scope = ⟨key.owner, place.headerStop header.bare + bodyStop⟩ ∧
      noted.next.scanner.scope = ⟨key.owner, place.headerStop header + bodyStop⟩) ∧
    noted.next.scanner.scopes =
      scanner.next.scanner.scopes.map (Scope.moved place.before.length (noteLength header)) := by
  intro key
  obtain ⟨hfound, hafter⟩ := exists_found_of_faces h (NotedHeader.isReadable_bare hreadable) hbody
  obtain ⟨hfoundNoted, hafterNoted⟩ := exists_found_of_faces hnoted hreadable hbody
  have hleft := scopes_leaveScopes_moved hscopes
  have howner : noted.ownerAt (place.before.length + 1) =
      scanner.ownerAt (place.before.length + 1) := by
    grind [scopes, ownerAt, name_moved]
  rw [howner] at hfoundNoted hafterNoted
  refine ⟨hfound, hfoundNoted, fun hinner => ?_, ?_⟩
  · rw [if_pos hinner] at hafter hafterNoted
    exact ⟨(List.cons.inj hafter).1, (List.cons.inj hafterNoted).1⟩
  · rw [hafter, hafterNoted, hleft]
    by_cases hinner : key.declaresInner = true
    · rw [if_pos hinner, if_pos hinner, List.map_cons, Scope.moved, if_pos, headerStop_eq]
      · grind
      · grind [DocumentedPlace.comment, DocumentedPlace.headerStop]
    · rw [if_neg hinner, if_neg hinner]

end Notes

/-! ### A type with notes -/

private def blankPiece : NotedPiece :=
  .piece (.gap ' ' space_mem_gapCharacters)

private def breakPiece : NotedPiece :=
  .piece (.gap '\n' newline_mem_gapCharacters)

private def keywordPiece (s : Text) (h : s ∈ keywords) : NotedPiece :=
  .piece (.token (.keyword s h))

private def blockNote (v : Text) (h : contains ['*', '/'] (v ++ ['*']) = false)
    (ordinary : v.head?.any (· ≠ '*') = true) : NotedPiece :=
  .note (.block v (by rw [HasClosing, ← contains_iff, h]; simp) ordinary)

private def lineNote (v : Text) (h : '\n' ∉ v) : NotedPiece :=
  .note (.line v h)

private def elementUse : SourceAnnotation where
  name := Name.upperX.unqualified
  gap := []
  blank := nil_subset_gapCharacters
  arguments := some {
    text := "(x = 1)".toList
    uncommented := by decide +kernel
    masked := ⟨⟨"x = 1".toList, by decide, by decide⟩, []⟩
    mask_eq := by decide +kernel
    typeless := by decide +kernel
    closed := by decide +kernel }
  gap_eq_nil := fun _ => rfl

private def innerType : TypeHeader :=
  { TypeHeader.ofClass .upperB with
    modifiers := [.annotationUse elementUse.masked, .word "static".toList (by decide)] }

/-- The header of a class with notes between its tokens. -/
private def innerHeader : NotedHeader (.type innerType) where
  pieces := [breakPiece, blankPiece, .piece (.annotationUse elementUse), blankPiece,
    blockNote " ; ".toList (by decide) (by decide), keywordPiece "static".toList (by decide),
    blankPiece, lineNote " class C \x7b".toList (by decide),
      keywordPiece "class".toList (by decide),
    blockNote " = ".toList (by decide) (by decide), blankPiece,
    .piece (.token (.name Name.upperB.unqualified)), blankPiece]
  spells := ⟨rfl, by decide⟩
  unclung := by unfold Unclung; decide
  exceptions := none
  spaced := spaced_none
  thrown := by simp

/-- The place of a documented class in another class, whose comment says `t`. -/
private def innerPlace : DocumentedPlace where
  before := "/** t */\nclass A \x7b\n ".toList
  inner := "* d ".toList
  after := "\x7b\n int f;\n \x7d\n\x7d\n".toList
  standing := by
    have hgrains : grains "/** t */\nclass A \x7b\n ".toList =
        (.blockComment, "/** t */".toList) :: codeGrains "\nclass A \x7b\n ".toList := by
      decide +kernel
    have hbare : Bare "\nclass A \x7b\n ".toList := by simp [Bare]
    have hunclosed : ¬ ['*', '/'] <:+: "* t ".toList ++ ['*'] := by
      rw [← contains_iff]
      decide
    rw [hgrains]
    exact ⟨stands_block_of_closed hunclosed _, hbare.standing _⟩
  spaces := by decide
  star := rfl
  unclosed := by
    rw [HasClosing, ← contains_iff]
    decide
  unbanner := by decide
  unmarked := by
    rw [← contains_iff]
    decide
  ended := by decide

/-- A scanner that has found the comment of the outer class. -/
private def scannerBefore (header : NotedHeader (.type innerType)) : Scanner :=
  (start (innerPlace.text header) "A".toList .classType).next.scanner

private theorem faces_scannerBefore {header : NotedHeader (.type innerType)}
    (h : (scannerBefore header).text = innerPlace.text header ∧
      (scannerBefore header).masked = mask (innerPlace.text header) ∧
      (scannerBefore header).kind ≠ .annotationType ∧
      (scannerBefore header).pending = (candidates (innerPlace.text header)).filter
        (fun c => innerPlace.before.length < c.commentStop) ∧
      ((scannerBefore header).scopes.all fun scope => canBeName scope.name &&
        (scope.stop ≤ innerPlace.before.length ∨
          innerPlace.headerStop header < scope.stop)) = true) :
    (scannerBefore header).Faces innerPlace header := by
  obtain ⟨htext, hmasked, hkind, hpending, hscopes⟩ := h
  have hscopes := fun scope hmem => Bool.and_eq_true_iff.mp (all_eq_true.mp hscopes scope hmem)
  exact ⟨htext, hmasked, hkind, hpending,
    fun scope hmem => (Name.ofText scope.name (hscopes scope hmem).1).isName,
    fun scope hmem => of_decide_eq_true (hscopes scope hmem).2⟩

theorem next_noted_before_type :
    innerHeader.isReadable = true ∧
    (scannerBefore innerHeader.bare).Faces innerPlace innerHeader.bare ∧
    (scannerBefore innerHeader).Faces innerPlace innerHeader ∧
    innerPlace.text innerHeader.bare = ("/** t */\nclass A \x7b\n /** d */\n @X(x = 1) static " ++
      "class B \x7b\n int f;\n \x7d\n\x7d\n").toList ∧
    innerPlace.text innerHeader = ("/** t */\nclass A \x7b\n /** d */\n @X(x = 1) /* ; */static " ++
      "// class C \x7b\nclass/* = */ B \x7b\n int f;\n \x7d\n\x7d\n").toList ∧
    (∃ span, (scannerBefore innerHeader.bare).next.found =
        some (span, ⟨"B".toList, "B".toList, [], true⟩) ∧ span.start = 19) ∧
    (∃ span, (scannerBefore innerHeader).next.found =
        some (span, ⟨"B".toList, "B".toList, [], true⟩) ∧ span.start = 19) ∧
    (scannerBefore innerHeader.bare).next.scanner.scope = ⟨"B".toList, 67⟩ ∧
    (scannerBefore innerHeader).next.scanner.scope = ⟨"B".toList, 94⟩ := by
  have hreadable : innerHeader.isReadable = true := by decide +kernel
  have hfaces : (scannerBefore innerHeader.bare).Faces innerPlace innerHeader.bare :=
    faces_scannerBefore (by decide +kernel)
  have hnoted : (scannerBefore innerHeader).Faces innerPlace innerHeader :=
    faces_scannerBefore (by decide +kernel)
  have hscopes : (scannerBefore innerHeader).scopes = (scannerBefore innerHeader.bare).scopes.map
      (Scope.moved innerPlace.before.length (noteLength innerHeader)) := by
    decide +kernel
  have hbody : braceEnd? (mask innerPlace.after) 0 = some 12 := by decide +kernel
  have hkey : (Declaration.type innerType).key
      ((scannerBefore innerHeader.bare).ownerAt (innerPlace.before.length + 1)) =
        ⟨"B".toList, "B".toList, [], true⟩ := by
    decide +kernel
  obtain ⟨hfound, hfoundNoted, hscope, -⟩ :=
    next_noted innerPlace innerHeader hreadable hfaces hnoted hscopes fun _ => hbody
  rw [hkey] at hfound hfoundNoted hscope
  exact ⟨hreadable, hfaces, hnoted, by decide +kernel, by decide +kernel, hfound, hfoundNoted,
    hscope rfl⟩

/-! ### A note behind a comma -/

/-- A block comment behind a comma of the parameters is taken for the end of the declaration, and
what stands before the comma for a field. A line comment there is not. -/
theorem next_note_behind_comma :
    ((start "class A \x7b\n /** d */\n void m(int a, int b) \x7b\x7d\n\x7d\n".toList "A".toList
        .classType).next.found.map Prod.snd =
      some ⟨"A".toList, "m".toList, "(int,int)".toList, false⟩) ∧
    ((start "class A \x7b\n /** d */\n void m(int a, /* c */ int b) \x7b\x7d\n\x7d\n".toList
        "A".toList .classType).next.found.map Prod.snd =
      some ⟨"A".toList, "a".toList, [], false⟩) ∧
    ((start "class A \x7b\n /** d */\n void m(int a, // c\n int b) \x7b\x7d\n\x7d\n".toList
        "A".toList .classType).next.found.map Prod.snd =
      some ⟨"A".toList, "m".toList, "(int,int)".toList, false⟩) := by
  decide +kernel

end Scanner

end DocGraft
