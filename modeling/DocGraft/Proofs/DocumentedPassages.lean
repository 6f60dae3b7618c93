import DocGraft.Proofs.TypeBody

/-!
# Passages of documented code

A member of a type is code with a comment before it, or several such passages one after the other. A
comment stands on a line of its own, so the passage before it ends with a line feed. What a scanner
visits in the passages are the comments, each with the key of the declaration behind it.
-/

namespace DocGraft.TypeTree

open List Text Source Signature Scanner Declaration

variable {kind : TypeKind} {passages : List Passage}

/-! ### Passages -/

/-- The marks behind code. -/
def trailMarks : List Char :=
  [',', ';'] ++ gapCharacters

theorem newline_subset_trailMarks : ∀ c ∈ ['\n'], c ∈ trailMarks := by
  simpa using by decide

/-- Code with the comment before it and the marks behind it. -/
structure Passage where
  doc : Option DocLine
  code : List Grain
  trail : Text
  /-- The key of what it declares in the type `owner`. -/
  key : (owner : Text) → SignatureKey
  standing : ∀ t, Standing code t
  uncommented : ∀ g ∈ code, g.1.isComment = false
  inked : code.any isInk = true
  /-- It declares no type. -/
  keyless : Keyless (maskText code)
  /-- Its braces match. -/
  balanced : Balanced (maskText code)
  marks : ∀ c ∈ trail, c ∈ trailMarks

namespace Passage

def comment? (passage : Passage) : Option (Nat × Text) :=
  passage.doc.map fun doc => (doc.indent, doc.text)

/-- What follows the comment. -/
def own (passage : Passage) : List Grain :=
  passage.code ++ codeGrains passage.trail

def grains (passage : Passage) : List Grain :=
  commentGrains passage.comment? ++ passage.own

/-- The comment of another passage can stand behind this one. -/
def Precedes (passage next : Passage) : Prop :=
  passage.trail ≠ [] ∧ (next.doc.isSome → passage.trail.getLast? = some '\n')

theorem idle_trail (passage : Passage) : ∀ c ∈ passage.trail, isIdle c := by
  have hall : trailMarks.all isIdle = true := by decide
  exact fun c hc => all_eq_true.mp hall c (passage.marks c hc)

theorem inert_own (passage : Passage) : Inert passage.own := by
  refine Inert.append ⟨passage.standing, passage.uncommented, passage.keyless, passage.balanced⟩
    (inert_marks passage.idle_trail) fun c hc => ?_
  rw [maskText_codeGrains] at hc
  exact (of_isIdle (passage.idle_trail c (mem_of_head? hc))).1.1

theorem standing_comment (passage : Passage) (t : Text) :
    Standing (commentGrains passage.comment?) t := by
  rw [comment?]
  cases passage.doc with
  | none => trivial
  | some doc =>
    exact standing_append.mpr ⟨(bare_spaces _).standing _, stands_docComment doc.unclosed _,
      stands_newline _, trivial⟩

theorem standing_grains (passage : Passage) (t : Text) : Standing passage.grains t :=
  standing_append.mpr ⟨passage.standing_comment _, passage.inert_own.standing t⟩

theorem plain_grains (passage : Passage) : ∀ g ∈ passage.grains, Plain g := by
  intro g hg
  rcases mem_append.mp hg with hg | hg
  · rw [comment?] at hg
    cases hdoc : passage.doc with
    | none => simp [hdoc, commentGrains] at hg
    | some doc =>
      rw [hdoc] at hg
      exact plain_commentGrains doc g hg
  · exact fun hblock => absurd hblock (passage.inert_own.ne_blockComment g hg)

theorem any_isInk_own (passage : Passage) : passage.own.any isInk = true := by
  rw [own, any_append, passage.inked, Bool.true_or]

theorem balanced_grains (passage : Passage) : Balanced (maskText passage.grains) := by
  have hcomment : Balanced (maskText (commentGrains passage.comment?)) :=
    balanced_of_maskMarks fun c hc => mem_maskMarks_of_comment hc
  rw [grains, maskText_append]
  exact hcomment.append passage.inert_own.balanced

end Passage

/-! ### Passages one after the other -/

def passageGrains (passages : List Passage) : List Grain :=
  passages.flatMap Passage.grains

/-- The candidates of passages that begin at `pos`. -/
def passageCandidates : (pos : Nat) → (codeBefore : Bool) → List Passage → List Candidate
  | _, _, [] => []
  | pos, codeBefore, passage :: passages =>
    passage.comment?.toList.map (commentCandidate pos codeBefore) ++
      passageCandidates (pos + (grainText passage.grains).length) true passages

theorem passageGrains_cons (passage : Passage) (passages : List Passage) :
    passageGrains (passage :: passages) = passage.grains ++ passageGrains passages :=
  flatMap_cons

theorem standing_passages (passages : List Passage) (t : Text) :
    Standing (passageGrains passages) t := by
  induction passages with
  | nil => trivial
  | cons passage passages ih => exact standing_append.mpr ⟨passage.standing_grains _, ih⟩

theorem plain_passages (passages : List Passage) : ∀ g ∈ passageGrains passages, Plain g := by
  intro g hg
  obtain ⟨passage, -, hpassage⟩ := mem_flatMap.mp hg
  exact passage.plain_grains g hpassage

theorem balanced_passages (passages : List Passage) :
    Balanced (maskText (passageGrains passages)) := by
  induction passages with
  | nil => exact balanced_nil
  | cons passage passages ih =>
    rw [passageGrains_cons, maskText_append]
    exact passage.balanced_grains.append ih

theorem keyless_passages (h : passages.IsChain Passage.Precedes) :
    Keyless (maskText (passageGrains passages)) := by
  induction passages with
  | nil => exact keyless_nil
  | cons passage passages ih =>
    have hrest := ih h.tail
    have htrail : ∀ c ∈ passage.trail, isWord c = false ∧ c ≠ '@' := fun c hc =>
      (of_isIdle (passage.idle_trail c hc)).1
    have hhead : ∀ c ∈ (passage.trail ++ maskText (passageGrains passages)).head?, isWord c =
        false := by
      cases passages with
      | nil =>
        intro c hc
        grind [passageGrains, maskText_nil]
      | cons next passages =>
        have hne := (isChain_cons_cons.mp h).1.1
        intro c hc
        grind [head?_append_of_ne_nil _ hne]
    have hcode := keyless_append passage.keyless (hrest.marks htrail) hhead
    have hcomment : ∀ c ∈ maskText (commentGrains passage.comment?), isWord c = false ∧ c ≠ '@' :=
      fun c hc => isWord_of_mem_maskMarks (mem_maskMarks_of_comment hc)
    have hall := hcode.marks hcomment
    simpa [passageGrains_cons, Passage.grains, Passage.own] using hall

/-- Passages up to a line end declare no type before any text. -/
theorem typeKeywordsFrom_passages (h : passages.IsChain Passage.Precedes) {last : Passage}
    (hlast : passages.getLast? = some last) (hbreak : last.trail.getLast? = some '\n') (pos : Nat)
    (before : Option Char) (t : Text) :
    typeKeywordsFrom pos 0 before (maskText (passageGrains passages) ++ t) =
      typeKeywordsFrom (pos + (grainText (passageGrains passages)).length) 0 (some '\n') t := by
  obtain ⟨front, rfl⟩ := getLast?_eq_some_iff.mp hlast
  obtain ⟨u, hu⟩ := getLast?_eq_some_iff.mp hbreak
  -- The same passages without the line feed at their end.
  let short : Passage :=
    { last with trail := u, marks := fun c hc =>
      last.marks c (by rw [hu]; exact mem_append_left _ hc) }
  have hshort : (front ++ [short]).IsChain Passage.Precedes := by
    rw [isChain_append] at h ⊢
    exact ⟨h.1, .singleton _, fun p hp q hq => by
      obtain rfl : short = q := by simpa using hq
      exact h.2.2 p hp last rfl⟩
  have hgrains : passageGrains (front ++ [last]) =
      passageGrains (front ++ [short]) ++ codeGrains ['\n'] := by
    simp [passageGrains, Passage.grains, Passage.own, Passage.comment?, short, hu]
  have hlength := length_maskText (standing_passages (front ++ [short]) [])
  simp [hgrains, (keyless_passages hshort).typeKeywordsFrom_line, hlength]

/-- The candidates of passages are their comments. -/
theorem candidatesFrom_passages (h : passages.IsChain Passage.Precedes) (hne : passages ≠ [])
    {a : Text} (ha : AtLineStart a) (b : Text) (codeBefore : Bool) (rest : List Segment) :
    candidatesFrom (a ++ (grainText (passageGrains passages) ++ b)) codeBefore
        (placed a.length (passageGrains passages) ++ rest) =
      passageCandidates a.length codeBefore passages ++
        candidatesFrom (a ++ (grainText (passageGrains passages) ++ b)) true rest := by
  -- Only the comments have to stand at the beginning of a line.
  have hpassages : ∀ a, (∀ passage ∈ passages.head?, passage.doc.isSome → AtLineStart a) →
      candidatesFrom (a ++ (grainText (passageGrains passages) ++ b)) codeBefore
          (placed a.length (passageGrains passages) ++ rest) =
        passageCandidates a.length codeBefore passages ++
          candidatesFrom (a ++ (grainText (passageGrains passages) ++ b)) true rest := by
    induction passages generalizing codeBefore with
    | nil => exact absurd rfl hne
    | cons passage passages ih =>
      intro a ha
      have hitem := candidatesFrom_item passage.comment?
        (fun hsome => ha passage rfl (by simpa [Passage.comment?] using hsome))
          passage.inert_own.ne_blockComment
        passage.any_isInk_own (grainText (passageGrains passages) ++ b) codeBefore
        (placed (a.length + (grainText passage.grains).length) (passageGrains passages) ++ rest)
      have htext : a ++ (grainText (passageGrains (passage :: passages)) ++ b) =
          a ++ (grainText passage.grains ++ (grainText (passageGrains passages) ++ b)) := by
        simp [passageGrains_cons]
      have hplaced : placed a.length (passageGrains (passage :: passages)) ++ rest =
          placed a.length passage.grains ++
            (placed (a.length + (grainText passage.grains).length) (passageGrains passages) ++
              rest) := by
        rw [passageGrains_cons, placed_append, append_assoc]
      rw [htext, hplaced, passageCandidates, append_assoc]
      refine hitem.trans (congrArg _ ?_)
      cases passages with
      | nil => simp [passageGrains, passageCandidates, placed, Passage.grains]
      | cons next passages =>
        have hprecedes := (isChain_cons_cons.mp h).1
        have hstart : ∀ passage' ∈ (next :: passages).head?, passage'.doc.isSome →
            AtLineStart (a ++ grainText passage.grains) := by
          rintro passage' hpassage' hdoc
          obtain rfl : next = passage' := by simpa using hpassage'
          obtain ⟨u, hu⟩ := getLast?_eq_some_iff.mp (hprecedes.2 hdoc)
          have hsplit : a ++ grainText passage.grains =
              (a ++ (grainText (commentGrains passage.comment?) ++
                (grainText passage.code ++ u))) ++
                ['\n'] := by
            simp [Passage.grains, Passage.own, hu]
          rw [hsplit]
          exact atLineStart_concat.mpr rfl
        have hrest := ih h.tail (by simp) true (a ++ grainText passage.grains) hstart
        simpa [Passage.grains] using hrest
  exact hpassages a fun _ _ _ => ha

theorem codeBefore_of_mem_passageCandidates {pos : Nat} {candidate : Candidate}
    (h : candidate ∈ passageCandidates pos true passages) : candidate.codeBefore = true := by
  induction passages generalizing pos with
  | nil => simp [passageCandidates] at h
  | cons passage passages ih =>
    rcases mem_append.mp h with h | h
    · obtain ⟨comment, -, rfl⟩ := mem_map.mp h
      rfl
    · exact ih h

theorem codeFirst_passages (passages : List Passage) :
    CodeFirst fun pos => passageCandidates pos true passages :=
  fun _ _ h => codeBefore_of_mem_passageCandidates (mem_of_head? h)

/-! ### Keys of passages -/

/-- The documented declarations in passages, in the type `owner`. -/
def passageKeys (owner : Text) (passages : List Passage) : List (SignatureKey × Text) :=
  passages.flatMap fun passage => passage.doc.toList.map fun doc => (passage.key owner, doc.line)

/-- A declaration with the key `key` in the type `owner` stands at the beginning of grains, before
any text. -/
def Declares (kind : TypeKind) (owner : Text) (key : SignatureKey) (gs : List Grain) : Prop :=
  key.declaresInner = false ∧ ∀ post : Text, ∃ lead head after raw,
    ReadAs kind lead head after raw ∧
    '\n' :: (maskText gs ++ post) = lead ++ (head ++ after) ∧
    SignatureKey.ofDeclaration owner raw = .ok key

/-- Before `tail`, the comments of passages stand before declarations with the keys of the
passages. -/
def Keyed (kind : TypeKind) (owner : Text) (tail : List Grain) : List Passage → Prop
  | [] => True
  | passage :: passages =>
    (passage.doc.isSome →
      Declares kind owner (passage.key owner) (passage.own ++ (passageGrains passages ++ tail))) ∧
    Keyed kind owner tail passages

/-- A scanner visits the comments of passages, each with the key of the declaration behind it. -/
theorem visits_passages {owner : Text} {tail : List Grain} (h : Keyed kind owner tail passages) :
    Visits kind (passageGrains passages ++ tail) (fun pos => passageCandidates pos true passages)
      owner
      (passageKeys owner passages) := by
  induction passages with
  | nil => exact visits_of_nil _ owner
  | cons passage passages ih =>
    obtain ⟨hdeclares, hrest⟩ := h
    have hown := (visits_of_nil passage.own owner).append (ih hrest) (codeFirst_passages passages)
    simp only [nil_append] at hown
    cases hdoc : passage.doc with
    | none =>
      have hcandidates : ∀ pos, passageCandidates pos true (passage :: passages) =
          passageCandidates (pos + (grainText passage.own).length) true passages := by
        intro pos
        simp [passageCandidates, Passage.comment?, Passage.grains, hdoc, commentGrains]
      have hgrains : passageGrains (passage :: passages) ++ tail =
          passage.own ++ (passageGrains passages ++ tail) := by
        simp [passageGrains_cons, Passage.grains, Passage.comment?, hdoc, commentGrains]
      have hkeys : passageKeys owner (passage :: passages) = passageKeys owner passages := by
        simp [passageKeys, hdoc]
      grind
    | some doc =>
      have hcode : CodeFirst fun pos =>
          passageCandidates (pos + (grainText passage.own).length) true passages :=
        fun pos => codeFirst_passages passages _
      obtain ⟨hinner, hdeclared⟩ := hdeclares (by rw [hdoc]; rfl)
      have hcomment := Visits.comment doc hown hcode hinner hdeclared
      have hcandidates : ∀ pos, passageCandidates pos true (passage :: passages) =
          commentCandidate pos true (doc.indent, doc.text) ::
            passageCandidates
              (pos + doc.line.length + (grainText passage.own).length) true passages := by
        intro pos
        simp only [passageCandidates, Passage.comment?, Passage.grains, hdoc, Option.map_some,
          Option.toList_some, map_cons, map_nil, singleton_append, grainText_append,
          grainText_comment, length_append, Nat.add_assoc]
        rfl
      have hgrains : passageGrains (passage :: passages) ++ tail =
          commentGrains (some (doc.indent, doc.text)) ++
            (passage.own ++ (passageGrains passages ++ tail)) := by
        simp [passageGrains_cons, Passage.grains, Passage.comment?, hdoc]
      have hkeys : passageKeys owner (passage :: passages) =
          (passage.key owner, doc.line) :: passageKeys owner passages := by
        simp [passageKeys, hdoc]
      grind

/-! ### Passages in bodies -/

/-- Passages up to a line end as a member of a type. -/
def Member.ofPassages (passages : List Passage) (hchain : passages.IsChain Passage.Precedes)
    (hbroken : EndsBroken (passageGrains passages)) {last : Passage}
    (hlast : passages.getLast? = some last) (hbreak : last.trail.getLast? = some '\n')
    (hkeyed : ∀ owner, IsName owner → Keyed kind owner [] passages) : Member kind where
  grains := passageGrains passages
  needsMark := false
  keywords := fun _ => []
  candidates := fun pos codeBefore => passageCandidates pos codeBefore passages
  standing := standing_passages passages
  broken := hbroken
  plain := plain_passages passages
  typeKeywordsFrom_eq :=
    fun pos before t _ => typeKeywordsFrom_passages hchain hlast hbreak pos before t
  placeholderFor?_eq := fun _ _ _ _ _ => rfl
  candidatesFrom_eq := fun a b codeBefore rest ha => by
    have hne : passages ≠ [] := by
      rintro rfl
      cases hlast
    exact candidatesFrom_passages hchain hne ha b codeBefore rest
  documented := fun owner => passageKeys owner passages
  balanced := balanced_passages passages
  codeFirst := codeFirst_passages passages
  visits := fun owner howner => by
    have h := visits_passages (hkeyed owner howner)
    rwa [append_nil] at h

/-- Passages up to a closing brace as the end of a body. -/
def Ending.ofPassages (passages : List Passage) (hchain : passages.IsChain Passage.Precedes)
    (hne : passages ≠ [])
    (hkeyed : ∀ owner, IsName owner → Keyed kind owner (codeGrains ['}']) passages) :
      Ending kind where
  inner := passageGrains passages
  candidates := fun pos codeBefore => passageCandidates pos codeBefore passages
  documented := fun owner => passageKeys owner passages
  standing := standing_passages passages
  plain := plain_passages passages
  keyless := keyless_passages hchain
  balanced := balanced_passages passages
  candidatesFrom_eq := fun a b codeBefore rest ha => by
    rw [placed_append, append_assoc, candidatesFrom_passages hchain hne ha,
      candidatesFrom_of_ne _ ne_of_mem_codeGrains, Bool.true_or]
  codeFirst := codeFirst_passages passages
  visits := fun owner howner => visits_passages (hkeyed owner howner)

end DocGraft.TypeTree
