import DocGraft.Proofs.ScannerScopes

/-!
# Bodies of types

The body of a type holds members and further types, up to its closing brace. How a scanner passes
the members of a type does not depend on the types around it: it passes them in the scope of their
own type, and behind the closing brace the scopes are those from before. So it is enough to know of
a form of members which comments are visited in one of them, and with which keys. Then the comments
visited in a whole source are those of its members, each with the key in its innermost type.

The main results are `TypeTree.Visits.type`, `TypeTree.exists_layout`, `SourceUnit.sights_start` and
`SourceUnit.Sound.run_visits`.
-/

namespace DocGraft.TypeTree

open List Text Source Signature Scanner Declaration

variable {cs : Nat → List Candidate} {owner : Text} {visited : List (SignatureKey × Text)}
  {kind : TypeKind}

/-! ### Comments visited on the way -/

/-- Code stands before the first of the candidates. -/
def CodeFirst (candidates : (pos : Nat) → List Candidate) : Prop :=
  ∀ pos, ∀ candidate ∈ (candidates pos).head?, candidate.codeBefore = true

/-- A scanner for sources of the kind `kind` that passes the grains `own` and the candidates in
them, inside the scope of the type `owner`, visits the comments `visited` and is then inside of the
same scopes. -/
def Visits (kind : TypeKind) (own : List Grain) (candidates : (pos : Nat) → List Candidate)
    (owner : Text)
    (visited : List (SignatureKey × Text)) : Prop :=
  ∀ ⦃scanner : Scanner⦄ ⦃pre post gs : List Grain⦄ ⦃scopes : Scope × List Scope⦄
    ⦃rest : List Candidate⦄, gs = pre ++ (own ++ post) → Standing gs [] →
    Inside kind scanner gs (grainText pre).length scopes → scopes.1.name = owner →
    (grainText (pre ++ own)).length ≤ scopes.1.stop →
    (∀ next ∈ rest.head?, next.codeBefore = true) →
    ∃ scanner', Inside kind scanner' gs (grainText (pre ++ own)).length scopes ∧
      sights (candidates (grainText pre).length ++ rest) scanner = visited ++ sights rest scanner'

theorem codeFirst_append {ds : Nat → List Candidate} (hcs : CodeFirst cs) (hds : CodeFirst ds)
    (shift : Nat → Nat) : CodeFirst fun pos => cs pos ++ ds (shift pos) := by
  intro pos candidate hcandidate
  rw [List.head?_append, Option.mem_def, Option.or_eq_some_iff] at hcandidate
  rcases hcandidate with h | ⟨-, h⟩
  · exact hcs pos candidate h
  · exact hds _ candidate h

theorem CodeFirst.head?_append (hcs : CodeFirst cs) (pos : Nat) {rest : List Candidate}
    (hrest : ∀ next ∈ rest.head?, next.codeBefore = true) :
    ∀ next ∈ (cs pos ++ rest).head?, next.codeBefore = true := by
  intro next hnext
  rw [List.head?_append, Option.mem_def, Option.or_eq_some_iff] at hnext
  rcases hnext with h | ⟨-, h⟩
  · exact hcs pos next h
  · exact hrest next h

theorem visits_of_nil (own : List Grain) (owner : Text) :
    Visits kind own (fun _ => []) owner [] := by
  intro scanner pre post gs scopes rest _ _ hinside _ _ _
  refine ⟨scanner, hinside.mono ?_, rfl⟩
  rw [grainText_append, length_append]
  omega

theorem Visits.append {own own' : List Grain} {cs' : Nat → List Candidate}
    {visited' : List (SignatureKey × Text)} (h : Visits kind own cs owner visited)
    (h' : Visits kind own' cs' owner visited') (hcode : CodeFirst cs') :
    Visits kind (own ++ own') (fun pos => cs pos ++ cs' (pos + (grainText own).length)) owner
      (visited ++ visited') := by
  intro scanner pre post gs scopes rest hgs hstanding hinside hname hwithin hrest
  have hgs₁ : gs = pre ++ (own ++ (own' ++ post)) := by simpa using hgs
  have hgs₂ : gs = (pre ++ own) ++ (own' ++ post) := by simpa using hgs
  have hwithin₁ : (grainText (pre ++ own)).length ≤ scopes.1.stop := by
    grind [grainText_append]
  rw [← append_assoc] at hwithin ⊢
  obtain ⟨scanner₁, hinside₁, hsights₁⟩ := h hgs₁ hstanding hinside hname hwithin₁
    (hcode.head?_append (grainText (pre ++ own)).length hrest)
  obtain ⟨scanner₂, hinside₂, hsights₂⟩ := h' hgs₂ hstanding hinside₁ hname hwithin hrest
  refine ⟨scanner₂, hinside₂, ?_⟩
  rw [append_assoc, ← length_append, ← grainText_append, hsights₁, hsights₂, append_assoc]

/-- A comment before a declaration that is not that of a type is visited with the key of the
declaration. -/
theorem Visits.comment (doc : DocLine) {own : List Grain} (hown : Visits kind own cs owner visited)
    (hcode : CodeFirst cs) {key : SignatureKey} (hinner : key.declaresInner = false)
    (hdeclared : ∀ post : Text, ∃ lead head after raw, ReadAs kind lead head after raw ∧
      '\n' :: (maskText own ++ post) = lead ++ (head ++ after) ∧
      SignatureKey.ofDeclaration owner raw = .ok key) :
    Visits kind (commentGrains (some (doc.indent, doc.text)) ++ own)
      (fun pos => commentCandidate pos true (doc.indent, doc.text) :: cs (pos + doc.line.length))
      owner ((key, doc.line) :: visited) := by
  intro scanner pre post gs scopes rest hgs hstanding hinside hname hwithin hrest
  have hgs₁ : gs = pre ++ (commentGrains (some (doc.indent, doc.text)) ++ (own ++ post)) := by
    simpa using hgs
  have hgs₂ : gs = (pre ++ commentGrains (some (doc.indent, doc.text))) ++ (own ++ post) := by
    simpa using hgs
  obtain ⟨lead, head, after, raw, hread, hpost, hkey⟩ := hdeclared (maskText post)
  have hlength : (grainText (pre ++ commentGrains (some (doc.indent, doc.text)))).length =
      (grainText pre).length + doc.line.length := by
    rw [grainText_append, grainText_comment, length_append]
    rfl
  rw [← append_assoc] at hwithin ⊢
  have hline : (grainText pre).length + doc.line.length ≤ scopes.1.stop := by
    rw [← hlength]
    grind [grainText_append]
  obtain ⟨scanner₁, hinside₁, hsights₁⟩ := exists_sights_comment hgs₁ hstanding hinside hline
    hread (by rw [maskText_append]; exact hpost) (by rw [hname]; exact hkey) 0
    (by simp [hinner]) true (hcode.head?_append ((grainText pre).length + doc.line.length) hrest)
  rw [hinner, if_neg (by simp)] at hinside₁
  obtain ⟨scanner₂, hinside₂, hsights₂⟩ := hown hgs₂ hstanding
    (by rw [hlength]; exact hinside₁) hname hwithin hrest
  have hplace : hasPlaceholder (commentLine doc.indent doc.text) = false :=
    not_hasPlaceholder_line doc
  refine ⟨scanner₂, hinside₂, ?_⟩
  rw [hlength] at hsights₂
  rw [cons_append, hsights₁, hsights₂, hplace]
  rfl

/-- A type is passed in its own scope, and behind it the scopes are those from before. -/
theorem Visits.type (howner : IsName owner) (doc : Option DocLine) (indent : Nat) {h : TypeHeader}
    (header : Header (.type h)) (hread : reading kind header.text = header.text)
    (distinct : h.name.text ≠ owner) {inner : List Grain} (hbalanced : Balanced (maskText inner))
      (hcode : CodeFirst cs)
    (hbody : Visits kind (inner ++ codeGrains ['}']) cs h.name.text visited) :
    Visits kind ((Line.opening doc indent header).grains true ++ (inner ++ codeGrains ['}', '\n']))
      (fun pos => (Line.opening doc indent header).candidates pos true ++
        cs (pos + (grainText ((Line.opening doc indent header).grains true)).length)) owner
      (doc.toList.map (fun doc => ((Declaration.type h).key owner, doc.line)) ++ visited) := by
  intro scanner pre post gs scopes rest hgs hstanding hinside hname hwithin hrest
  generalize hopened : (Line.opening doc indent header).grains true = opened at *
  have hgs₁ : gs = pre ++ (opened ++ ((inner ++ codeGrains ['}', '\n']) ++ post)) := by
    simpa using hgs
  have hgs₂ : gs = (pre ++ opened) ++ ((inner ++ codeGrains ['}']) ++
      (codeGrains ['\n'] ++ post)) := by
    simpa using hgs
  have hlength : (maskText inner).length = (grainText inner).length := by
    have hinner := (standing_append.mp (hgs₂ ▸ hstanding)).2
    exact length_maskText (standing_append.mp (standing_append.mp hinner).1).1
  simp only [grainText_append, grainText_codeGrains, length_append, length_cons,
    length_nil] at hwithin
  obtain ⟨scanner₁, hinside₁, hsights₁⟩ :=
    exists_sights_opening howner doc indent header hread hopened
    hgs₁ hstanding hinside (by simp only [grainText_append, length_append]; omega) hname
    ((grainText (pre ++ opened)).length + (maskText inner).length + 1)
    (fun _ => ⟨maskText inner, '\n' :: maskText post, hbalanced, by simp, rfl⟩) true
    (hcode.head?_append (grainText (pre ++ opened)).length hrest)
  rw [if_pos distinct] at hinside₁
  obtain ⟨scanner₂, hinside₂, hsights₂⟩ := hbody hgs₂ hstanding hinside₁ rfl
    (by
      grind [grainText_append, grainText_codeGrains]) hrest
  refine ⟨scanner₂, hinside₂.exit ?_ ?_, ?_⟩
  · simp
  · simp only [grainText_append, grainText_codeGrains, length_append, length_cons, length_nil]
    omega
  · simp [← length_append, ← grainText_append, hsights₁, hsights₂]

/-! ### Members and ends of bodies -/

/-- A member of a type: whole lines with what a scanner visits in them. -/
structure Member (kind : TypeKind) extends Stretch where
  /-- The documented declarations in them, in the type `owner`. -/
  documented : (owner : Text) → List (SignatureKey × Text)
  balanced : Balanced (maskText (markedGrains needsMark grains))
  codeFirst : CodeFirst fun pos => candidates pos true
  visits : ∀ owner, IsName owner → Visits kind (markedGrains needsMark grains)
    (fun pos => candidates pos true) owner (documented owner)

/-- The end of a body: what stands before the closing brace, with what a scanner visits in it. -/
structure Ending (kind : TypeKind) where
  inner : List Grain
  /-- The candidates in them, if they begin at `pos`. -/
  candidates : (pos : Nat) → (codeBefore : Bool) → List Candidate
  /-- The documented declarations in them, in the type `owner`. -/
  documented : (owner : Text) → List (SignatureKey × Text)
  standing : ∀ t, Standing inner t
  plain : ∀ g ∈ inner, Plain g
  /-- No type is declared in them. -/
  keyless : Keyless (maskText inner)
  /-- Their braces match. -/
  balanced : Balanced (maskText inner)
  candidatesFrom_eq : ∀ a b codeBefore rest, AtLineStart a →
    candidatesFrom (a ++ (grainText inner ++ b)) codeBefore
        (placed a.length (inner ++ codeGrains ['}']) ++ rest) =
      candidates a.length codeBefore ++ candidatesFrom (a ++ (grainText inner ++ b)) true rest
  codeFirst : CodeFirst fun pos => candidates pos true
  visits : ∀ owner, IsName owner → Visits kind (inner ++ codeGrains ['}'])
    (fun pos => candidates pos true) owner (documented owner)

namespace Ending

def grains (e : Ending kind) : List Grain :=
  e.inner ++ codeGrains ['}']

theorem plain_grains (e : Ending kind) : ∀ g ∈ e.grains, Plain g := by
  intro g hg
  rcases mem_append.mp hg with hg | hg
  · exact e.plain g hg
  · exact plain_codeGrains _ g hg

theorem standing_grains (e : Ending kind) (t : Text) : Standing e.grains t :=
  standing_append.mpr ⟨e.standing _, (bare_singleton (by decide)).standing t⟩

theorem keyless_grains (e : Ending kind) : Keyless (maskText e.grains) := by
  intro pos before t ht
  obtain ⟨b, hb⟩ := e.keyless pos before ('}' :: t) (ends_word (by decide) t)
  refine ⟨some '}', ?_⟩
  have hmark := typeKeyword?_mark (c := '}') (by decide) (by decide) b t
  simp [grains, hb, typeKeywordsFrom_of_none hmark, Nat.add_assoc]

/-- The end of a body and the line end behind it. -/
def stretch (e : Ending kind) : Stretch where
  grains := e.grains ++ codeGrains ['\n']
  needsMark := false
  keywords := fun _ => []
  candidates := e.candidates
  standing := fun t => standing_append.mpr ⟨e.standing_grains _, stands_newline t, trivial⟩
  broken := ⟨e.inner, '}', by simp [grains], .inr (.inr rfl)⟩
  plain := fun g hg => by
    rcases mem_append.mp hg with hg | hg
    · exact e.plain_grains g hg
    · exact plain_codeGrains _ g hg
  typeKeywordsFrom_eq := fun pos before t _ => by
    have hlength := length_maskText (e.standing_grains [])
    simp [e.keyless_grains.typeKeywordsFrom_line, hlength]
  placeholderFor?_eq := fun _ _ _ _ _ => rfl
  candidatesFrom_eq := fun a b codeBefore rest ha => by
    have hsplit : a ++ (grainText (markedGrains false (e.grains ++ codeGrains ['\n'])) ++ b) =
        a ++ (grainText e.inner ++ '}' :: '\n' :: b) := by
      simp [markedGrains, grains]
    have hplaced : placed a.length (markedGrains false (e.grains ++ codeGrains ['\n'])) ++ rest =
        placed a.length (e.inner ++ codeGrains ['}']) ++
          (placed (a.length + (grainText e.grains).length) (codeGrains ['\n']) ++ rest) := by
      have hmarked : markedGrains false (e.grains ++ codeGrains ['\n']) =
          e.grains ++ codeGrains ['\n'] := rfl
      rw [hmarked, placed_append, append_assoc]
      rfl
    rw [hsplit, hplaced, e.candidatesFrom_eq a _ codeBefore _ ha,
      candidatesFrom_of_ne _ ne_of_mem_codeGrains, Bool.true_or]

theorem marked_stretch (e : Ending kind) :
    e.stretch.marked = e.inner ++ codeGrains ['}', '\n'] := by
  simp [Stretch.marked, markedGrains, stretch, grains]

end Ending

/-! ### Bodies -/

/-- A form of members, or of ends of bodies. -/
class Form (α : Type) where
  /-- The text of a member with the line end behind it, or of the end of a body with the closing
  brace. -/
  text : α → Text
  /-- The documented declarations in it, in the type `owner`. -/
  documented : (owner : Text) → α → List (SignatureKey × Text)

/-- Members of the form `α` and further types, up to an end of the form `β`. -/
inductive Body (α β : Type) : (owner : Text) → Type where
  | close {owner : Text} (ending : β) : Body α β owner
  | member {owner : Text} (a : α) (rest : Body α β owner) : Body α β owner
  | type {owner : Text} (doc : Option DocLine) (indent : Nat) (h : TypeHeader)
      (header : Header (.type h)) (distinct : h.name.text ≠ owner)
      (body : Body α β h.name.text) (rest : Body α β owner) : Body α β owner

namespace Body

variable {α β : Type} {owner : Text}

def members : {owner : Text} → Body α β owner → List α
  | _, close _ => []
  | _, member a rest => a :: rest.members
  | _, type _ _ _ _ _ body rest => body.members ++ rest.members

def endings : {owner : Text} → Body α β owner → List β
  | _, close e => [e]
  | _, member _ rest => rest.endings
  | _, type _ _ _ _ _ body rest => body.endings ++ rest.endings

def headers : {owner : Text} → Body α β owner → List Text
  | _, close _ => []
  | _, member _ rest => rest.headers
  | _, type _ _ _ header _ body rest => header.text :: (body.headers ++ rest.headers)

/-- The same types with other members. -/
def map {α' : Type} (f : α → α') : {owner : Text} → Body α β owner → Body α' β owner
  | _, close e => .close e
  | _, member a rest => .member (f a) (rest.map f)
  | _, type doc indent h header distinct body rest =>
    .type doc indent h header distinct (body.map f) (rest.map f)

theorem members_map {α' : Type} (f : α → α') (body : Body α β owner) :
    (body.map f).members = body.members.map f := by
  induction body with
  | close e => rfl
  | member a rest ih => rw [map, members, ih, members, map_cons]
  | type doc indent h header distinct body rest ihBody ihRest =>
    rw [map, members, ihBody, ihRest, members, map_append]

variable [Form α] [Form β]

def text : {owner : Text} → Body α β owner → Text
  | _, close e => Form.text e
  | _, member a rest => Form.text a ++ rest.text
  | _, type doc indent _ header _ body rest =>
    (Line.opening doc indent header).text ++ (body.text ++ '\n' :: rest.text)

/-- The documented declarations in the body of the type `owner`, in order. -/
def documented : {owner : Text} → Body α β owner → List (SignatureKey × Text)
  | owner, close e => Form.documented owner e
  | owner, member a rest => Form.documented owner a ++ rest.documented
  | owner, type doc _ h _ _ body rest =>
    doc.toList.map (fun doc => ((Declaration.type h).key owner, doc.line)) ++
      (body.documented ++ rest.documented)

/-- Members with the same documented declarations can stand in for each other. -/
theorem documented_map {α' : Type} [Form α'] (f : α → α') (body : Body α β owner)
    (h : ∀ a ∈ body.members, ∀ owner, Form.documented owner (f a) = Form.documented owner a) :
    (body.map f).documented = body.documented := by
  induction body with
  | close e => rfl
  | member a rest ih =>
    obtain ⟨ha, hrest⟩ := forall_mem_cons.mp h
    rw [map, documented, documented, ih hrest, ha]
  | type doc indent h' header distinct body rest ihBody ihRest =>
    rw [map, documented, documented, ihBody fun a ha => h a (mem_append_left _ ha),
      ihRest fun a ha => h a (mem_append_right _ ha)]

end Body

/-! ### Layouts -/

/-- What stands between the opening line of the type `owner` and its closing brace, in stretches,
and what a scanner visits there. -/
structure BodyLayout (kind : TypeKind) (owner : Text) where
  stretches : List Stretch
  ending : Ending kind
  documented : List (SignatureKey × Text)

namespace BodyLayout

variable {owner : Text}

def text (l : BodyLayout kind owner) : Text :=
  grainText (l.stretches.flatMap Stretch.grains ++ l.ending.grains)

/-- The grains of a layout with its placeholders, before the closing brace. -/
def inner (l : BodyLayout kind owner) : List Grain :=
  l.stretches.flatMap Stretch.marked ++ l.ending.inner

def candidates (l : BodyLayout kind owner) (pos : Nat) : List Candidate :=
  stretchCandidates pos true l.stretches ++
    l.ending.candidates (pos + (grainText (l.stretches.flatMap Stretch.marked)).length) true

/-- A layout is passed as it says. -/
structure Sound (l : BodyLayout kind owner) : Prop where
  balanced : Balanced (maskText l.inner)
  /-- The first candidate has code before it. -/
  codeFirst : CodeFirst l.candidates
  /-- The comments visited are those of the layout. -/
  visits : Visits kind (l.inner ++ codeGrains ['}']) l.candidates owner l.documented

end BodyLayout

theorem stretchCandidates_append (pos : Nat) (as bs : List Stretch) :
    stretchCandidates pos true (as ++ bs) = stretchCandidates pos true as ++
      stretchCandidates (pos + (grainText (as.flatMap Stretch.marked)).length) true bs := by
  induction as generalizing pos with
  | nil => rfl
  | cons s as ih =>
    simp [stretchCandidates, ih, Nat.add_assoc]

/-- The layout of a body that is just an end. -/
def BodyLayout.close (owner : Text) (e : Ending kind) : BodyLayout kind owner where
  stretches := []
  ending := e
  documented := e.documented owner

theorem BodyLayout.sound_close {owner : Text} (howner : IsName owner) (e : Ending kind) :
    (BodyLayout.close owner e).Sound where
  balanced := e.balanced
  codeFirst := e.codeFirst
  visits := e.visits owner howner

/-- The layout of a body that begins with a member. -/
def BodyLayout.member {owner : Text} (m : Member kind) (l : BodyLayout kind owner) :
    BodyLayout kind owner where
  stretches := m.toStretch :: l.stretches
  ending := l.ending
  documented := m.documented owner ++ l.documented

theorem BodyLayout.sound_member {owner : Text} (howner : IsName owner) (m : Member kind)
    {l : BodyLayout kind owner}
    (hl : l.Sound) : (BodyLayout.member m l).Sound := by
  have hinner : (BodyLayout.member m l).inner = m.marked ++ l.inner := by
    simp [inner, member]
  have hcandidates : (BodyLayout.member m l).candidates = fun pos =>
      m.candidates pos true ++ l.candidates (pos + (grainText m.marked).length) := by
    funext pos
    simp [candidates, member, stretchCandidates, Nat.add_assoc]
  refine ⟨?_, ?_, ?_⟩
  · rw [hinner, maskText_append]
    exact m.balanced.append hl.balanced
  · rw [hcandidates]
    exact codeFirst_append m.codeFirst hl.codeFirst _
  · rw [hinner, hcandidates, append_assoc]
    exact (m.visits owner howner).append hl.visits hl.codeFirst

/-- The layout of a body that begins with a type. -/
def BodyLayout.type {owner : Text} (doc : Option DocLine) (indent : Nat) {h : TypeHeader}
    (header : Header (.type h)) (body : BodyLayout kind h.name.text) (l : BodyLayout kind owner) :
      BodyLayout kind owner where
  stretches := (Line.opening doc indent header).stretch ::
    (body.stretches ++ body.ending.stretch :: l.stretches)
  ending := l.ending
  documented := doc.toList.map (fun doc => ((Declaration.type h).key owner, doc.line)) ++
    (body.documented ++ l.documented)

theorem balanced_opening (doc : Option DocLine) (indent : Nat) {h : TypeHeader}
    (header : Header (.type h)) {inner : Text} (hinner : Balanced inner) :
    Balanced (maskText ((Line.opening doc indent header).grains true) ++
      (inner ++ ['}', '\n'])) := by
  have hbreak : Balanced ['\n'] := balanced_of_notMem (by decide) (by decide)
  have hbody := (hbreak.append hinner).braces
  have h := (balanced_lead ((Line.opening doc indent header).comment? true) indent).append
    ((balanced_header header).append (hbody.append hbreak))
  simpa [Line.grains, Line.itemGrains, Line.indent] using h

theorem codeFirst_line (line : Line) : CodeFirst fun pos => line.candidates pos true := by
  intro pos candidate hcandidate
  obtain ⟨comment, -, rfl⟩ := mem_map.mp (mem_of_head? hcandidate)
  rfl

theorem BodyLayout.sound_type {owner : Text} (howner : IsName owner) (doc : Option DocLine)
    (indent : Nat) {h : TypeHeader} (header : Header (.type h)) (distinct : h.name.text ≠ owner)
    (hread : reading kind header.text = header.text)
    {body : BodyLayout kind h.name.text} {l : BodyLayout kind owner} (hbody : body.Sound)
      (hl : l.Sound) :
    (BodyLayout.type doc indent header body l).Sound := by
  have hinner : (BodyLayout.type doc indent header body l).inner =
      ((Line.opening doc indent header).grains true ++ (body.inner ++ codeGrains ['}', '\n'])) ++
        l.inner := by
    simp [inner, type, Ending.marked_stretch, marked_stretch]
  have hcandidates : (BodyLayout.type doc indent header body l).candidates = fun pos =>
      ((Line.opening doc indent header).candidates pos true ++ body.candidates
        (pos + (grainText ((Line.opening doc indent header).grains true)).length)) ++
      l.candidates (pos + (grainText ((Line.opening doc indent header).grains true ++
        (body.inner ++ codeGrains ['}', '\n']))).length) := by
    funext pos
    have hopening : ∀ pos, (Line.opening doc indent header).stretch.candidates pos true =
        (Line.opening doc indent header).candidates pos true := fun _ => rfl
    have hending : ∀ pos, body.ending.stretch.candidates pos true =
        body.ending.candidates pos true := fun _ => rfl
    simp only [candidates, type, stretchCandidates, stretchCandidates_append, marked_stretch,
      Ending.marked_stretch, hopening, hending, append_assoc, inner, grainText_append,
      length_append, flatMap_cons, flatMap_append, Nat.add_assoc]
  have hvisits := Visits.type howner doc indent header hread distinct hbody.balanced hbody.codeFirst
    hbody.visits
  refine ⟨?_, ?_, ?_⟩
  · rw [hinner, maskText_append, maskText_append, maskText_append, maskText_codeGrains]
    exact (balanced_opening doc indent header hbody.balanced).append hl.balanced
  · rw [hcandidates]
    exact codeFirst_append (codeFirst_append (codeFirst_line _) hbody.codeFirst _) hl.codeFirst _
  · have hdocumented : (BodyLayout.type doc indent header body l).documented =
        (doc.toList.map (fun doc => ((Declaration.type h).key owner, doc.line)) ++
          body.documented) ++ l.documented :=
      (append_assoc ..).symm
    rw [hinner, hcandidates, hdocumented, append_assoc _ l.inner]
    exact hvisits.append hl.visits hl.codeFirst

section Forms

variable {α β : Type} [Form α] [Form β]

/-- A member is passed as its form says. -/
def IsMember (kind : TypeKind) (a : α) : Prop :=
  ∃ m : Member kind, grainText m.grains = Form.text a ∧
    ∀ owner, IsName owner → m.documented owner = Form.documented owner a

/-- The end of a body is passed as its form says. -/
def IsEnding (kind : TypeKind) (e : β) : Prop :=
  ∃ ending : Ending kind, grainText ending.grains = Form.text e ∧
    ∀ owner, IsName owner → ending.documented owner = Form.documented owner e

/-- A body is made of stretches, and the comments visited in it are those of its members, each with
the key in its innermost type. -/
theorem exists_layout {owner : Text} (body : Body α β owner) (howner : IsName owner)
    (hmembers : ∀ a ∈ body.members, IsMember kind a)
    (hendings : ∀ e ∈ body.endings, IsEnding kind e)
    (hheaders : ∀ s ∈ body.headers, reading kind s = s) :
    ∃ l : BodyLayout kind owner, l.Sound ∧ l.text = body.text ∧ l.documented = body.documented := by
  induction body with
  | close e =>
    obtain ⟨ending, htext, hdocumented⟩ := hendings e (mem_singleton_self e)
    exact ⟨.close _ ending, BodyLayout.sound_close howner ending, htext, hdocumented _ howner⟩
  | member a rest ih =>
    obtain ⟨m, htext, hdocumented⟩ := hmembers a mem_cons_self
    obtain ⟨l, hl, hltext, hldocumented⟩ := ih howner
      (fun b hb => hmembers b (mem_cons_of_mem a hb)) hendings hheaders
    refine ⟨.member m l, BodyLayout.sound_member howner m hl, ?_, ?_⟩
    · rw [Body.text, ← htext, ← hltext]
      simp [BodyLayout.text, BodyLayout.member]
    · rw [Body.documented, ← hdocumented _ howner, ← hldocumented, BodyLayout.member]
  | type doc indent h header distinct body rest ihBody ihRest =>
    obtain ⟨hread, hheaders⟩ := forall_mem_cons.mp hheaders
    obtain ⟨b, hb, hbtext, hbdocumented⟩ := ihBody h.name.isName
      (fun a ha => hmembers a (mem_append_left _ ha))
      (fun e he => hendings e (mem_append_left _ he))
      (fun s hs => hheaders s (mem_append_left _ hs))
    obtain ⟨l, hl, hltext, hldocumented⟩ := ihRest howner
      (fun a ha => hmembers a (mem_append_right _ ha))
      (fun e he => hendings e (mem_append_right _ he))
      (fun s hs => hheaders s (mem_append_right _ hs))
    refine ⟨.type doc indent header b l,
      BodyLayout.sound_type howner doc indent header distinct hread hb hl, ?_, ?_⟩
    · have hopening : grainText (Line.opening doc indent header).stretch.grains =
          (Line.opening doc indent header).text := grainText_grains_line _
      rw [Body.text, ← hbtext, ← hltext, ← hopening]
      simp [BodyLayout.text, BodyLayout.type, Ending.stretch]
    · rw [Body.documented, ← hbdocumented, ← hldocumented, BodyLayout.type]

end Forms

end DocGraft.TypeTree

namespace DocGraft

open List Text Source Signature Scanner Declaration TypeTree

/-! ### Whole sources -/

/-- A source with one type on its outermost level, with members of the form `α` and bodies that end
in the form `β`. -/
structure SourceUnit (α β : Type) where
  package : Option QualifiedName
  doc : Option DocLine
  indent : Nat
  type : TypeHeader
  header : Header (.type type)
  body : Body α β type.name.text
  /-- Whether the last line ends with a line feed. -/
  lastBreak : Bool

namespace SourceUnit

variable {α β : Type} {kind : TypeKind}

/-- The lines before the body. -/
def lines (unit : SourceUnit α β) : List Line :=
  unit.package.toList.map .package ++ [.opening unit.doc unit.indent unit.header]

/-- What follows the last closing brace. -/
def trail (unit : SourceUnit α β) : Text :=
  if unit.lastBreak then ['\n'] else []

/-- The same types with other members. -/
def map {α' : Type} (f : α → α') (unit : SourceUnit α β) : SourceUnit α' β :=
  { unit with body := unit.body.map f }

/-- The stretches of a source whose body has a layout, before the end of the body. -/
def stretches (unit : SourceUnit α β) (l : BodyLayout kind unit.type.name.text) : List Stretch :=
  unit.lines.map Line.stretch ++ l.stretches

/-- What follows these stretches. -/
def last (unit : SourceUnit α β) (l : BodyLayout kind unit.type.name.text) : List Grain :=
  l.ending.grains ++ codeGrains unit.trail

section Layouts

variable {unit : SourceUnit α β} {l : BodyLayout kind unit.type.name.text}

theorem bare_trail : Bare unit.trail := by
  unfold trail
  split_ifs <;> simp [Bare]

theorem standing_last (t : Text) : Standing (unit.last l) t :=
  standing_append.mpr ⟨l.ending.standing_grains _, bare_trail.standing t⟩

theorem typeKeywordsFrom_last (pos : Nat) (before : Option Char) :
    typeKeywordsFrom pos 0 before (maskText (unit.last l)) = [] := by
  rw [last, maskText_append, maskText_codeGrains]
  have htrail : ∀ c ∈ unit.trail, isWord c = false ∧ c ≠ '@' := by
    unfold trail
    split_ifs
    · simpa using by decide
    · simp
  have hhead : ∀ c ∈ unit.trail.head?, isWord c = false :=
    fun c hc => (htrail c (mem_of_head? hc)).1
  obtain ⟨b, hb⟩ := l.ending.keyless_grains pos before unit.trail hhead
  have hmarks := typeKeywordsFrom_marks htrail (pos + (maskText l.ending.grains).length) b []
  rw [append_nil] at hmarks
  rw [hb, hmarks, typeKeywordsFrom]

end Layouts

/-- The line of the package has no candidate before it. -/
theorem exists_candidates_lines (unit : SourceUnit α β) (l : BodyLayout kind unit.type.name.text) :
    ∃ pre : List Grain, ∃ codeBefore,
      (unit.stretches l).flatMap Stretch.marked = pre ++
        ((Line.opening unit.doc unit.indent unit.header).grains true ++
          l.stretches.flatMap Stretch.marked) ∧
      stretchCandidates 0 false (unit.stretches l) =
        (Line.opening unit.doc unit.indent unit.header).candidates (grainText pre).length
            codeBefore ++
          stretchCandidates (grainText (pre ++
            (Line.opening unit.doc unit.indent unit.header).grains true)).length true
              l.stretches := by
  have hstretch : ∀ (line : Line) pos codeBefore,
      line.stretch.candidates pos codeBefore = line.candidates pos codeBefore := fun _ _ _ => rfl
  cases hpackage : unit.package with
  | none =>
    refine ⟨[], false, by simp [stretches, lines, hpackage, marked_stretch], ?_⟩
    simp [stretches, lines, hpackage, stretchCandidates, hstretch, marked_stretch]
  | some q =>
    have hnone : (Line.package q).candidates 0 false = [] := rfl
    refine ⟨(Line.package q).grains true, true,
      by simp [stretches, lines, hpackage, marked_stretch], ?_⟩
    simp [stretches, lines, hpackage, stretchCandidates, hstretch, marked_stretch, hnone]

variable [Form α] [Form β]

def text (unit : SourceUnit α β) : Text :=
  unit.lines.flatMap Line.text ++ (unit.body.text ++ unit.trail)

/-- The documented declarations of a source with their keys and comments, in order. -/
def documented (unit : SourceUnit α β) : List (SignatureKey × Text) :=
  unit.doc.toList.map (fun doc =>
    ((Declaration.type unit.type).key unit.type.name.text, doc.line)) ++
    unit.body.documented

/-- What a source is made of is passed as its forms say, by a scanner for sources of the kind
`kind`. -/
structure Sound (kind : TypeKind) (unit : SourceUnit α β) : Prop where
  members : ∀ a ∈ unit.body.members, IsMember kind a
  endings : ∀ e ∈ unit.body.endings, IsEnding kind e
  headers : ∀ s ∈ unit.header.text :: unit.body.headers, reading kind s = s

theorem Sound.of_ne (hkind : kind ≠ .annotationType) {unit : SourceUnit α β}
    (hmembers : ∀ a ∈ unit.body.members, IsMember kind a)
    (hendings : ∀ e ∈ unit.body.endings, IsEnding kind e) : unit.Sound kind :=
  ⟨hmembers, hendings, fun s _ => reading_of_ne hkind s⟩

section Layouts

variable {unit : SourceUnit α β} {l : BodyLayout kind unit.type.name.text}

theorem grains_text (htext : l.text = unit.body.text) :
    grains unit.text = (unit.stretches l).flatMap Stretch.grains ++ unit.last l := by
  have hlines : ∀ lines : List Line,
      grainText ((lines.map Line.stretch).flatMap Stretch.grains) = lines.flatMap Line.text := by
    intro lines
    induction lines with
    | nil => rfl
    | cons line lines ih =>
      have hline : grainText line.stretch.grains = line.text := grainText_grains_line line
      simp [ih, hline]
  have hsame : unit.text = grainText ((unit.stretches l).flatMap Stretch.grains ++
      unit.last l) := by
    simp [text, ← htext, stretches, last, BodyLayout.text, hlines]
  rw [hsame, grains_grainText (standing_append.mpr ⟨standing_stretches _ _, standing_last []⟩)]

theorem insertPlaceholders_text (htext : l.text = unit.body.text) :
    insertPlaceholders unit.text =
      grainText ((unit.stretches l).flatMap Stretch.marked ++ unit.last l) :=
  insertPlaceholders_stretches (grains_text htext) typeKeywordsFrom_last

theorem grains_insertPlaceholders (htext : l.text = unit.body.text) :
    grains (insertPlaceholders unit.text) =
      (unit.stretches l).flatMap Stretch.marked ++ unit.last l := by
  rw [insertPlaceholders_text htext,
    grains_grainText (standing_append.mpr ⟨standing_marked_stretches _ _, standing_last []⟩)]

/-- The candidates of a source with its placeholders. -/
theorem candidates_text (htext : l.text = unit.body.text) :
    candidates (insertPlaceholders unit.text) =
      stretchCandidates 0 false (unit.stretches l) ++ l.ending.candidates
        (grainText ((unit.stretches l).flatMap Stretch.marked)).length true := by
  have hne : unit.stretches l ≠ [] := by simp [stretches, lines]
  have hbreak : AtBreak ((unit.stretches l).flatMap Stretch.marked) := by
    obtain ⟨front, s, hfront⟩ := eq_nil_or_concat (unit.stretches l) |>.resolve_left hne
    rw [hfront, concat_eq_append, flatMap_append, flatMap_singleton]
    exact .inr (s.endsBroken_marked.append_left _)
  have hstretches := candidatesFrom_stretches (unit.stretches l) [] (.inl rfl)
    (grainText (unit.last l)) false
    (placed (grainText ((unit.stretches l).flatMap Stretch.marked)).length (unit.last l)) (.inl hne)
  have hending := l.ending.candidatesFrom_eq
    (grainText ((unit.stretches l).flatMap Stretch.marked)) ('}' :: unit.trail) true
    (placed ((grainText ((unit.stretches l).flatMap Stretch.marked)).length +
      (grainText l.ending.grains).length) (codeGrains unit.trail)) (atLineStart_of_atBreak hbreak)
  have htrail := candidatesFrom_of_ne (grainText ((unit.stretches l).flatMap Stretch.marked) ++
    (grainText l.ending.inner ++ '}' :: unit.trail)) (ne_of_mem_codeGrains (w := unit.trail))
    ((grainText ((unit.stretches l).flatMap Stretch.marked)).length +
      (grainText l.ending.grains).length) true []
  have hlast : grainText (unit.last l) = grainText l.ending.inner ++ '}' :: unit.trail := by
    simp [last, Ending.grains]
  have hplaced : placed (grainText ((unit.stretches l).flatMap Stretch.marked)).length
      (unit.last l) = placed (grainText ((unit.stretches l).flatMap Stretch.marked)).length
        (l.ending.inner ++ codeGrains ['}']) ++
      placed ((grainText ((unit.stretches l).flatMap Stretch.marked)).length +
        (grainText l.ending.grains).length) (codeGrains unit.trail) := by
    rw [last, placed_append]
    rfl
  simp only [grainText_nil, nil_append, length_nil] at hstretches
  rw [append_nil, candidatesFrom] at htrail
  rw [candidates_eq, grains_insertPlaceholders htext, insertPlaceholders_text htext,
    grainText_append, placed_append, Nat.zero_add, hstretches, hlast, hplaced, hending, htrail,
    append_nil]

end Layouts

/-- The comments visited in a source are those of its documented declarations. -/
theorem sights_start {unit : SourceUnit α β} (hunit : unit.Sound kind) (qualifiers : List Name) :
    sights (start unit.text (QualifiedName.text ⟨qualifiers, unit.type.name⟩) kind).pending
        (start unit.text (QualifiedName.text ⟨qualifiers, unit.type.name⟩) kind) =
      unit.documented := by
  have hname := unit.type.name.isName
  obtain ⟨l, hl, htext, hdocumented⟩ := exists_layout unit.body hname hunit.members hunit.endings
    fun s hs => hunit.headers s (mem_cons_of_mem _ hs)
  have hgrains := grains_insertPlaceholders htext
  have hstanding : Standing ((unit.stretches l).flatMap Stretch.marked ++ unit.last l) [] :=
    standing_append.mpr ⟨standing_marked_stretches _ _, standing_last []⟩
  have hinside :
      Inside kind (start unit.text (QualifiedName.text ⟨qualifiers, unit.type.name⟩) kind)
      ((unit.stretches l).flatMap Stretch.marked ++ unit.last l) 0
      (⟨unit.type.name.text,
        (grainText ((unit.stretches l).flatMap Stretch.marked ++ unit.last l)).length⟩, []) := by
    refine ⟨?_, ?_, ?_, fun stop _ => ?_⟩
    · rw [start_text, insertPlaceholders_text htext]
    · rw [start_masked, mask_eq, hgrains, maskText]
    · rw [start_kind]
    · simp [simpleName_qualified, insertPlaceholders_text htext]
  obtain ⟨pre, codeBefore, hgs, hcandidates⟩ := exists_candidates_lines unit l
  generalize hopened : (Line.opening unit.doc unit.indent unit.header).grains true = opened at *
  have hall : (unit.stretches l).flatMap Stretch.marked ++ unit.last l =
      pre ++ (opened ++ ((l.inner ++ codeGrains ['}']) ++ codeGrains unit.trail)) := by
    simp [hgs, last, BodyLayout.inner, Ending.grains]
  have hall' := hall.trans (append_assoc ..).symm
  have hnil : ∀ next ∈ ([] : List Candidate).head?, next.codeBefore = true := by simp
  have hlength := congrArg (fun gs => (grainText gs).length) hall
  simp only [grainText_append, length_append] at hlength
  have hpending : candidates (insertPlaceholders unit.text) =
      (Line.opening unit.doc unit.indent unit.header).candidates (grainText pre).length
        codeBefore ++
        (l.candidates (grainText (pre ++ opened)).length ++ []) := by
    rw [candidates_text htext, hcandidates, BodyLayout.candidates, hgs]
    simp [Nat.add_assoc]
  obtain ⟨scanner₁, hinside₁, hsights₁⟩ := exists_sights_opening hname unit.doc unit.indent
    unit.header (hunit.headers _ mem_cons_self) hopened hall hstanding
      (hinside.mono (Nat.zero_le _))
    (by simp only [grainText_append, length_append]; omega) rfl 0 (fun hne => absurd rfl hne)
    codeBefore (hl.codeFirst.head?_append (grainText (pre ++ opened)).length hnil)
  rw [if_neg (by simp)] at hinside₁
  obtain ⟨scanner₂, -, hsights₂⟩ := hl.visits hall' hstanding hinside₁ rfl
    (by simp only [grainText_append, length_append]; omega) hnil
  rw [start_pending, hpending, hsights₁, hsights₂, documented, hdocumented, sights, append_nil]

/-- A scanner that replaces nothing gives a source back. -/
theorem finish_text {unit : SourceUnit α β} (hunit : unit.Sound kind) (className : Text) (n : Nat) :
    (advance^[n] (start unit.text className kind)).finish.1 = unit.text := by
  obtain ⟨l, -, htext, -⟩ :=
    exists_layout unit.body unit.type.name.isName hunit.members hunit.endings
    fun s hs => hunit.headers s (mem_cons_of_mem _ hs)
  refine finish_stretches (grains_text htext) typeKeywordsFrom_last (fun g hg => ?_)
    className kind n
  rcases mem_append.mp hg with hg | hg
  · exact l.ending.plain_grains g hg
  · exact plain_codeGrains _ g hg

/-- A run without replacements visits the documented declarations of a source, and gives it back. -/
theorem Sound.run_visits {unit : SourceUnit α β} (hunit : unit.Sound kind) (qualifiers : List Name)
    (synthesize : CommentSpan → LocalizedComment → Synthesis) :
    (run synthesize (fun _ => none)
        (start unit.text (QualifiedName.text ⟨qualifiers, unit.type.name⟩) kind)).visited =
        unit.documented ∧
      (run synthesize (fun _ => none) (start unit.text
        (QualifiedName.text ⟨qualifiers, unit.type.name⟩) kind)).scanner.finish.1 = unit.text := by
  refine ⟨?_, ?_⟩
  · rw [visited_run, sights_start hunit qualifiers]
  · obtain ⟨n, hn⟩ := exists_scanner_run synthesize
      (start unit.text (QualifiedName.text ⟨qualifiers, unit.type.name⟩) kind)
    rw [hn, finish_text hunit]

end SourceUnit

end DocGraft
