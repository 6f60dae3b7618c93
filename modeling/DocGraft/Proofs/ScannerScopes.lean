import DocGraft.Proofs.TypeTreeLines

/-!
# Scopes of a scanner

A scanner knows from its scopes which type a comment stands in. It enters a scope at the comment or
the placeholder before a type, and leaves it at the first comment behind the closing brace. Which
declaration a comment belongs to depends on what the masked text shows behind the comment: white
space and annotations are passed over, and then the declaration is read up to its end.
-/

namespace DocGraft.TypeTree

open List Text Source Signature Scanner Declaration

variable {after head lead : Text} {c : Char} {d : Declaration} {kind : TypeKind}
  {a owner raw s v : Text} {gs post pre : List Grain} {h : TypeHeader} {key : SignatureKey}
  {n stop : Nat} {rest : List Candidate} {scanner : Scanner} {scopes : Scope × List Scope}

/-! ### Declarations -/

/-- In masked text `head` is read as a declaration, behind white space and annotations `lead` and
before `after`. -/
structure Declared (lead head after : Text) : Prop where
  annotations : annotationsLength (lead ++ (head ++ after)) = lead.length
  length : ∀ before, declarationLength? before (head ++ after) = some head.length
  /-- There are no comments in it. -/
  uncommented : Unmatched commentRule head
  inked : ¬ allBlank head = true

/-- What a scanner for sources of the kind `kind` reads of a declaration: for an annotation type, it
has no empty parentheses and no default value. -/
def reading (kind : TypeKind) (plain : Text) : Text :=
  if kind = .annotationType then substitute defaultValueRule (replace "()".toList []
    plain) else plain

theorem reading_of_ne (h : kind ≠ .annotationType) (s : Text) : reading kind s = s :=
  if_neg h

/-- In masked text `head` is read as the declaration `raw`, behind white space and annotations
`lead` and before `after`; the comments in it have become spaces. -/
structure ReadAs (kind : TypeKind) (lead head after raw : Text) : Prop where
  annotations : annotationsLength (lead ++ (head ++ after)) = lead.length
  length : ∀ before, declarationLength? before (head ++ after) = some head.length
  reading_eq : reading kind (substitute commentRule head) = raw
  inked : ¬ allBlank raw = true

theorem Declared.readAs (h : Declared lead head after) (hread : reading kind head = head) :
    ReadAs kind lead head after head :=
  ⟨h.annotations, h.length, by rw [h.uncommented.substitute, hread], h.inked⟩

theorem not_allBlank_cons (hc : isBlank c = false) (s : Text) : ¬ allBlank (c :: s) = true := by
  rw [allBlank, all_cons, hc]
  simp

theorem items_ne_nil (d : Declaration) : d.items ≠ [] := by
  cases d with
  | method m => simp [items, Method.items]
  | field f => simp [items, Field.items, Field.tokens]
  | type h => simp [items, TypeHeader.items, TypeHeader.tokens]

/-- A token begins with something else than white space, and with the mark of annotations only if it
is the keyword of an annotation type. -/
theorem exists_cons_token (t : Declaration.Token) :
    ∃ c v, t.text = c :: v ∧ isBlank c = false ∧ (t.isMember → c ≠ '@') := by
  obtain ⟨c, v, hv, -⟩ := t.exists_cons
  have hmem : c ∈ t.text := by
    rw [hv]
    exact mem_cons_self
  refine ⟨c, v, hv, t.isBlank_of_mem hmem, fun hmember => ?_⟩
  rintro rfl
  exact (Declaration.Token.codeText hmember).notMem (by decide) (by decide) hmem

/-- A header does not begin with an annotation. -/
theorem annotationName?_header (header : Header d) (hc : isWord c = false) (s : Text) :
    annotationName? (header.text ++ c :: s) = none := by
  obtain ⟨t, pieces, hpieces⟩ := header.exists_cons (items_ne_nil d)
  have htext : header.text = t.text ++ spelling pieces := by
    rw [Header.text, hpieces, spelling_cons]
    rfl
  rw [htext]
  by_cases hmember : t.isMember
  · obtain ⟨e, v, hv, -, hat⟩ := exists_cons_token t
    rw [hv, cons_append, cons_append]
    exact annotationName?_of_ne (hat hmember) _
  · -- The keyword of a type, and no word right behind it.
    obtain ⟨word, mem, rfl⟩ : ∃ word mem, t = .keyword word mem := by
      cases t with
      | keyword word mem => exact ⟨word, mem, rfl⟩
      | name q => exact absurd rfl hmember
      | arrayName n => exact absurd rfl hmember
      | mark m => exact absurd rfl hmember
    have hword : word ∈ typeWords := by simpa [Declaration.Token.isMember] using hmember
    have hchain := header.spells.apart
    rw [hpieces] at hchain
    have hend := head?_spelling_of_apart (i := .token (.keyword word mem)) rfl hchain
    rw [Declaration.Token.text, append_assoc]
    cases hspelling : spelling pieces with
    | nil => exact annotationName?_type hword hc s
    | cons e u => exact annotationName?_type hword (hend e (by rw [hspelling]; rfl)) _

/-- A header begins with something else than white space. -/
theorem exists_cons_header (header : Header d) :
    ∃ c v, header.text = c :: v ∧ isBlank c = false := by
  obtain ⟨t, pieces, hpieces⟩ := header.exists_cons (items_ne_nil d)
  obtain ⟨c, v, hv, hblank, -⟩ := exists_cons_token t
  refine ⟨c, v ++ spelling pieces, ?_, hblank⟩
  rw [Header.text, hpieces, spelling_cons, Piece.text, Item.text, hv, cons_append]

theorem commentRule_of_next {s : Text} (h : c = '/' → ∀ d ∈ s.head?, d ≠ '*' ∧ d ≠ '/')
    (before : Option Char) : commentRule before (c :: s) = none := by
  unfold commentRule
  grind

theorem unmatched_commentRule (h : Uncommented s) : Unmatched commentRule s := by
  intro before t ht
  match t with
  | [] => rfl
  | [c] => exact commentRule_of_next (by simp) before
  | c :: d :: t =>
    exact commentRule_of_next (by simpa using (isChain_cons_cons.mp (h.chain.suffix ht)).1) before

/-- Where no comment begins nothing becomes a space. -/
theorem exists_substituteFrom_uncommented {u : Text} (hu : Uncommented u) (before : Option Char)
    (t : Text) : ∃ b, substituteFrom commentRule 0 before (u ++ t) =
      u ++ substituteFrom commentRule 0 b t := by
  refine exists_substituteFrom_of_none (fun c v hv b => commentRule_of_next ?_ b) before
  rintro rfl d hd
  -- The slash is not the last character, and what follows it makes no comment.
  cases v with
  | nil =>
    obtain ⟨w, rfl⟩ := hv
    exact absurd getLast?_concat hu.last
  | cons e v =>
    obtain rfl : e = d := by simpa using hd
    exact (isChain_cons_cons.mp (hu.chain.suffix hv)).1 rfl

/-- The white space before a header is passed over. -/
theorem annotationsLength_header (header : Header d) (n : Nat) (hc : isWord c = false) (t : Text) :
    annotationsLength ('\n' :: spaces n ++ (header.text ++ c :: t)) =
      ('\n' :: spaces n).length := by
  have hblank : ∀ e ∈ '\n' :: spaces n, isBlank e := by
    intro e he
    rcases mem_cons.mp he with rfl | he
    · decide
    · rw [eq_of_mem_replicate he]
      decide
  obtain ⟨d, v, hv, hd⟩ := exists_cons_header header
  have hname := annotationName?_header header hc t
  rw [hv, cons_append] at hname ⊢
  exact annotationsLength_blank hblank hd hname

theorem uncommented_header (header : Header d) : Uncommented header.text :=
  uncommented_of_notMem (header.codeText.notMem (by decide) (by decide))

theorem unended_header (header : Header d) : Unended header.text :=
  header.codeText.unended (by decide) (by decide) (uncommented_header header).uncut

/-- A header on a line of its own is read as a declaration, up to the character that ends it. -/
theorem declared_header (header : Header d) (n : Nat) (hc : c ∈ declarationEnds) (t : Text) :
    Declared ('\n' :: spaces n) header.text (c :: t) := by
  obtain ⟨d, v, hv, hd⟩ := exists_cons_header header
  refine ⟨?_, fun before => ?_, ?_, ?_⟩
  · exact annotationsLength_header header n (of_mem_declarationEnds hc).1 t
  · exact (unended_header header).declarationLength? hc before t
  · exact unmatched_commentRule (uncommented_header header)
  · rw [hv]
    exact not_allBlank_cons hd v

/-- The declaration that begins at an offset of the masked text. -/
theorem declarationAt?_eq (hread : ReadAs scanner.kind lead head after raw)
    (hmasked : scanner.masked = a ++ (lead ++ (head ++ after))) :
    scanner.declarationAt? (a.length + lead.length) = some raw := by
  obtain ⟨d, v, hv⟩ : ∃ d v, head = d :: v := by
    refine exists_cons_of_ne_nil fun hnil => hread.inked ?_
    rw [← hread.reading_eq, hnil, reading]
    split_ifs <;> rfl
  have hpos : head.length = v.length + 1 := by
    rw [hv, length_cons]
  have hsplit : scanner.masked = (a ++ lead) ++ (head ++ after) := by
    rw [hmasked, append_assoc]
  have hraw := hread.reading_eq
  rw [reading] at hraw
  rw [declarationAt?, hsplit, ← length_append, drop_left, take_left, hread.length, hpos]
  simp only []
  rw [← hpos, take_left, hraw, if_neg hread.inked]

/-- The key of the declaration behind a comment, and the scope that it opens. -/
theorem resolve_eq (hread : ReadAs scanner.kind lead head after raw)
    (hmasked : scanner.masked = a ++ (lead ++ (head ++ after))) {candidate : Candidate}
    (hcandidate : candidate.commentStop = a.length)
    (hkey : SignatureKey.ofDeclaration (scanner.leaveScopes candidate.stop).scope.name raw =
      .ok key)
    (hstop : key.declaresInner = true → braceEnd? scanner.masked (a.length + lead.length) =
      some stop) :
    scanner.resolve candidate =
      (some key,
        if key.declaresInner then
          (scanner.leaveScopes candidate.stop).enterScope ⟨key.owner, stop⟩
        else scanner.leaveScopes candidate.stop, []) := by
  have hannotations : annotationsLength (scanner.masked.drop candidate.commentStop) =
      lead.length := by
    rw [hmasked, hcandidate, drop_left, hread.annotations]
  have hdeclaration : (scanner.leaveScopes candidate.stop).declarationAt?
      (a.length + lead.length) = some raw :=
    declarationAt?_eq hread hmasked
  have hsame : (scanner.leaveScopes candidate.stop).masked = scanner.masked := rfl
  rw [resolve]
  simp only [hsame, hannotations]
  rw [hcandidate, hdeclaration]
  simp only [hkey]
  by_cases hinner : key.declaresInner = true
  · grind
  · rw [if_neg hinner, if_neg hinner]

/-! ### Scopes -/

/-- A scanner for sources of the kind `kind` has a text with the grains `gs`, and from the offset
`pos` on it is inside of the scopes `scopes`, once those that have ended are left. -/
structure Inside (kind : TypeKind) (scanner : Scanner) (gs : List Grain) (pos : Nat)
    (scopes : Scope × List Scope) : Prop where
  text : scanner.text = grainText gs
  masked : scanner.masked = maskText gs
  kind_eq : scanner.kind = kind
  scopes : ∀ stop, pos < stop →
    Scanner.leave stop scanner.scope scanner.outerScopes = Scanner.leave stop scopes.1 scopes.2

theorem leave_of_le {scope : Scope} (h : stop ≤ scope.stop) (outer : List Scope) :
    Scanner.leave stop scope outer = (scope, outer) := by
  cases outer with
  | nil => rfl
  | cons next rest => rw [Scanner.leave, if_neg (by omega)]

namespace Inside

variable {scanner : Scanner} {gs : List Grain} {pos : Nat} {scopes : Scope × List Scope}
  {pos' stop : Nat}

theorem mono (h : Inside kind scanner gs pos scopes) (hle : pos ≤ pos') :
    Inside kind scanner gs pos' scopes :=
  ⟨h.text, h.masked, h.kind_eq, fun stop hstop => h.scopes stop (hle.trans_lt hstop)⟩

/-- At a comment inside the innermost scope the scopes are brought up to date. -/
theorem leaveScopes_eq (h : Inside kind scanner gs pos scopes) (hpos : pos < stop)
    (hstop : stop ≤ scopes.1.stop) :
    scanner.leaveScopes stop =
      { scanner with scope := scopes.1, outerScopes := scopes.2 } := by
  rw [leaveScopes, h.scopes stop hpos, leave_of_le hstop]

theorem leaveScopes (h : Inside kind scanner gs pos scopes) (hpos : pos < stop)
    (hstop : stop ≤ scopes.1.stop) (pos' : Nat) :
    Inside kind (scanner.leaveScopes stop) gs pos' scopes := by
  rw [h.leaveScopes_eq hpos hstop]
  exact ⟨h.text, h.masked, h.kind_eq, fun _ _ => rfl⟩

theorem enterScope (h : Inside kind scanner gs pos scopes) (hpos : pos < stop)
    (hstop : stop ≤ scopes.1.stop) (scope : Scope) (pos' : Nat) :
    Inside kind ((scanner.leaveScopes stop).enterScope scope) gs pos' (scope,
      scopes.1 :: scopes.2) := by
  rw [h.leaveScopes_eq hpos hstop]
  exact ⟨h.text, h.masked, h.kind_eq, fun _ _ => rfl⟩

theorem exit {scope next : Scope} {outer : List Scope}
    (h : Inside kind scanner gs pos (scope, next :: outer)) (hle : pos ≤ pos')
    (hstop : scope.stop ≤ pos') : Inside kind scanner gs pos' (next, outer) := by
  refine ⟨h.text, h.masked, h.kind_eq, fun stop hpos => ?_⟩
  rw [h.scopes stop (hle.trans_lt hpos), Scanner.leave, if_pos (hstop.trans_lt hpos)]

end Inside

/-! ### Comments before declarations -/

theorem grainText_comment (n : Nat) (v : Text) :
    grainText (commentGrains (some (n, v))) = commentLine n v :=
  grainText_commentGrains _

/-- A comment is visited, unless it is a placeholder. -/
theorem sights_comment
    (htext : scanner.text = grainText (pre ++ (commentGrains (some (n, v)) ++ post)))
    (codeBefore : Bool) (hrest : ∀ next ∈ rest.head?, next.codeBefore = true) {resolved : Scanner}
    {notices : List Notice}
    (hresolve : scanner.resolve (commentCandidate (grainText pre).length codeBefore (n, v)) =
      (some key, resolved, notices)) :
    sights (commentCandidate (grainText pre).length codeBefore (n, v) :: rest) scanner =
      (if hasPlaceholder (commentLine n v) then [] else [(key, commentLine n v)]) ++
        sights rest resolved := by
  have hslice : slice scanner.text (grainText pre).length
      ((grainText pre).length + (n + (docComment v).length) + 1) = commentLine n v := by
    refine slice_eq_of_append (a := grainText pre) (c := grainText post) ?_ rfl ?_
    · simp [htext, grainText_comment]
    · simp [commentLine, spaces]
      omega
  have hbanner : isBanner (commentLine n v) = false := by
    refine isBanner_docComment n v fun c hc => ?_
    rw [mem_singleton.mp hc]
    decide
  have hnext : ¬ (rest.head?.any fun next => !next.codeBefore) = true := by
    rw [Option.any_eq_true]
    rintro ⟨next, hmem, hcode⟩
    simp [hrest next hmem] at hcode
  rw [commentCandidate] at hresolve ⊢
  simp only [sights, hslice, hbanner, hresolve, Bool.false_eq_true, if_false, if_neg hnext]
  by_cases hplace : hasPlaceholder (commentLine n v) = true
  · grind
  · rw [if_neg hplace, if_neg hplace]
    rfl

theorem exists_maskText_comment
    (hstanding : Standing (pre ++ (commentGrains (some (n, v)) ++ post)) []) :
    ∃ a : Text, a.length = (grainText pre).length + (n + (docComment v).length) ∧
      maskText (pre ++ (commentGrains (some (n, v)) ++ post)) = a ++ '\n' :: maskText post := by
  obtain ⟨hpre, hcomment, -⟩ := standing_append.mp hstanding |>.imp_right standing_append.mp
  have hblock := length_maskGrain ((standing_append.mp hcomment).2).1
  refine ⟨maskText pre ++ (spaces n ++ maskGrain (.blockComment, docComment v)), ?_, ?_⟩
  · simp [length_maskText hpre, hblock, spaces]
  · simp [commentGrains]

/-- A comment before a declaration is visited with the key of the declaration in the innermost
scope, unless it is a placeholder; and then the declaration opens a scope if it is that of a type
with another name. -/
theorem exists_sights_comment (hgs : gs = pre ++ (commentGrains (some (n, v)) ++ post))
    (hstanding : Standing gs []) (hinside : Inside kind scanner gs (grainText pre).length scopes)
    (hwithin : (grainText pre).length + (commentLine n v).length ≤ scopes.1.stop)
    (hread : ReadAs kind lead head after raw)
    (hpost : '\n' :: maskText post = lead ++ (head ++ after))
    (hkey : SignatureKey.ofDeclaration scopes.1.name raw = .ok key) (stop : Nat)
    (hstop : key.declaresInner = true →
      braceEnd? (maskText gs) ((grainText pre).length + (n + (docComment v).length) + lead.length) =
        some stop) (codeBefore : Bool) (hrest : ∀ next ∈ rest.head?, next.codeBefore = true) :
    ∃ scanner', Inside kind scanner' gs ((grainText pre).length + (commentLine n v).length)
        (if key.declaresInner then (⟨key.owner, stop⟩, scopes.1 :: scopes.2) else scopes) ∧
      sights (commentCandidate (grainText pre).length codeBefore (n, v) :: rest) scanner =
        (if hasPlaceholder (commentLine n v) then [] else [(key, commentLine n v)]) ++
          sights rest scanner' := by
  subst hgs
  obtain ⟨a, ha, hmask⟩ := exists_maskText_comment hstanding
  have hlength : (commentLine n v).length = n + (docComment v).length + 1 := by
    simp [commentLine, spaces]
    omega
  have hpos : (grainText pre).length <
      (grainText pre).length + (n + (docComment v).length) + 1 := by
    omega
  have hle : (grainText pre).length + (n + (docComment v).length) + 1 ≤ scopes.1.stop := by
    omega
  have hkey' : SignatureKey.ofDeclaration (scanner.leaveScopes
      ((grainText pre).length + (n + (docComment v).length) + 1)).scope.name raw = .ok key := by
    rw [hinside.leaveScopes_eq hpos hle]
    exact hkey
  have hstop' : key.declaresInner = true →
      braceEnd? scanner.masked (a.length + lead.length) = some stop := fun hinner => by
    rw [hinside.masked, ha, hstop hinner]
  have hmasked : scanner.masked = a ++ (lead ++ (head ++ after)) := by
    rw [hinside.masked, hmask, hpost]
  refine ⟨_, ?_, sights_comment hinside.text codeBefore hrest
    (resolve_eq (hinside.kind_eq ▸ hread) hmasked ha.symm hkey' hstop')⟩
  split_ifs
  · exact hinside.enterScope hpos hle _ _
  · exact hinside.leaveScopes hpos hle _

/-- The comment before a line is that of its type or member, or a placeholder. -/
theorem comment?_true {line : Line} (h : line.comment? true = some (n, v)) :
    (∃ doc, line.doc? = some doc ∧ n = doc.indent ∧ v = doc.text) ∨
      line.doc? = none ∧ n = 0 ∧ v = "javadoc-merge placeholder".toList := by
  rw [Line.comment?, Bool.true_and] at h
  split_ifs at h with hmark
  · obtain ⟨rfl, rfl⟩ := Prod.mk.inj (Option.some.inj h)
    exact .inr ⟨doc?_eq_none hmark, rfl, rfl⟩
  · obtain ⟨doc, hdoc, heq⟩ := Option.map_eq_some_iff.mp h
    obtain ⟨rfl, rfl⟩ := Prod.mk.inj heq
    exact .inl ⟨doc, hdoc, rfl, rfl⟩

theorem not_hasPlaceholder_line (doc : DocLine) : hasPlaceholder doc.line = false := by
  by_contra h
  have hword := word_infix_of_hasPlaceholder (by simpa using h)
  have hspaces : ∀ c ∈ spaces doc.indent, c ∉ Placeholder.word := by
    intro c hc
    rw [eq_of_mem_replicate hc]
    decide
  exact not_word_infix_docComment doc.unmarked (infix_of_infix_append_right (by decide)
    (forall_mem_singleton.mpr (by decide))
    (infix_of_infix_append_left (by decide) hspaces hword))

theorem ofDeclaration_header (howner : IsName owner) (header : Header d) :
    SignatureKey.ofDeclaration owner header.text = .ok (d.key owner) :=
  header.ofDeclaration (Name.unqualified ⟨owner, howner⟩)

/-! ### Types -/

theorem brace_notMem_header (header : Header d) : '{' ∉ header.text ∧ '}' ∉ header.text :=
  ⟨header.codeText.notMem (by decide) (by decide), header.codeText.notMem (by decide) (by decide)⟩

theorem balanced_header (header : Header d) : Balanced header.text :=
  balanced_of_notMem (brace_notMem_header header).1 (brace_notMem_header header).2

theorem balanced_lead (comment : Option (Nat × Text)) (n : Nat) :
    Balanced (maskText (commentGrains comment) ++ spaces n) := by
  refine balanced_of_maskMarks fun c hc => ?_
  rcases mem_append.mp hc with hc | hc
  · exact mem_maskMarks_of_comment hc
  · exact mem_maskMarks_of_spaces hc

/-- A comment before a type that has one is visited, and a placeholder is not. -/
theorem visited_opening (doc : Option DocLine) (indent : Nat) (header : Header (.type h))
    (hcomment : (Line.opening doc indent header).comment? true = some (n, v)) (key : SignatureKey) :
    (if hasPlaceholder (commentLine n v) then [] else [(key, commentLine n v)]) =
      doc.toList.map fun doc => (key, doc.line) := by
  rcases comment?_true hcomment with ⟨doc, hdoc, rfl, rfl⟩ | ⟨hdoc, rfl, rfl⟩
  · obtain rfl : _ = some doc := hdoc
    have hplace : hasPlaceholder (commentLine doc.indent doc.text) = false :=
      not_hasPlaceholder_line doc
    rw [hplace]
    rfl
  · obtain rfl : doc = none := hdoc
    have hplace : hasPlaceholder (commentLine 0 "javadoc-merge placeholder".toList) = true := by
      decide
    rw [hplace]
    rfl

/-- The comment or the placeholder before a type is passed in the scope around it; a type with
another name than that scope opens one of its own. -/
theorem exists_sights_opening (howner : IsName owner) (doc : Option DocLine) (indent : Nat)
    (header : Header (.type h)) (hread : reading kind header.text = header.text) {own : List Grain}
    (hown : (Line.opening doc indent header).grains true = own) (hgs : gs = pre ++ (own ++ post))
    (hstanding : Standing gs []) (hinside : Inside kind scanner gs (grainText pre).length scopes)
    (hwithin : (grainText (pre ++ own)).length ≤ scopes.1.stop) (hname : scopes.1.name = owner)
    (stop : Nat)
    (hstop : h.name.text ≠ owner → ∃ s t, Balanced s ∧ maskText post = s ++ '}' :: t ∧
      stop = (grainText (pre ++ own)).length + s.length + 1) (codeBefore : Bool)
    (hrest : ∀ next ∈ rest.head?, next.codeBefore = true) :
    ∃ scanner', Inside kind scanner' gs (grainText (pre ++ own)).length
        (if h.name.text ≠ owner then (⟨h.name.text, stop⟩, scopes.1 :: scopes.2) else scopes) ∧
      sights ((Line.opening doc indent header).candidates (grainText pre).length codeBefore ++
          rest) scanner =
        doc.toList.map (fun doc => ((Declaration.type h).key owner, doc.line)) ++
          sights rest scanner' := by
  obtain ⟨⟨n, v⟩, hcomment⟩ : ∃ comment, (Line.opening doc indent header).comment? true =
      some comment := by
    cases doc with
    | none => exact ⟨_, rfl⟩
    | some doc => exact ⟨_, rfl⟩
  have hlines : own = commentGrains (some (n, v)) ++
      codeGrains (spaces indent ++ (header.text ++ ['{', '\n'])) := by
    rw [← hown, Line.grains, hcomment]
    simp [Line.itemGrains, Line.indent]
  have hlength : (grainText (pre ++ own)).length = (grainText pre).length +
      (commentLine n v).length + (indent + header.text.length + 2) := by
    rw [hlines, grainText_append, grainText_append, grainText_comment]
    simp [spaces]
    omega
  have hgs' : gs = pre ++ (commentGrains (some (n, v)) ++
      (codeGrains (spaces indent ++ (header.text ++ ['{', '\n'])) ++ post)) := by
    rw [hgs, hlines, append_assoc]
  have hpost : '\n' :: maskText (codeGrains (spaces indent ++ (header.text ++ ['{', '\n'])) ++
      post) =
      ('\n' :: spaces indent) ++ (header.text ++ '{' :: '\n' :: maskText post) := by
    simp
  have hkey : SignatureKey.ofDeclaration scopes.1.name header.text =
      .ok ((Declaration.type h).key owner) := by
    rw [hname]
    exact ofDeclaration_header howner header
  have hend : ((Declaration.type h).key owner).declaresInner = true →
      braceEnd? (maskText gs) ((grainText pre).length + (n + (docComment v).length) +
        ('\n' :: spaces indent).length) = some stop := by
    intro hinner
    obtain ⟨s, t, hs, hmask, rfl⟩ := hstop (by simpa [Declaration.key] using hinner)
    obtain ⟨a, ha, htext⟩ := exists_maskText_comment (hgs' ▸ hstanding)
    have hbreak : Balanced ('\n' :: s) :=
      (balanced_of_notMem (m := ['\n']) (by decide) (by decide)).append hs
    have hend := hbreak.braceEnd? (brace_notMem_header header).1 (brace_notMem_header header).2
      (a ++ '\n' :: spaces indent) t
    have hmasked : maskText gs =
        (a ++ '\n' :: spaces indent) ++ (header.text ++ '{' :: (('\n' :: s) ++ '}' :: t)) := by
      rw [hgs', htext, hpost, hmask]
      simp
    have hcommentLine : (commentLine n v).length = n + (docComment v).length + 1 := by
      simp [commentLine, spaces]
      omega
    rw [length_append, ha] at hend
    rw [hmasked, hend]
    grind [spaces]
  have hline :
      (grainText pre).length + (commentLine n v).length ≤ (grainText (pre ++ own)).length := by
    omega
  obtain ⟨scanner', hinside', hsights⟩ := exists_sights_comment hgs' hstanding hinside
    (hline.trans hwithin) ((declared_header header indent (by decide) _).readAs hread)
      hpost hkey stop
    hend codeBefore hrest
  have hmono := hinside'.mono hline
  refine ⟨scanner', by simpa [Declaration.key] using hmono, ?_⟩
  rw [Line.candidates, hcomment, ← visited_opening doc indent header hcomment]
  exact hsights

end DocGraft.TypeTree
