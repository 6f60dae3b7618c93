import DocGraft.Proofs.EngineHistory
import DocGraft.Proofs.PageRendering

/-!
# Entries of pages

A block of a page says something about a method if it shows the signature of the method and has one
division with a description, besides parts that say nothing. The index that is built from such pages
has under each key what was said last about a method with that key, in the order of the pages.
-/

namespace DocGraft.DocIndex

open List

variable {entries : List (SignatureKey × Text)} {key : SignatureKey}

/-! ### The last entry under a key -/

theorem same_iff {a b : SignatureKey} : a.same b = true ↔ a.canonical = b.canonical := by
  simp [SignatureKey.same]

/-- An entry is found under its own key, and the others where they were. -/
theorem find?_put (entry : DocEntry) (entries : List DocEntry) (key : SignatureKey) :
    (put entry entries).find? (fun e => e.key.same key) =
      if entry.key.same key then some entry else entries.find? fun e => e.key.same key := by
  induction entries with
  | nil =>
    rw [put, find?_cons, find?_nil]
    cases entry.key.same key <;> rfl
  | cons e entries ih =>
    rw [put]
    by_cases hsame : e.key.same entry.key
    · -- The entry in whose place it goes is found under the same keys.
      have hkey : e.key.same key = entry.key.same key := by
        rw [SignatureKey.same, SignatureKey.same, same_iff.mp hsame]
      rw [if_pos hsame, find?_cons, find?_cons, hkey]
      cases entry.key.same key <;> rfl
    · rw [if_neg hsame]
      by_cases hkey : e.key.same key
      · have hother : ¬ entry.key.same key := fun h =>
          hsame (same_iff.mpr ((same_iff.mp hkey).trans (same_iff.mp h).symm))
        simp [hkey, hother]
      · simp [hkey, ih]

/-- An index keeps the last entry under a key. -/
theorem find?_foldl_put (entries kept : List DocEntry) (key : SignatureKey) :
    (entries.foldl (fun kept entry => put entry kept) kept).find? (fun e => e.key.same key) =
      (entries.reverse.find? fun e => e.key.same key).or (kept.find? fun e => e.key.same key) := by
  induction entries generalizing kept with
  | nil => rfl
  | cons entry entries ih =>
    rw [foldl_cons, ih, find?_put, reverse_cons, find?_append, find?_singleton]
    cases entries.reverse.find? fun e => e.key.same key <;> cases entry.key.same key <;> rfl

/-- What was said last about a key, if anything was. -/
def said (entries : List (SignatureKey × Text)) (key : SignatureKey) : Option Text :=
  (entries.reverse.find? fun entry => entry.1.same key).map Prod.snd

theorem said_append (as bs : List (SignatureKey × Text)) (key : SignatureKey) :
    said (as ++ bs) key = (said bs key).or (said as key) := by
  rw [said, said, said, reverse_append, find?_append]
  cases bs.reverse.find? fun entry => entry.1.same key <;> rfl

theorem said_eq_none (h : ∀ entry ∈ entries, entry.1.same key = false) :
    said entries key = none := by
  rw [said, Option.map_eq_none_iff, find?_eq_none]
  intro entry hentry
  simp [h entry (mem_reverse.mp hentry)]

theorem exists_said {entry : SignatureKey × Text} (h : entry ∈ entries) :
    ∃ v, said entries entry.1 = some v := by
  rw [← Option.isSome_iff_exists, said, Option.isSome_map, find?_isSome]
  exact ⟨entry, mem_reverse.mpr h, same_iff.mpr rfl⟩

/-- What is said about a key stands in an entry. -/
theorem exists_mem_of_said {v : Text} (h : said entries key = some v) :
    ∃ entry ∈ entries, entry.2 = v := by
  obtain ⟨entry, hfind, rfl⟩ := Option.map_eq_some_iff.mp h
  grind

/-- The entry for a description. -/
def describing (entry : SignatureKey × Text) : DocEntry :=
  ⟨entry.1, { body := some entry.2 }⟩

/-- The index of descriptions, given in order. -/
def ofDescriptions (entries : List (SignatureKey × Text)) : DocIndex :=
  ⟨(entries.map describing).foldl (fun kept entry => put entry kept) []⟩

theorem get?_ofDescriptions (entries : List (SignatureKey × Text)) (key : SignatureKey) :
    (ofDescriptions entries).get? key =
      (said entries key).map fun v => { body := some v } := by
  rw [get?, ofDescriptions, find?_foldl_put, find?_nil, Option.or_none, said,
    ← map_reverse, find?_map, Option.map_map, Option.map_map]
  rfl

end DocGraft.DocIndex

namespace DocGraft.Docs

open List Text Markup Signature Declaration
open Source

/-! ### Blocks -/

variable (vocabulary : LabelVocabulary) (page : PageContext)

/-- A division has a plain text that is no deprecation notice. -/
def Undeprecated (division : Element) : Prop :=
  ∃ text, readPlainText division.inner = .ok text ∧ vocabulary.deprecationMarker? text = none

/-- A part of a block says nothing about a declaration. -/
structure Silent (part : Element) : Prop where
  unlisted : part.tag ≠ "dl".toList
  plain : part.tag = "div".toList →
    "block".toList ∉ part.classes ∧ Undeprecated vocabulary part

/-- A part of a block is the description `v`. -/
structure Describes (part : Element) (v : Text) : Prop where
  division : part.tag = "div".toList
  block : "block".toList ∈ part.classes
  /-- It is no deprecation notice. -/
  undeprecated : Undeprecated vocabulary part
  text_eq : commentMarkup page (trim part.inner) = v

/-- An element shows the signature of a method, with or without a clause `throws`. -/
def ShowsMethod (signature : Element) (m : Method) : Prop :=
  ∃ (pieces : List PagePiece) (clause : Option ThrowsClause),
    signature.inner = markupOf pieces ++ (clause.map ThrowsClause.markup).getD [] ∧
      Spells (piecesOf pieces) m.unannotated.items ∧ Unclung (piecesOf pieces)

/-- The parts of a block show the signature of a method and say something about it. -/
structure BlockTells (parts : List Element) (entry : Method × Text) : Prop where
  signature : ∃ signature ∈ parts.find? isSignature, ShowsMethod signature entry.1
  description : ∃ before part after, parts = before ++ part :: after ∧
    Describes vocabulary page part entry.2 ∧ ∀ other ∈ before ++ after, Silent vocabulary other

/-- The parts of the blocks that have a signature. A page without markup is not looked at. -/
def signedBlocks [Platform] (markup : Text) : List (List Element) :=
  if markup = [] then []
  else ((blocksOf markup).map childElements).filter fun parts => parts.any isSignature

/-- The blocks of a page that have a signature say something about methods. -/
def PageTells [Platform] (markup : Text) (entries : List (Method × Text)) : Prop :=
  List.Forall₂ (BlockTells vocabulary page) (signedBlocks markup) entries

variable {vocabulary page}

theorem readParts_silent {parts : List (Tree Element)}
    (h : ∀ part ∈ parts.map Tree.label, Silent vocabulary part) (rest : List (Tree Element))
    (comment : LocalizedComment) :
    readParts vocabulary page (parts ++ rest) comment =
      readParts vocabulary page rest comment := by
  induction parts with
  | nil => rfl
  | cons part parts ih =>
    obtain ⟨hpart, hparts⟩ := forall_mem_cons.mp h
    rw [cons_append, readParts]
    split_ifs with hdivision hlist
    · obtain ⟨hblock, text, htext, hmarker⟩ := hpart.plain hdivision
      simp only [readDivision, htext, Except.map, hmarker, hblock, decide_false, Bool.and_false,
        Bool.false_eq_true, if_false, Except.bind]
      exact ih hparts
    · exact absurd hlist hpart.unlisted
    · exact ih hparts

/-- A block that says something is read. -/
theorem BlockTells.readBlock_eq {block : Tree Element} {entry : Method × Text}
    (h : BlockTells vocabulary page (childElements block) entry) :
    readBlock vocabulary page block = .ok { body := some entry.2 } := by
  obtain ⟨before, part, after, hparts, hpart, hsilent⟩ := h.description
  obtain ⟨bs, rest, hchildren, rfl, hrest⟩ := map_eq_append_iff.mp hparts
  obtain ⟨t, as, rfl, rfl, rfl⟩ := map_eq_cons_iff.mp hrest
  obtain ⟨text, htext, hmarker⟩ := hpart.undeprecated
  have hdivision : readDivision vocabulary page t.label {} = .ok { body := some entry.2 } := by
    simp only [readDivision, htext, Except.map, hmarker, hpart.block, hpart.text_eq,
      Option.isNone_none, decide_true, Bool.and_true, if_true]
  have hafter : readParts vocabulary page (as ++ []) { body := some entry.2 } =
      .ok { body := some entry.2 } :=
    readParts_silent (fun other hother => hsilent other (mem_append_right _ hother)) [] _
  rw [append_nil] at hafter
  rw [readBlock, hchildren, readParts_silent fun other hother =>
    hsilent other (mem_append_left _ hother), readParts, if_pos hpart.division, hdivision,
    Except.bind, hafter]

/-- The signature of a method on a page gives the key of the method. -/
theorem ShowsMethod.exists_key {signature : Element} {m : Method} (h : ShowsMethod signature m)
    (owner : Name) :
    ∃ text, declarationText signature.inner = .ok text ∧
      SignatureKey.ofDeclaration owner.text text = .ok ((Declaration.method m).key owner.text) := by
  obtain ⟨pieces, clause, hinner, hspells, hunclung⟩ := h
  obtain ⟨gaps, hgaps, htext⟩ := exists_declarationText hspells.apart clause
  obtain ⟨hspelling, hclear⟩ := hgaps.spells_append hspells hunclung
  have hkey := ofDeclaration_spelling (.method m.unannotated) ⟨[], owner⟩ hspelling hclear
  rw [key_unannotated] at hkey
  exact ⟨_, by rw [hinner, htext], by simpa [QualifiedName.text] using hkey⟩

/-- The keys and descriptions of methods of the class `owner`. -/
def descriptions (owner : Text) (entries : List (Method × Text)) : List (SignatureKey × Text) :=
  entries.map fun entry => ((Declaration.method entry.1).key owner, entry.2)

theorem readBlocks_eq {blocks : List (Tree Element)} {entries : List (Method × Text)} {owner : Name}
    (howner : page.owner = owner.text)
    (h : List.Forall₂ (BlockTells vocabulary page)
      ((blocks.map childElements).filter fun parts => parts.any isSignature) entries) :
    readBlocks vocabulary page blocks =
      { entries := ((descriptions owner.text entries).map DocIndex.describing).map .ok } := by
  induction blocks generalizing entries with
  | nil =>
    obtain rfl := forall₂_nil_left_iff.mp h
    rfl
  | cons block blocks ih =>
    rw [readBlocks]
    rw [map_cons] at h
    cases hsignature : (childElements block).find? isSignature with
    | none =>
      grind
    | some signature =>
      have hany : (childElements block).any isSignature = true :=
        any_eq_true.mpr ⟨signature, mem_of_find?_eq_some hsignature,
          find?_some hsignature⟩
      rw [filter_cons_of_pos (by simpa using hany)] at h
      obtain ⟨entry, later, hblock, hlater, rfl⟩ := forall₂_cons_left_iff.mp h
      obtain ⟨signature', hmem, hshows⟩ := hblock.signature
      obtain rfl : signature = signature' := Option.some.inj (hsignature.symm.trans hmem)
      obtain ⟨text, htext, hkey⟩ := hshows.exists_key owner
      simp only [readDeclaration, htext, Except.bind, howner, hkey, hblock.readBlock_eq,
        Except.map, ih hlater]
      rfl

end DocGraft.Docs

namespace DocGraft.DocIndex

open List Text Docs Declaration

/-! ### Pages -/

variable [Platform] {vocabulary : LabelVocabulary} {package : Text} {outcome : Outcome}
  {told : Text → List (Method × Text)}

/-- A page, given by class path, says something about the methods of its class. -/
structure Tells (vocabulary : LabelVocabulary) (package : Text) (page : Text × Text)
    (entries : List (Method × Text)) : Prop where
  owner : ∃ name : Name, afterLast '.' page.1 = name.text
  page : PageTells vocabulary { package := package, classPath := page.1 } page.2 entries

omit [Platform] in
theorem foldl_addEntry_ok (entries : List DocEntry) (outcome : Outcome) :
    (entries.map Except.ok).foldl addEntry outcome =
      { outcome with
        index := ⟨entries.foldl (fun kept entry => put entry kept) outcome.index.entries⟩ } := by
  induction entries generalizing outcome with
  | nil => rfl
  | cons entry entries ih => simp [addEntry, ih]

/-- A page adds what it says. -/
theorem exists_addPage_eq {page : Text × Text} {entries : List (Method × Text)}
    (h : Tells vocabulary package page entries) (hfailure : outcome.failure = none) :
    ∃ patterns, addPage vocabulary package outcome page =
      { outcome with
        index := ⟨((descriptions (afterLast '.' page.1) entries).map describing).foldl
          (fun kept entry => put entry kept) outcome.index.entries⟩
        patterns := patterns } := by
  obtain ⟨name, hname⟩ := h.owner
  have howner : PageContext.owner { package := package, classPath := page.1 } = name.text := hname
  have hblocks := h.page
  rw [PageTells, signedBlocks] at hblocks
  by_cases hempty : page.2 = []
  · rw [if_pos hempty] at hblocks
    obtain rfl := forall₂_nil_left_iff.mp hblocks
    exact ⟨outcome.patterns, if_pos (.inl hempty)⟩
  · rw [if_neg hempty] at hblocks
    have hread := readBlocks_eq howner hblocks
    refine ⟨(PageContext.prepare outcome.patterns package page.1).2, ?_⟩
    rw [addPage, if_neg (by simp [hempty, hfailure])]
    simp only [PageContext.prepare_fst, readPage, hread, foldl_addEntry_ok]
    rw [hname, hfailure]

theorem exists_foldl_addPage_eq {pages : List (Text × Text)}
    (h : ∀ page ∈ pages, Tells vocabulary package page (told page.1))
    (hfailure : outcome.failure = none) :
    ∃ patterns, pages.foldl (addPage vocabulary package) outcome =
      { outcome with
        index := ⟨((pages.flatMap fun page => descriptions (afterLast '.' page.1) (told page.1)).map
          describing).foldl (fun kept entry => put entry kept) outcome.index.entries⟩
        patterns := patterns } := by
  induction pages generalizing outcome with
  | nil => exact ⟨outcome.patterns, rfl⟩
  | cons page pages ih =>
    obtain ⟨hpage, hpages⟩ := forall_mem_cons.mp h
    obtain ⟨patterns, hstep⟩ := exists_addPage_eq hpage hfailure
    rw [foldl_cons, hstep]
    have hfailure' : Outcome.failure { outcome with
        index := ⟨((descriptions (afterLast '.' page.1) (told page.1)).map describing).foldl
          (fun kept entry => put entry kept) outcome.index.entries⟩
        patterns := patterns } = none := hfailure
    obtain ⟨patterns', hrest⟩ := ih hpages hfailure'
    refine ⟨patterns', hrest.trans ?_⟩
    simp

/-- The index of pages has what they say. -/
theorem exists_build_eq {className name markup : Text}
    (hname : cutLast '.' className = (package, name)) {inner : List (Text × Text)}
    (h : ∀ page ∈ (name, markup) :: inner, Tells vocabulary package page (told page.1))
    (patterns : PatternCache) :
    ∃ patterns', build vocabulary patterns className (some markup) inner =
      { index := ofDescriptions (((name, markup) :: inner).flatMap fun page =>
          descriptions (afterLast '.' page.1) (told page.1))
        patterns := patterns' } := by
  have hfailure : Outcome.failure { patterns := patterns } = none := rfl
  obtain ⟨patterns', hpages⟩ := exists_foldl_addPage_eq h hfailure
  have hadd : addPages vocabulary package patterns ((name, markup) :: inner) = _ := hpages
  simp only [build, hname, Option.getD_some, hadd]
  exact ⟨_, rfl⟩

end DocGraft.DocIndex
