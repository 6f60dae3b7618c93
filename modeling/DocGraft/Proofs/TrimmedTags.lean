import DocGraft.Comment.Draft
import DocGraft.Proofs.TextRules

/-!
# Entries that the source documents

The replacement of a comment with block tags only has no description, and its entries are trimmed to
those that the comment documents by name. They are compared with the names in the comment only where
there are more entries than values of the tag: as many entries or fewer stay whatever their names
are. So all entries that stay are documented exactly if there are more of them than values, or the
comment names every one of them.

The main results are `Comment.isTagsOnly_substitute` and `Draft.prepare_named_iff`.
-/

namespace DocGraft.Comment

open List Text

variable {before : Option Char} {c : Char} {lead s : Text}

/-! ### Another name for an exception tag -/

theorem exists_of_exceptionTagRule {replaced : Text × Nat}
    (h : exceptionTagRule before (c :: s) = some replaced) :
    isBlank c ∧ "@exception".toList <+: s ∧ replaced.1 = " @throws ".toList := by
  dsimp only [exceptionTagRule] at h
  split at h
  · next d rest hafter =>
    split_ifs at h with hblank
    obtain rfl := Option.some.inj h
    exact ⟨(Bool.and_eq_true_iff.mp hblank).1,
      ⟨d :: rest, (after?_eq_some_iff.mp hafter).symm⟩, rfl⟩
  · cases h

theorem exceptionTagRule_of_not_isBlank (h : isBlank c = false) (before : Option Char) (s : Text) :
    exceptionTagRule before (c :: s) = none := by
  refine Option.eq_none_iff_forall_ne_some.mpr fun replaced hrule => ?_
  simp [(exists_of_exceptionTagRule hrule).1] at h

theorem exceptionTagRule_of_untagged (h : ¬ "@exception".toList <+: s) (before : Option Char)
    (c : Char) : exceptionTagRule before (c :: s) = none :=
  Option.eq_none_iff_forall_ne_some.mpr fun _ hrule => h (exists_of_exceptionTagRule hrule).2.1

/-- Another name for an exception tag does not change with which text a comment begins. -/
theorem head?_dropWhile_substituteFrom (before : Option Char) (s : Text) :
    ((substituteFrom exceptionTagRule 0 before s).dropWhile fun c => isBlank c || c = '*').head? =
      (s.dropWhile fun c => isBlank c || c = '*').head? := by
  induction s generalizing before with
  | nil => rfl
  | cons c s ih =>
    cases hrule : exceptionTagRule before (c :: s) with
    | none =>
      grind [substituteFrom_cons_of_none hrule, dropWhile_cons]
    | some replaced =>
      obtain ⟨hblank, hs, hout⟩ := exists_of_exceptionTagRule hrule
      obtain ⟨t, rfl⟩ := hs
      rw [substituteFrom, hrule]
      simp only [hout]
      rw [dropWhile_cons_of_pos (by simp [hblank])]
      rfl

/-- A text without white space stays at the beginning. -/
theorem exists_after?_substituteFrom (hlead : ∀ d ∈ lead, isBlank d = false)
    (before : Option Char) (s : Text) :
    ∃ b, after? lead (substituteFrom exceptionTagRule 0 before s) =
      (after? lead s).map (substituteFrom exceptionTagRule 0 b) := by
  induction lead generalizing before s with
  | nil => exact ⟨before, rfl⟩
  | cons d lead ih =>
    rw [forall_mem_cons] at hlead
    cases s with
    | nil => exact ⟨none, rfl⟩
    | cons c s =>
      by_cases hd : d = c
      · subst hd
        rw [substituteFrom_cons_of_none (exceptionTagRule_of_not_isBlank hlead.1 before s)]
        simpa [after?] using ih hlead.2 (some d) s
      · refine ⟨none, ?_⟩
        cases hrule : exceptionTagRule before (c :: s) with
        | none => simp [substituteFrom_cons_of_none hrule, after?, hd]
        | some replaced =>
          have hspace : d ≠ ' ' := by
            rintro rfl
            exact absurd hlead.1 (by decide)
          obtain ⟨-, -, hout⟩ := exists_of_exceptionTagRule hrule
          rw [substituteFrom, hrule]
          simp [after?, hout, hd, hspace]

theorem exists_afterOpening?_substituteFrom (before : Option Char) (s : Text) :
    ∃ b, afterOpening? (substituteFrom exceptionTagRule 0 before s) =
      (afterOpening? s).map (substituteFrom exceptionTagRule 0 b) := by
  induction s generalizing before with
  | nil => exact ⟨none, rfl⟩
  | cons c s ih =>
    cases hrule : exceptionTagRule before (c :: s) with
    | none =>
      by_cases hc : isBlank c
      · rw [substituteFrom_cons_of_none hrule]
        simpa [afterOpening?, trimStart, hc] using ih (some c)
      · have hslash : ∀ d ∈ "/**".toList, isBlank d = false := by
          simpa using (by decide : isBlank '/' = false ∧ isBlank '*' = false)
        have hopening := exists_after?_substituteFrom hslash before (c :: s)
        rw [substituteFrom_cons_of_none hrule] at hopening ⊢
        simpa [afterOpening?, trimStart, hc] using hopening
    | some replaced =>
      -- What stands behind the white space is a tag, under either name.
      obtain ⟨hblank, ⟨t, rfl⟩, hout⟩ := exists_of_exceptionTagRule hrule
      refine ⟨none, ?_⟩
      rw [substituteFrom, hrule]
      simp only [hout, afterOpening?, trimStart]
      rw [dropWhile_cons_of_pos hblank]
      rfl

/-- A comment has tags only under either name of an exception tag. -/
theorem isTagsOnly_substitute (s : Text) :
    isTagsOnly (substitute exceptionTagRule s) = isTagsOnly s := by
  obtain ⟨b, hopening⟩ := exists_afterOpening?_substituteFrom none s
  rw [isTagsOnly, isTagsOnly, substitute, hopening]
  cases afterOpening? s with
  | none => rfl
  | some rest => simp [head?_dropWhile_substituteFrom]

end DocGraft.Comment

namespace DocGraft.Draft

open List Text Comment

/-! ### Trimming entries -/

section Documented

variable {α : Type} {name : α → Text} {values : List Text} {entries : List α}

/-- Trimming the entries of a tag leaves documented ones only: the comment has no value of the tag,
there are more entries than values, or the comment names all of them. -/
def TrimsByName (name : α → Text) (values : List Text) (entries : List α) : Prop :=
  values = [] ∨ values.length < entries.length ∨
    ∀ entry ∈ entries, name entry ∈ values.map firstWord

theorem forall_mem_documented_iff :
    (∀ entry ∈ documented name values entries, name entry ∈ values.map firstWord) ↔
      TrimsByName name values entries := by
  rw [documented, TrimsByName]
  grind

/-- Documented entries are not trimmed. -/
theorem mem_documented {entry : α} (hentry : entry ∈ entries)
    (hname : name entry ∈ values.map firstWord) : entry ∈ documented name values entries := by
  rw [documented]
  grind

end Documented

/-- The draft for a comment with block tags only has no description. Its entries of `@param`,
`@throws` and `@see` are all documented in the comment, by a first word of a value of the same tag,
exactly if for each of the tags the comment has no value, has fewer values than there are entries,
or names all of them. Documented entries stay. -/
theorem prepare_named_iff {source : Text} (h : isTagsOnly source) (doc : LocalizedComment) :
    let draft := prepare source doc
    let values (tag : String) : List Text :=
      wrappedTagValues tag.toList (substitute exceptionTagRule source)
    let throws := inheritThrows (values "@throws") (doc.throws.map NamedTag.entry)
    draft.body = none ∧
      ((∀ param ∈ draft.params, param.name ∈ (values "@param").map firstWord) ∧
          (∀ entry ∈ draft.throws, firstWord entry ∈ (values "@throws").map firstWord) ∧
          (∀ entry ∈ draft.sees, firstWord entry ∈ (values "@see").map firstWord) ↔
        TrimsByName NamedTag.name (values "@param") doc.params ∧
          TrimsByName firstWord (values "@throws") throws ∧
          TrimsByName firstWord (values "@see") doc.sees) ∧
      (∀ param ∈ doc.params, param.name ∈ (values "@param").map firstWord → param ∈ draft.params) ∧
      (∀ entry ∈ throws, firstWord entry ∈ (values "@throws").map firstWord →
        entry ∈ draft.throws) ∧
      ∀ entry ∈ doc.sees, firstWord entry ∈ (values "@see").map firstWord → entry ∈ draft.sees := by
  intro draft values throws
  have hdraft : draft.body = none ∧
      draft.params = documented NamedTag.name (values "@param") doc.params ∧
      draft.throws = documented firstWord (values "@throws") throws ∧
      draft.sees = documented firstWord (values "@see") doc.sees := by
    simp only [draft, prepare, isTagsOnly_substitute, h, if_true]
    exact ⟨rfl, rfl, rfl, rfl⟩
  obtain ⟨hbody, hparams, hthrows, hsees⟩ := hdraft
  rw [hparams, hthrows, hsees, forall_mem_documented_iff, forall_mem_documented_iff,
    forall_mem_documented_iff]
  exact ⟨hbody, .rfl, fun _ => mem_documented, fun _ => mem_documented, fun _ => mem_documented⟩

/-- Two entries of `@param` for one value, and an exception whose text is inherited. -/
theorem prepare_named_iff_two_params :
    let source := "/**\n * @param b x\n * @exception E \x7b@inheritDoc\x7d\n */\n".toList
    let doc : LocalizedComment := {
      body := some "New.".toList
      params := [⟨"a".toList, "y".toList⟩, ⟨"b".toList, "z".toList⟩]
      throws := [⟨"p.E".toList, "if".toList⟩] }
    isTagsOnly source = true ∧ (prepare source doc).body = none ∧
      (prepare source doc).params = [⟨"b".toList, "z".toList⟩] ∧
      (prepare source doc).throws = ["E \x7b@inheritDoc\x7d".toList] ∧
      ∀ entry ∈ (prepare source doc).throws, firstWord entry ∈
        (wrappedTagValues "@throws".toList (substitute exceptionTagRule source)).map firstWord := by
  intro source doc
  have htags : isTagsOnly source = true := by decide +kernel
  obtain ⟨hbody, hiff, -⟩ := prepare_named_iff htags doc
  refine ⟨htags, hbody, by decide +kernel, by decide +kernel, (hiff.mpr ?_).2.1⟩
  exact ⟨.inr (.inl (by decide +kernel)), .inr (.inr (by decide +kernel)), .inl (by decide +kernel)⟩

/-- One entry of `@param` for one value stays, although the comment names another parameter. -/
theorem prepare_keeps_other_param :
    let source := "/**\n * @param a x\n */\n".toList
    let doc : LocalizedComment := { params := [⟨"b".toList, "y".toList⟩] }
    isTagsOnly source = true ∧ (prepare source doc).params = [⟨"b".toList, "y".toList⟩] ∧
      (wrappedTagValues "@param".toList (substitute exceptionTagRule source)).map firstWord =
        ["a".toList] := by
  decide +kernel

end DocGraft.Draft
