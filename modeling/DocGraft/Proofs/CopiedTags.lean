import DocGraft.Proofs.DeclarationWords
import DocGraft.Proofs.TrimmedTags

/-!
# Tags that are copied from the source

Some block tags have no place on a page, and their values are copied from the comment in the source.
In a comment whose tags stand on lines of their own, the values that are read are those that were
written, as long as no other text of the comment looks like one of the tags: what is read up to the
end of a line is found wherever the tag stands behind a space, and a value that may go on over
several lines ends before the next at-sign with a word behind it.

The main results are `TaggedComment.substitute_text`, `TaggedComment.lineTagValues_text`,
`TaggedComment.trim_wrappedTagValues_text` and `TaggedComment.prepare_copies_tags`.
-/

namespace DocGraft.Text

open List

theorem trim_dropWhile_space (s : Text) : trim (s.dropWhile (· = ' ')) = trim s := by
  have hblank : (s.dropWhile (· = ' ')).dropWhile isBlank = s.dropWhile isBlank := by
    induction s with
    | nil => rfl
    | cons c s ih =>
      by_cases hc : c = ' '
      · subst hc
        rw [dropWhile_cons_of_pos (by decide), ih, dropWhile_cons_of_pos (by decide)]
      · rw [dropWhile_cons_of_neg (by simpa using hc)]
  rw [trim, trim, trimBoth, trimBoth, hblank]

theorem trim_append_newline (s : Text) : trim (s ++ ['\n']) = trim s := by
  have hend : ∀ t : Text, trimEnd isBlank (t ++ ['\n']) = trimEnd isBlank t := by
    intro t
    rw [trimEnd, trimEnd, reverse_append, reverse_singleton, singleton_append,
      dropWhile_cons_of_pos (by decide)]
  rw [trim, trim, trimBoth, trimBoth, dropWhile_append]
  split
  · next h =>
    rw [List.isEmpty_iff.mp h, dropWhile_cons_of_pos (by decide)]
    rfl
  · exact hend _

theorem trim_append_newlines (s : Text) (k : Nat) : trim (s ++ replicate k '\n') = trim s := by
  induction k with
  | zero => rw [replicate_zero, append_nil]
  | succ k ih => rw [replicate_succ', ← append_assoc, trim_append_newline, ih]

end DocGraft.Text

namespace DocGraft

open List Text Comment

/-! ### Comments with tags -/

/-- A block tag on a line of its own. -/
structure TagLine where
  /-- The name behind the at-sign. -/
  name : Text
  /-- What stands behind the space that follows the name. -/
  value : Text
  isWord : IsWord name
  oneLine : '\n' ∉ value

namespace TagLine

def tag (line : TagLine) : Text :=
  '@' :: line.name

def text (line : TagLine) : Text :=
  line.tag ++ ' ' :: line.value

/-- The line with `@throws` for `@exception`. -/
def normalize (line : TagLine) : TagLine :=
  if line.name = "exception".toList then
    { line with name := "throws".toList, isWord := .of_all rfl }
  else line

theorem text_ne_nil (line : TagLine) : line.text ≠ [] :=
  cons_ne_nil _ _

end TagLine

/-- A documentation comment in the standard layout: a description, and tags below it. -/
structure TaggedComment where
  /-- The number of spaces before each line. -/
  indent : Nat
  description : List Text
  /-- The lines below the description; one without a tag is blank. -/
  rows : List (Option TagLine)
  lineEnd : Bool
  oneLine : ∀ text ∈ description, '\n' ∉ text

namespace TaggedComment

variable {c : Char} {comment : TaggedComment} {l n s w : Text} {line : TagLine} {ls : List Text}
  {rows : List (Option TagLine)}

/-- A line of a comment with its decoration. -/
def decorate (indent : Nat) (text : Text) : Text :=
  List.replicate indent ' ' ++ " *".toList ++ if text = [] then [] else ' ' :: text

def tags (comment : TaggedComment) : List TagLine :=
  comment.rows.reduceOption

/-- What stands on a line below the description. -/
def rowText (row : Option TagLine) : Text :=
  row.elim [] TagLine.text

def texts (comment : TaggedComment) : List Text :=
  comment.description ++ comment.rows.map rowText

/-- The line with the opening. -/
def opening (comment : TaggedComment) : Text :=
  List.replicate comment.indent ' ' ++ "/**".toList

/-- The line with the closing, and the line end behind it. -/
def closing (comment : TaggedComment) : Text :=
  List.replicate comment.indent ' ' ++ " */".toList ++ if comment.lineEnd then ['\n'] else []

/-- The comment as it stands in a source. -/
def text (comment : TaggedComment) : Text :=
  unlines (comment.opening :: comment.texts.map (decorate comment.indent)) ++ comment.closing

/-- The values of a tag, in the order of their lines. -/
def values (comment : TaggedComment) (tag : Text) : List Text :=
  (comment.tags.filter (·.tag = tag)).map TagLine.value

/-- The comment with `@throws` for `@exception`. -/
def normalize (comment : TaggedComment) : TaggedComment :=
  { comment with rows := comment.rows.map (Option.map TagLine.normalize) }

/-- The tags whose values are read up to the ends of their lines. -/
def lineTags : List Text :=
  ["@version".toList, "@serial".toList, "@serialField".toList, "@serialData".toList, "@spec".toList]

/-- Whether an at-sign with a word behind it stands here. -/
def beginsTag : Text → Bool
  | '@' :: c :: _ => isWord c
  | _ => false

/-- Whether something that looks like a tag stands behind a character other than a brace. -/
def holdsTag : Text → Bool
  | [] => false
  | c :: s => (c ≠ '{' && beginsTag s) || holdsTag s

/-- Whether `tag` stands here, and no word goes on behind it. -/
def opensTag (tag s : Text) : Bool :=
  (after? tag s).any fun rest => !rest.head?.any isWord

/-- Whether `tag` stands behind a space, and no word goes on behind it. -/
def holdsSpaced (tag : Text) : Text → Bool
  | [] => false
  | c :: s => (c = ' ' && opensTag tag s) || holdsSpaced tag s

/-- No text of the comment looks like a tag that it is not. -/
structure Unambiguous (comment : TaggedComment) : Prop where
  exception : ∀ text ∈ comment.description ++ comment.tags.map TagLine.value,
    contains "@exception".toList text = false
  author : ∀ text ∈ comment.description ++
    (comment.tags.filter (·.tag ≠ "@author".toList)).map TagLine.value,
    contains "@author".toList text = false
  authorName : ∀ line ∈ comment.tags, line.tag ≠ "@author".toList →
    startsWith "@author".toList line.tag = false
  authorValue : ∀ value ∈ comment.values "@author".toList,
    holdsTag (value.dropWhile (· = ' ')) = false
  lineTag : ∀ tag ∈ lineTags, ∀ text ∈ comment.description ++
    (comment.tags.filter (·.tag ≠ tag)).map TagLine.value, holdsSpaced tag (' ' :: text) = false

/-! ### Normalizing -/

/-- Text without an at-sign is kept. -/
theorem exists_substituteFrom_of_notMem (hw : '@' ∉ w) (hs : s.head? ≠ some '@')
    (before : Option Char) :
    ∃ b, substituteFrom exceptionTagRule 0 before (w ++ s) =
      w ++ substituteFrom exceptionTagRule 0 b s := by
  refine exists_substituteFrom_of_none (fun c v hv b => exceptionTagRule_of_untagged ?_ b c) before
  rintro ⟨t, ht⟩
  have hhead : (v ++ s).head? = some '@' := by rw [← ht]; rfl
  cases v with
  | nil => exact hs hhead
  | cons d v =>
    obtain rfl : d = '@' := by simpa using hhead
    exact hw (hv.subset (by simp))

/-- The rest of a line without `@exception` is kept. -/
theorem exists_substituteFrom_line (hl : contains "@exception".toList l = false)
    (before : Option Char) (s : Text) :
    ∃ b, substituteFrom exceptionTagRule 0 before (l ++ '\n' :: s) =
      l ++ substituteFrom exceptionTagRule 0 b ('\n' :: s) := by
  rw [contains_eq_false_iff] at hl
  refine exists_substituteFrom_of_none
    (fun c v hv b => exceptionTagRule_of_untagged (fun h => hl ?_) b c) before
  exact (prefix_of_append_cons (by decide) h).isInfix.trans
    ((suffix_cons c v).trans hv).isInfix

theorem head?_decorate (indent : Nat) (text : Text) : (decorate indent text).head? = some ' ' := by
  cases indent <;> rfl

theorem decorate_of_ne {text : Text} (h : text ≠ []) (indent : Nat) :
    decorate indent text = List.replicate indent ' ' ++ " *".toList ++ ' ' :: text := by
  rw [decorate, if_neg h]

theorem contains_decorate {text : Text} (h : contains ('@' :: w) text = false) (indent : Nat) :
    contains ('@' :: w) (decorate indent text) = false := by
  rw [contains_eq_false_iff] at h ⊢
  intro hinside
  rw [decorate] at hinside
  have hrest := infix_of_append (by simp) hinside
  split at hrest
  · exact cons_ne_nil _ _ (infix_nil.mp hrest)
  · exact h (infix_of_append (u := [' ']) (by decide) hrest)

/-- A line is normalized by itself. -/
def Normalizes (l m : Text) : Prop :=
  ∀ before s, ∃ b, substituteFrom exceptionTagRule 0 before (l ++ '\n' :: s) =
    m ++ substituteFrom exceptionTagRule 0 b ('\n' :: s)

theorem normalizes_line (h : contains "@exception".toList l = false) : Normalizes l l :=
  exists_substituteFrom_line h

theorem Normalizes.append {m : Text} (h : Normalizes l m) (hw : ∀ c ∈ w, isBlank c = false) :
    Normalizes (w ++ l) (w ++ m) := by
  intro before s
  obtain ⟨b, hb⟩ := exists_substituteFrom_append
    (fun c hc => exceptionTagRule_of_not_isBlank (hw c hc)) before (l ++ '\n' :: s)
  obtain ⟨b', hb'⟩ := h b s
  grind

theorem Normalizes.decoration {m : Text} (indent : Nat) (h : Normalizes (' ' :: l) (' ' :: m)) :
    Normalizes (List.replicate indent ' ' ++ " *".toList ++ ' ' :: l)
      (List.replicate indent ' ' ++ " *".toList ++ ' ' :: m) := by
  intro before s
  have hat : '@' ∉ List.replicate indent ' ' ++ " *".toList := by simp
  obtain ⟨b, hb⟩ :=
    exists_substituteFrom_of_notMem (s := ' ' :: l ++ '\n' :: s) hat (by simp) before
  obtain ⟨b', hb'⟩ := h b s
  grind

/-- A tag that is read with no word going on behind it is the tag of the line. -/
theorem name_eq_of_after? (hn : IsWord n) {rest : Text}
    (h : after? ('@' :: n) (line.text ++ s) = some rest)
    (hrest : ∀ c ∈ rest.head?, isWord c = false) : line.name = n := by
  rw [TagLine.text, TagLine.tag, append_assoc, cons_append, after?, if_pos rfl] at h
  exact (eq_of_after?_word hn.all line.isWord.all (ends_word (by decide) _) hrest h).1

theorem normalizes_tagLine (h : contains "@exception".toList line.value = false) (indent : Nat) :
    Normalizes (decorate indent line.text) (decorate indent line.normalize.text) := by
  rw [decorate_of_ne line.text_ne_nil, decorate_of_ne line.normalize.text_ne_nil]
  refine Normalizes.decoration indent ?_
  by_cases hname : line.name = "exception".toList
  · -- The tag is replaced together with the spaces around it.
    have htext : ' ' :: line.text = " @exception ".toList ++ line.value := by
      rw [TagLine.text, TagLine.tag, hname]
      rfl
    have hnormal : ' ' :: line.normalize.text = " @throws ".toList ++ line.value := by
      rw [TagLine.normalize, if_pos hname]
      rfl
    rw [htext, hnormal]
    intro before s
    have hrule : ∀ t, exceptionTagRule before (" @exception ".toList ++ t) =
        some (" @throws ".toList, " @exception ".toList.length) := fun t => rfl
    obtain ⟨b, hb⟩ := exists_substituteFrom_of_some (by decide) (hrule (line.value ++ '\n' :: s))
    obtain ⟨b', hb'⟩ := exists_substituteFrom_line h b s
    grind
  · have hkept : line.normalize = line := if_neg hname
    rw [hkept]
    have hvalue : Normalizes (' ' :: line.value) (' ' :: line.value) := by
      refine normalizes_line (contains_eq_false_iff.mpr fun hinside => ?_)
      exact contains_eq_false_iff.mp h (infix_of_append (u := [' ']) (by decide) hinside)
    have htag : ∀ c ∈ line.tag, isBlank c = false := by
      intro c hc
      rcases mem_cons.mp hc with rfl | hc
      · decide
      · exact isBlank_of_isWord (line.isWord.all c hc)
    intro before s
    have hnone : exceptionTagRule before (' ' :: (line.text ++ '\n' :: s)) = none := by
      dsimp only [exceptionTagRule]
      split
      · next d rest hafter =>
        refine if_neg fun hblank => hname (name_eq_of_after? (.of_all rfl) hafter ?_)
        exact ends_word (isWord_of_isBlank (Bool.and_eq_true_iff.mp hblank).2) rest
      · rfl
    obtain ⟨b, hb⟩ := hvalue.append htag (some ' ') s
    refine ⟨b, ?_⟩
    rw [cons_append, substituteFrom_cons_of_none hnone]
    exact congrArg (' ' :: ·) hb

theorem head?_unlines_append_ne (hc : c ≠ '\n') (hls : ∀ l ∈ ls, l.head? ≠ some c)
    (hs : s.head? ≠ some c) : (unlines ls ++ s).head? ≠ some c := by
  cases ls with
  | nil => exact hs
  | cons l ls =>
    have hl := hls l mem_cons_self
    rw [unlines_cons]
    cases l with
    | nil => simpa using Ne.symm hc
    | cons d l => simpa using hl

/-- Lines are normalized one by one. -/
theorem exists_substituteFrom_unlines {α : Type} {xs : List α} {f g : α → Text}
    (h : ∀ x ∈ xs, Normalizes (f x) (g x)) (hf : ∀ x ∈ xs, (f x).head? ≠ some '@')
    (hs : s.head? ≠ some '@') (before : Option Char) :
    ∃ b, substituteFrom exceptionTagRule 0 before (unlines (xs.map f) ++ s) =
      unlines (xs.map g) ++ substituteFrom exceptionTagRule 0 b s := by
  induction xs generalizing before with
  | nil => exact ⟨before, rfl⟩
  | cons x xs ih =>
    rw [forall_mem_cons] at h hf
    have hnext : (unlines (xs.map f) ++ s).head? ≠ some '@' :=
      head?_unlines_append_ne (by decide) (forall_mem_map.mpr hf.2) hs
    obtain ⟨b, hb⟩ := h.1 before (unlines (xs.map f) ++ s)
    obtain ⟨b', hb'⟩ := exists_substituteFrom_of_notMem (w := ['\n']) (by decide) hnext b
    obtain ⟨b'', hb''⟩ := ih h.2 hf.2 b'
    refine ⟨b'', ?_⟩
    rw [singleton_append] at hb'
    simp [unlines_cons, hb, hb', hb'']

/-- A row is normalized by itself. -/
theorem normalizes_row {row : Option TagLine}
    (h : ∀ line ∈ row, contains "@exception".toList line.value = false) (indent : Nat) :
    Normalizes (decorate indent (rowText row))
      (decorate indent (rowText (row.map TagLine.normalize))) := by
  cases row with
  | none => exact normalizes_line (contains_decorate rfl indent)
  | some line => exact normalizes_tagLine (h line rfl) indent

/-- The lines below the opening. -/
def below (comment : TaggedComment) : Text :=
  unlines (comment.description.map (decorate comment.indent)) ++
    (unlines (comment.rows.map fun row => decorate comment.indent (rowText row)) ++ comment.closing)

theorem text_eq (comment : TaggedComment) :
    comment.text = comment.opening ++ ['\n'] ++ comment.below := by
  rw [text, texts, below, map_append, map_map, unlines_cons, unlines_append]
  simp [Function.comp_def]

theorem at_notMem_closing (comment : TaggedComment) : '@' ∉ comment.closing := by
  unfold closing
  split <;> simp

theorem mem_tags : line ∈ comment.tags ↔ some line ∈ comment.rows :=
  reduceOption_mem_iff

/-- Normalizing a comment changes the names of its tags. -/
theorem substitute_text (h : comment.Unambiguous) :
    substitute exceptionTagRule comment.text = comment.normalize.text := by
  have hexception := forall_mem_append.mp h.exception
  have hspace : ∀ text, (decorate comment.indent text).head? ≠ some '@' := by
    simp [head?_decorate]
  have hopening : '@' ∉ comment.opening ++ ['\n'] := by simp [opening]
  have hclosing : comment.closing.head? ≠ some '@' := fun hc =>
    comment.at_notMem_closing (mem_of_head? hc)
  have hrows : (unlines (comment.rows.map fun row => decorate comment.indent (rowText row)) ++
      comment.closing).head? ≠ some '@' :=
    head?_unlines_append_ne (by decide) (forall_mem_map.mpr fun row _ => hspace _) hclosing
  have hlines : comment.below.head? ≠ some '@' :=
    head?_unlines_append_ne (by decide) (forall_mem_map.mpr fun text _ => hspace text) hrows
  obtain ⟨b, hb⟩ := exists_substituteFrom_of_notMem hopening hlines none
  have hdescription : ∀ text ∈ comment.description,
      Normalizes (decorate comment.indent text) (decorate comment.indent text) := fun text htext =>
    normalizes_line (contains_decorate (hexception.1 text htext) comment.indent)
  have hnormalize : ∀ row ∈ comment.rows, Normalizes (decorate comment.indent (rowText row))
      (decorate comment.indent (rowText (row.map TagLine.normalize))) := by
    refine fun row hrow => normalizes_row (fun line hline => ?_) comment.indent
    exact hexception.2 _ (mem_map_of_mem (mem_tags.mpr (hline ▸ hrow)))
  obtain ⟨b', hb'⟩ := exists_substituteFrom_unlines hdescription (fun text _ => hspace text) hrows b
  obtain ⟨b'', hb''⟩ := exists_substituteFrom_unlines hnormalize (fun row _ => hspace (rowText row))
    hclosing b'
  obtain ⟨_, hend⟩ :=
    exists_substituteFrom_of_notMem (s := []) comment.at_notMem_closing (by simp) b''
  rw [append_nil] at hend
  have hmap : comment.normalize.rows.map (fun row => decorate comment.indent (rowText row)) =
      comment.rows.map fun row => decorate comment.indent (rowText (row.map TagLine.normalize)) :=
    map_map
  have hbelow : comment.normalize.below =
      unlines (comment.description.map (decorate comment.indent)) ++
        (unlines (comment.normalize.rows.map fun row => decorate comment.indent (rowText row)) ++
          comment.closing) := rfl
  rw [substitute, text_eq, hb, below, hb', hb'', hend, text_eq, hbelow, hmap]
  rw [substituteFrom, append_nil]
  rfl

/-! ### Values up to the ends of their lines -/

theorem lineTagValuesFrom_skip (tag : Text) (skip : Nat) (s : Text) :
    lineTagValuesFrom tag skip s = lineTagValuesFrom tag 0 (s.drop skip) := by
  induction skip generalizing s with
  | zero => rfl
  | succ skip ih =>
    cases s with
    | nil => simp [lineTagValuesFrom]
    | cons c s => rw [lineTagValuesFrom, ih, drop_succ_cons]

theorem lineTagValuesFrom_of_none {tag : Text} (h : lineTagValue? tag (c :: s) = none) :
    lineTagValuesFrom tag 0 (c :: s) = lineTagValuesFrom tag 0 s := by
  rw [lineTagValuesFrom, h]

/-- Where a value is read, the tag stands behind spaces, and no word goes on behind it. -/
theorem exists_of_lineTagValue? {tag : Text} {found : Text × Nat}
    (h : lineTagValue? tag s = some found) :
    ∃ n t, s = List.replicate (n + 1) ' ' ++ t ∧ opensTag tag t = true := by
  unfold lineTagValue? at h
  dsimp only at h
  split_ifs at h with hlead
  obtain ⟨rest, hafter, hrest⟩ := Option.bind_eq_some_iff.mp h
  split_ifs at hrest with hend
  rw [Bool.or_eq_true, not_or, Bool.not_eq_true] at hend
  obtain ⟨n, hn⟩ := Nat.exists_eq_succ_of_ne_zero hlead
  have hspaces : s.takeWhile (· = ' ') = List.replicate (n + 1) ' ' :=
    eq_replicate_iff.mpr ⟨hn, fun c hc => by simpa using mem_takeWhile_imp hc⟩
  refine ⟨n, s.dropWhile (· = ' '), ?_, ?_⟩
  · rw [← hspaces, takeWhile_append_dropWhile]
  · rw [drop_run] at hafter
    simp [opensTag, hafter, hend.1]

theorem opensTag_iff {tag : Text} :
    opensTag tag s = true ↔ ∃ rest, s = tag ++ rest ∧ ∀ c ∈ rest.head?, isWord c = false := by
  simp [opensTag, Option.any_eq_true, Option.any_eq_false, after?_eq_some_iff]

theorem holdsSpaced_spaces {tag t : Text} (h : opensTag tag t = true) (n : Nat) :
    holdsSpaced tag (List.replicate (n + 1) ' ' ++ t) = true := by
  induction n with
  | zero => simp [holdsSpaced, h]
  | succ n ih =>
    rw [replicate_succ, cons_append, holdsSpaced, ih, Bool.or_true]

/-- What is read in a line stands in that line. -/
theorem opensTag_append_newline {tag : Text} (htag : '\n' ∉ tag)
    (h : opensTag tag (l ++ '\n' :: s) = true) : opensTag tag l = true := by
  obtain ⟨rest, hl, hrest⟩ := opensTag_iff.mp h
  obtain ⟨u, rfl⟩ := prefix_of_append_cons htag ⟨rest, hl.symm⟩
  rw [append_assoc, append_cancel_left_eq] at hl
  refine opensTag_iff.mpr ⟨u, rfl, fun c hc => hrest c ?_⟩
  rw [← hl, List.head?_append, hc]
  rfl

/-- A line in which the tag does not stand behind a space has no value. -/
theorem lineTagValuesFrom_line {tag : Text} (htag : '\n' ∉ tag) (h : holdsSpaced tag l = false)
    (s : Text) : lineTagValuesFrom tag 0 (l ++ '\n' :: s) = lineTagValuesFrom tag 0 s := by
  induction l with
  | nil =>
    refine lineTagValuesFrom_of_none (Option.eq_none_iff_forall_ne_some.mpr fun found hfound => ?_)
    obtain ⟨n, t, ht, -⟩ := exists_of_lineTagValue? hfound
    grind
  | cons c l ih =>
    have hl : holdsSpaced tag l = false := (Bool.or_eq_false_iff.mp h).2
    rw [cons_append, lineTagValuesFrom_of_none, ih hl]
    refine Option.eq_none_iff_forall_ne_some.mpr fun found hfound => ?_
    obtain ⟨n, t, ht, hopens⟩ := exists_of_lineTagValue? hfound
    -- The spaces stand in the line, and so does what follows them.
    have hspaces : List.replicate (n + 1) ' ' <+: c :: l :=
      prefix_of_append_cons (by simp) ⟨t, ht.symm⟩
    obtain ⟨u, hu⟩ := hspaces
    rw [← cons_append, ← hu, append_assoc] at ht
    rw [← append_cancel_left ht] at hopens
    have hheld := holdsSpaced_spaces (opensTag_append_newline htag hopens) n
    rw [hu, h] at hheld
    cases hheld

theorem head?_of_opensTag (h : opensTag ('@' :: n) s = true) : s.head? = some '@' := by
  obtain ⟨rest, rfl, -⟩ := opensTag_iff.mp h
  rfl

theorem lineTagValuesFrom_star {v : Text} (hv : '@' ∉ v) (n s : Text) :
    lineTagValuesFrom ('@' :: n) 0 (v ++ '*' :: s) = lineTagValuesFrom ('@' :: n) 0 s := by
  have hnone : ∀ v : Text, '@' ∉ v → lineTagValue? ('@' :: n) (v ++ '*' :: s) = none := by
    intro v hv
    refine Option.eq_none_iff_forall_ne_some.mpr fun found hfound => ?_
    obtain ⟨k, t, ht, hopens⟩ := exists_of_lineTagValue? hfound
    obtain ⟨t, rfl⟩ := head?_eq_some_iff.mp (head?_of_opensTag hopens)
    rcases append_eq_append_iff.mp ht with ⟨u, hu, hrest⟩ | ⟨u, rfl, hrest⟩
    · cases u with
      | nil => simp at hrest
      | cons d u =>
        obtain ⟨rfl, -⟩ := List.cons.inj hrest
        have hstar : '*' ∈ List.replicate (k + 1) ' ' := by simp [hu]
        grind
    · cases u with
      | nil => simp at hrest
      | cons d u =>
        obtain ⟨rfl, -⟩ := List.cons.inj hrest
        simp at hv
  induction v with
  | nil => exact lineTagValuesFrom_of_none (hnone [] hv)
  | cons c v ih =>
    have hc := hnone (c :: v) hv
    rw [cons_append] at hc ⊢
    grind [lineTagValuesFrom_of_none hc]

theorem drop_run_space (v s : Text) :
    (' ' :: (v ++ '\n' :: s)).drop (run (· = ' ') (' ' :: (v ++ '\n' :: s))) =
      v.dropWhile (· = ' ') ++ '\n' :: s := by
  simp [drop_run, dropWhile_append]

theorem lineTagValue?_tagLine (line : TagLine) (s : Text) :
    lineTagValue? line.tag (' ' :: (line.text ++ '\n' :: s)) =
      some (line.value.dropWhile (· = ' '), line.text.length + 2) := by
  set rest := ' ' :: (line.value ++ '\n' :: s) with hrest
  set value := line.value.dropWhile (· = ' ') with hvalue
  have htext : line.text ++ '\n' :: s = line.tag ++ rest := by simp [TagLine.text, hrest]
  have hlead : run (· = ' ') (' ' :: (line.tag ++ rest)) = 1 :=
    run_append (w := [' ']) (by simp) (by simp)
  have hgap : rest.drop (run (· = ' ') rest) = value ++ '\n' :: s := drop_run_space _ s
  have hread : (value ++ '\n' :: s).takeWhile (· ≠ '\n') = value :=
    takeWhile_ne_append_cons (fun hmem => line.oneLine ((dropWhile_sublist _).subset hmem)) s
  have hend : rest.drop (run (· = ' ') rest + value.length) = '\n' :: s := by
    rw [← drop_drop, hgap, drop_left]
  have hlength : run (· = ' ') rest + value.length = line.value.length + 1 := by
    have h := congrArg List.length hend
    grind
  rw [lineTagValue?, htext]
  dsimp only
  rw [hlead, if_neg (by decide), drop_one, tail_cons, after?_append]
  dsimp only [Option.bind_some]
  rw [hgap, hread, hend, if_neg, hlength]
  · simp [TagLine.text]
    omega
  · simp [hrest]
    decide

theorem lineTagValuesFrom_tagLine (line : TagLine) (indent : Nat) (s : Text) :
    lineTagValuesFrom line.tag 0 (decorate indent line.text ++ '\n' :: s) =
      line.value.dropWhile (· = ' ') :: lineTagValuesFrom line.tag 0 s := by
  have hdecorate : decorate indent line.text ++ '\n' :: s =
      (List.replicate indent ' ' ++ [' ']) ++ '*' :: (' ' :: (line.text ++ '\n' :: s)) := by
    rw [decorate_of_ne line.text_ne_nil]
    simp
  rw [hdecorate, TagLine.tag, lineTagValuesFrom_star (by simp), ← TagLine.tag, lineTagValuesFrom,
    lineTagValue?_tagLine]
  simp [lineTagValuesFrom_skip]

theorem holdsSpaced_append_of_space_notMem (hw : ' ' ∉ w) (tag s : Text) :
    holdsSpaced tag (w ++ s) = holdsSpaced tag s := by
  induction w with
  | nil => rfl
  | cons c w ih =>
    rw [mem_cons, not_or] at hw
    rw [cons_append, holdsSpaced, ih hw.2]
    simp [Ne.symm hw.1]

/-- The tags of other lines are not read. -/
theorem holdsSpaced_tagLine (hn : IsWord n) (hline : line.name ≠ n)
    (h : holdsSpaced ('@' :: n) (' ' :: line.value) = false) :
    holdsSpaced ('@' :: n) (' ' :: line.text) = false := by
  have hopens : opensTag ('@' :: n) line.text = false := by
    refine Bool.eq_false_iff.mpr fun hopens => hline ?_
    obtain ⟨rest, htext, hrest⟩ := opensTag_iff.mp hopens
    refine name_eq_of_after? (s := []) hn ?_ hrest
    rw [append_nil]
    exact after?_eq_some_iff.mpr htext
  have hspace : ' ' ∉ line.tag := by
    simp [TagLine.tag, line.isWord.notMem (c := ' ') (by decide)]
  rw [holdsSpaced, hopens, TagLine.text, holdsSpaced_append_of_space_notMem hspace, h]
  rfl

theorem holdsSpaced_append_of_at_notMem (hw : '@' ∉ w) (hs : s.head? ≠ some '@') (n : Text) :
    holdsSpaced ('@' :: n) (w ++ s) = holdsSpaced ('@' :: n) s := by
  induction w with
  | nil => rfl
  | cons c w ih =>
    rw [mem_cons, not_or] at hw
    have hopens : opensTag ('@' :: n) (w ++ s) = false := by
      refine Bool.eq_false_iff.mpr fun hopens => ?_
      have hhead := head?_of_opensTag hopens
      cases w with
      | nil => exact hs hhead
      | cons d w => exact hw.2 (by simp at hhead; simp [hhead])
    simp [holdsSpaced, ih hw.2, hopens]

theorem holdsSpaced_decorate {text : Text} (h : holdsSpaced ('@' :: n) (' ' :: text) = false)
    (indent : Nat) : holdsSpaced ('@' :: n) (decorate indent text) = false := by
  rw [decorate, holdsSpaced_append_of_at_notMem (by simp)]
  · split
    · rfl
    · exact h
  · split <;> simp

theorem lineTagValuesFrom_of_at_notMem (hs : '@' ∉ s) (n : Text) :
    lineTagValuesFrom ('@' :: n) 0 s = [] := by
  induction s with
  | nil => rfl
  | cons c s ih =>
    rw [mem_cons, not_or] at hs
    rw [lineTagValuesFrom_of_none, ih hs.2]
    refine Option.eq_none_iff_forall_ne_some.mpr fun found hfound => ?_
    obtain ⟨k, t, ht, hopens⟩ := exists_of_lineTagValue? hfound
    have hat : '@' ∈ c :: s := by
      rw [ht]
      exact mem_append_right _ (mem_of_head? (head?_of_opensTag hopens))
    exact (mem_cons.mp hat).elim hs.1 hs.2

theorem lineTagValuesFrom_lines {tag : Text} (htag : '\n' ∉ tag)
    (h : ∀ l ∈ ls, holdsSpaced tag l = false) (s : Text) :
    lineTagValuesFrom tag 0 (unlines ls ++ s) = lineTagValuesFrom tag 0 s := by
  induction ls with
  | nil => rfl
  | cons l ls ih =>
    rw [forall_mem_cons] at h
    rw [unlines_cons, append_assoc, cons_append, lineTagValuesFrom_line htag h.1, ih h.2]

theorem newline_notMem_tag (hn : IsWord n) : '\n' ∉ '@' :: n := by
  simp [hn.notMem (c := '\n') (by decide)]

theorem lineTagValuesFrom_rows (hn : IsWord n) (indent : Nat)
    (h : ∀ line ∈ rows.reduceOption, line.tag ≠ '@' :: n →
      holdsSpaced ('@' :: n) (' ' :: line.value) = false) (s : Text) :
    lineTagValuesFrom ('@' :: n) 0 (unlines (rows.map fun row => decorate indent (rowText row)) ++
        s) =
      ((rows.reduceOption.filter (·.tag = '@' :: n)).map fun line =>
        line.value.dropWhile (· = ' ')) ++ lineTagValuesFrom ('@' :: n) 0 s := by
  have hnewline := newline_notMem_tag hn
  induction rows with
  | nil => rfl
  | cons row rows ih =>
    rw [map_cons, unlines_cons, append_assoc, cons_append]
    cases row with
    | none =>
      have hblank : holdsSpaced ('@' :: n) (decorate indent []) = false :=
        holdsSpaced_decorate rfl indent
      rw [reduceOption_cons_of_none, ← ih h]
      exact lineTagValuesFrom_line hnewline hblank _
    | some line =>
      rw [reduceOption_cons_of_some] at h ⊢
      rw [forall_mem_cons] at h
      by_cases hline : line.tag = '@' :: n
      · rw [rowText, Option.elim_some, ← hline, lineTagValuesFrom_tagLine, hline, ih h.2,
          filter_cons_of_pos (by simpa using hline), map_cons, cons_append]
      · have hother := holdsSpaced_tagLine hn (fun hname => hline (by rw [TagLine.tag, hname]))
          (h.1 hline)
        rw [filter_cons_of_neg (by simpa using hline), ← ih h.2]
        exact lineTagValuesFrom_line hnewline (holdsSpaced_decorate hother indent) _

/-- Values that are read up to the ends of their lines. -/
theorem lineTagValues_text (hn : IsWord n)
    (h : ∀ text ∈ comment.description ++ (comment.tags.filter (·.tag ≠ '@' :: n)).map TagLine.value,
      holdsSpaced ('@' :: n) (' ' :: text) = false) :
    lineTagValues ('@' :: n) comment.text =
      (comment.values ('@' :: n)).map (List.dropWhile (· = ' ')) := by
  have hnewline := newline_notMem_tag hn
  have hopening : holdsSpaced ('@' :: n) comment.opening = false := by
    have hnone := holdsSpaced_append_of_at_notMem (w := comment.opening) (s := [])
      (by simp [opening])
      (by simp) n
    rwa [append_nil] at hnone
  have hdescription : ∀ l ∈ comment.description.map (decorate comment.indent),
      holdsSpaced ('@' :: n) l = false :=
    forall_mem_map.mpr fun text htext =>
      holdsSpaced_decorate (h text (mem_append_left _ htext)) comment.indent
  have htags : ∀ line ∈ comment.tags, line.tag ≠ '@' :: n →
      holdsSpaced ('@' :: n) (' ' :: line.value) = false := fun line hline hne =>
    h line.value (mem_append_right _ (mem_map_of_mem
      (mem_filter.mpr ⟨hline, by simpa using hne⟩)))
  simp [lineTagValues, text_eq, lineTagValuesFrom_line hnewline hopening, below,
    lineTagValuesFrom_lines hnewline hdescription, lineTagValuesFrom_rows hn comment.indent htags,
    lineTagValuesFrom_of_at_notMem comment.at_notMem_closing, values, tags]

/-! ### Values that may go on over several lines -/

theorem tagValuesFrom_skip (tag : Text) (skip : Nat) (s : Text) :
    tagValuesFrom tag skip s = tagValuesFrom tag 0 (s.drop skip) := by
  induction skip generalizing s with
  | zero => rfl
  | succ skip ih =>
    cases s with
    | nil => simp [tagValuesFrom]
    | cons c s => rw [tagValuesFrom, ih, drop_succ_cons]

theorem tagValuesFrom_of_untagged {tag : Text} (h : ¬ tag <+: c :: s) :
    tagValuesFrom tag 0 (c :: s) = tagValuesFrom tag 0 s := by
  have hafter : after? tag (c :: s) = none := by
    rw [← Option.not_isSome_iff_eq_none]
    exact fun hsome => h (startsWith_iff.mp hsome)
  rw [tagValuesFrom, hafter]
  rfl

theorem tagValuesFrom_line {tag : Text} (htag : '\n' ∉ tag) (hne : tag ≠ [])
    (h : contains tag l = false) (s : Text) :
    tagValuesFrom tag 0 (l ++ '\n' :: s) = tagValuesFrom tag 0 s := by
  rw [contains_eq_false_iff] at h
  induction l with
  | nil =>
    refine tagValuesFrom_of_untagged fun hbegins => ?_
    exact hne (prefix_nil.mp (prefix_of_append_cons (l := []) htag hbegins))
  | cons c l ih =>
    rw [cons_append, tagValuesFrom_of_untagged, ih fun hl => h (hl.trans (suffix_cons c l).isInfix)]
    exact fun hbegins => h (prefix_of_append_cons (l := c :: l) htag hbegins).isInfix

theorem tagValuesFrom_lines {tag : Text} (htag : '\n' ∉ tag) (hne : tag ≠ [])
    (h : ∀ l ∈ ls, contains tag l = false) (s : Text) :
    tagValuesFrom tag 0 (unlines ls ++ s) = tagValuesFrom tag 0 s := by
  induction ls with
  | nil => rfl
  | cons l ls ih =>
    rw [forall_mem_cons] at h
    rw [unlines_cons, append_assoc, cons_append, tagValuesFrom_line htag hne h.1, ih h.2]

theorem tagValuesFrom_of_at_notMem (hs : '@' ∉ s) (n : Text) :
    tagValuesFrom ('@' :: n) 0 s = [] := by
  induction s with
  | nil => rfl
  | cons c s ih =>
    grind [tagValuesFrom_of_untagged]

/-- What may follow the line of a value: another tag or the slash of the closing, and blank lines
before it. -/
inductive EndsValue : Text → Prop where
  | tag {s : Text} (h : beginsTag s = true) : EndsValue s
  | closing {e : Text} (h : allBlank e = true) : EndsValue ('/' :: e)
  | blank {s : Text} (h : EndsValue s) : EndsValue ('\n' :: s)

theorem EndsValue.not_allBlank (h : EndsValue s) (w : Text) : allBlank (w ++ s) = false := by
  rw [allBlank, all_append, Bool.and_eq_false_iff]
  refine .inr ?_
  induction h with
  | tag h =>
    unfold beginsTag at h
    split at h
    · rfl
    · cases h
  | closing => rfl
  | blank h ih => rw [all_cons, ih, Bool.and_false]

theorem valueEndsAt_eq (c : Char) (s : Text) :
    valueEndsAt (c :: s) = ((c ≠ '{' && beginsTag s) || (c = '/' && allBlank s)) := by
  unfold valueEndsAt beginsTag
  split <;> simp_all

theorem beginsTag_of_ne (h : c ≠ '@') (s : Text) : beginsTag (c :: s) = false := by
  unfold beginsTag
  split <;> simp_all

theorem beginsTag_append_newline (v s : Text) : beginsTag (v ++ '\n' :: s) = beginsTag v := by
  match v with
  | [] => rfl
  | c :: v =>
    by_cases hc : c = '@'
    · subst hc
      match v with
      | [] =>
        change isWord '\n' = false
        decide
      | d :: v => rfl
    · simp [beginsTag_of_ne hc]

/-- Behind its line, a value goes on over line ends only. -/
theorem EndsValue.exists_valueUpToEnd? (h : EndsValue s) :
    ∃ k rest, '\n' :: s = List.replicate k '\n' ++ rest ∧
      valueUpToEnd? ('\n' :: s) = some (List.replicate k '\n') := by
  induction h with
  | @tag s h => exact ⟨0, '\n' :: s, rfl, by simp [valueUpToEnd?, valueEndsAt_eq, h]⟩
  | @closing e h =>
    have hslash : valueEndsAt ('/' :: e) = true := by
      rw [valueEndsAt_eq, h]
      simp
    refine ⟨1, '/' :: e, rfl, ?_⟩
    simp [valueUpToEnd?, valueEndsAt_eq '\n', beginsTag_of_ne (c := '/') (by decide), hslash]
  | @blank s h ih =>
    obtain ⟨k, rest, hsplit, hread⟩ := ih
    refine ⟨k + 1, rest, by rw [hsplit]; rfl, ?_⟩
    rw [valueUpToEnd?, valueEndsAt_eq, beginsTag_of_ne (by decide), hread]
    rfl

/-- A value that holds no tags ends behind its line. -/
theorem valueUpToEnd?_append {value : Text} (hvalue : holdsTag value = false) (hs : EndsValue s) :
    ∃ k rest, '\n' :: s = List.replicate k '\n' ++ rest ∧
      valueUpToEnd? (value ++ '\n' :: s) = some (value ++ List.replicate k '\n') := by
  induction value with
  | nil => exact hs.exists_valueUpToEnd?
  | cons c v ih =>
    rw [holdsTag, Bool.or_eq_false_iff] at hvalue
    have hend : valueEndsAt (c :: (v ++ '\n' :: s)) = false := by
      have hblank := hs.not_allBlank (v ++ ['\n'])
      rw [append_assoc, singleton_append] at hblank
      rw [valueEndsAt_eq, beginsTag_append_newline, hvalue.1, hblank, Bool.and_false]
      rfl
    obtain ⟨k, rest, hsplit, hread⟩ := ih hvalue.2
    refine ⟨k, rest, hsplit, ?_⟩
    rw [cons_append, valueUpToEnd?, hend, if_neg (by decide), hread]
    rfl

/-- The value of a line with the tag, and what is read behind it. -/
theorem exists_tagValuesFrom_tagLine (line : TagLine)
    (hvalue : holdsTag (line.value.dropWhile (· = ' ')) = false) (hs : EndsValue s) :
    ∃ value, tagValuesFrom line.tag 0 (line.text ++ '\n' :: s) =
      value :: tagValuesFrom line.tag 0 s ∧ trim value = trim line.value := by
  set rest := ' ' :: (line.value ++ '\n' :: s) with hrest
  set value := line.value.dropWhile (· = ' ') with hdrop
  have htext : line.text ++ '\n' :: s = line.tag ++ rest := by simp [TagLine.text, hrest]
  have hgap : rest.drop (run (· = ' ') rest) = value ++ '\n' :: s := drop_run_space _ s
  obtain ⟨k, behind, hbehind, hupTo⟩ := valueUpToEnd?_append hvalue hs
  have hfound : tagValue? rest (run (· = ' ') rest) =
      some (run (· = ' ') rest, value ++ List.replicate k '\n') := by
    obtain ⟨m, hm⟩ : ∃ m, run (· = ' ') rest = m + 1 :=
      ⟨run (· = ' ') (line.value ++ '\n' :: s), by simp [run, hrest]⟩
    rw [hm, tagValue?, ← hm, hgap, hupTo]
    rfl
  have hnewline : '\n' ∉ line.tag := by
    simp [TagLine.tag, line.isWord.notMem (c := '\n') (by decide)]
  have hskip : ∀ k, tagValuesFrom line.tag 0 (List.replicate k '\n' ++ behind) =
      tagValuesFrom line.tag 0 behind := by
    intro k
    induction k with
    | zero => rfl
    | succ k ih => exact (tagValuesFrom_line (l := []) hnewline (cons_ne_nil _ _) rfl _).trans ih
  refine ⟨value ++ List.replicate k '\n', ?_, ?_⟩
  · rw [htext, TagLine.tag, cons_append, tagValuesFrom, ← cons_append, after?_append]
    dsimp only [Option.bind_some]
    rw [hfound]
    dsimp only
    rw [tagValuesFrom_skip, length_cons, ← TagLine.tag]
    have hdropped : ∀ k, (line.name ++ rest).drop (line.name.length + 1 +
        run (· = ' ') rest + k - 1) = (value ++ '\n' :: s).drop k := by
      intro k
      have hskip : line.name.length + 1 + run (· = ' ') rest + k - 1 =
          line.name.length + (run (· = ' ') rest + k) := by omega
      rw [hskip, ← drop_drop, drop_left, ← hgap, drop_drop]
    rw [hdropped, hbehind, ← append_assoc, drop_left, ← hskip k, ← hbehind]
    exact congrArg _ (tagValuesFrom_line (l := []) hnewline (cons_ne_nil _ _) rfl s)
  · rw [trim_append_newlines, hdrop, trim_dropWhile_space]

theorem endsValue_rows (rows : List (Option TagLine)) {e : Text} (he : allBlank e = true) :
    EndsValue (unlines (rows.map rowText) ++ '/' :: e) := by
  induction rows with
  | nil => exact .closing he
  | cons row rows ih =>
    cases row with
    | none => exact .blank ih
    | some line =>
      obtain ⟨c, v, hname, hc⟩ := line.isWord.exists_cons
      refine .tag ?_
      rw [map_cons, unlines_cons, rowText, Option.elim_some, TagLine.text, TagLine.tag, hname]
      exact hc

theorem trim_tagValuesFrom_rows (hn : IsWord n)
    (hother : ∀ line ∈ rows.reduceOption, line.tag ≠ '@' :: n →
      contains ('@' :: n) line.text = false)
    (hvalue : ∀ line ∈ rows.reduceOption, line.tag = '@' :: n →
      holdsTag (line.value.dropWhile (· = ' ')) = false)
    {e : Text} (he : allBlank e = true) :
    (tagValuesFrom ('@' :: n) 0 (unlines (rows.map rowText) ++ '/' :: e)).map trim =
      (rows.reduceOption.filter (·.tag = '@' :: n)).map fun line => trim line.value := by
  have hnewline := newline_notMem_tag hn
  induction rows with
  | nil =>
    have hat : '@' ∉ '/' :: e := by
      intro hmem
      have hblank := all_eq_true.mp he '@' ((mem_cons.mp hmem).resolve_left (by decide))
      exact absurd hblank (by decide)
    exact congrArg (List.map trim) (tagValuesFrom_of_at_notMem hat n)
  | cons row rows ih =>
    rw [map_cons, unlines_cons, append_assoc, cons_append]
    cases row with
    | none =>
      rw [reduceOption_cons_of_none, ← ih hother hvalue]
      exact congrArg (List.map trim)
        (tagValuesFrom_line (l := []) hnewline (cons_ne_nil _ _) rfl _)
    | some line =>
      rw [reduceOption_cons_of_some] at hother hvalue ⊢
      rw [forall_mem_cons] at hother hvalue
      rw [rowText, Option.elim_some]
      by_cases hline : line.tag = '@' :: n
      · obtain ⟨value, hread, htrim⟩ :=
          exists_tagValuesFrom_tagLine line (hvalue.1 hline) (endsValue_rows rows he)
        rw [hline] at hread
        rw [hread, map_cons, htrim, ih hother.2 hvalue.2,
          filter_cons_of_pos (by simpa using hline), map_cons]
      · rw [tagValuesFrom_line hnewline (cons_ne_nil _ _) (hother.1 hline), ih hother.2 hvalue.2,
          filter_cons_of_neg (by simpa using hline)]

/-! ### Undecorating -/

theorem mapLines_unlines_append (f : Text → Text) (hls : ∀ l ∈ ls, '\n' ∉ l) (s : Text) :
    mapLines f (unlines ls ++ s) = unlines (ls.map f) ++ mapLines f s := by
  rw [mapLines, fields_unlines_append hls, map_append]
  induction ls with
  | nil => rfl
  | cons l ls ih =>
    rw [map_cons, cons_append, joinWith_cons _ _ (by simp [fields_ne_nil]),
      ih fun m hm => hls m (mem_cons_of_mem l hm), unlines_cons]
    simp

theorem dropWhile_space_replicate (n : Nat) (s : Text) :
    (List.replicate n ' ' ++ s).dropWhile (· = ' ') = s.dropWhile (· = ' ') :=
  dropWhile_append_of_pos fun c hc => by simpa using eq_of_mem_replicate hc

theorem undecorateLine_star (indent : Nat) (s : Text) :
    undecorateLine (List.replicate indent ' ' ++ " *".toList ++ s) = s.dropWhile (· = ' ') := by
  have hdrop : (List.replicate indent ' ' ++ " *".toList ++ s).dropWhile (· = ' ') = '*' :: s := by
    rw [append_assoc, dropWhile_space_replicate]
    rfl
  rw [undecorateLine, hdrop]
  rfl

theorem undecorateLine_decorate (indent : Nat) (text : Text) :
    undecorateLine (decorate indent text) = text.dropWhile (· = ' ') := by
  rw [decorate, undecorateLine_star]
  split
  · next h => rw [h]
  · exact dropWhile_cons_of_pos (by simp)

theorem undecorateLine_opening (comment : TaggedComment) :
    undecorateLine comment.opening = comment.opening := by
  have hdrop : comment.opening.dropWhile (· = ' ') = "/**".toList := by
    rw [opening, dropWhile_space_replicate]
    rfl
  rw [undecorateLine, hdrop]
  rfl

theorem exists_mapLines_closing (comment : TaggedComment) :
    ∃ e, allBlank e = true ∧ mapLines undecorateLine comment.closing = '/' :: e := by
  have hslash : undecorateLine (List.replicate comment.indent ' ' ++ " */".toList) = ['/'] := by
    have hstar := undecorateLine_star comment.indent ['/']
    rw [append_assoc] at hstar
    exact hstar
  have hnewline : '\n' ∉ List.replicate comment.indent ' ' ++ " */".toList := by simp
  unfold closing
  split
  · refine ⟨['\n'], by decide, ?_⟩
    have hlines := mapLines_unlines undecorateLine rfl (forall_mem_singleton.mpr hnewline)
    rw [map_singleton, hslash] at hlines
    simpa [unlines] using hlines
  · refine ⟨[], rfl, ?_⟩
    rw [append_nil, mapLines, fields_of_notMem hnewline, map_singleton, hslash]
    rfl

theorem newline_notMem_decorate {text : Text} (h : '\n' ∉ text) (indent : Nat) :
    '\n' ∉ decorate indent text := by
  unfold decorate
  split <;> simp [h]

theorem newline_notMem_text (line : TagLine) : '\n' ∉ line.text := by
  simp [TagLine.text, TagLine.tag, line.isWord.notMem (c := '\n') (by decide), line.oneLine]

/-- The lines without their decoration. -/
theorem exists_undecorate_text (comment : TaggedComment) :
    ∃ e, allBlank e = true ∧ undecorate comment.text =
      unlines (comment.opening :: comment.description.map (List.dropWhile (· = ' '))) ++
        (unlines (comment.rows.map rowText) ++ '/' :: e) := by
  obtain ⟨e, he, hclosing⟩ := comment.exists_mapLines_closing
  refine ⟨e, he, ?_⟩
  have hlines : ∀ l ∈ comment.opening :: comment.texts.map (decorate comment.indent), '\n' ∉ l := by
    refine forall_mem_cons.mpr ⟨by simp [opening], forall_mem_map.mpr fun text htext => ?_⟩
    refine newline_notMem_decorate ?_ comment.indent
    rcases mem_append.mp htext with htext | htext
    · exact comment.oneLine text htext
    · obtain ⟨row, -, rfl⟩ := mem_map.mp htext
      cases row with
      | none => exact not_mem_nil
      | some line => exact newline_notMem_text line
  have hrows : (comment.rows.map rowText).map (List.dropWhile (· = ' ')) =
      comment.rows.map rowText := by
    rw [map_map]
    refine map_congr_left fun row _ => ?_
    cases row <;> rfl
  rw [undecorate, text, mapLines_unlines_append undecorateLine hlines, hclosing, map_cons,
    undecorateLine_opening, map_map]
  have hmap : comment.texts.map (undecorateLine ∘ decorate comment.indent) =
      comment.description.map (List.dropWhile (· = ' ')) ++ comment.rows.map rowText := by
    rw [← hrows, ← map_append]
    exact map_congr_left fun text _ => undecorateLine_decorate comment.indent text
  rw [hmap, ← cons_append, unlines_append, append_assoc]

/-- A comment that does not hold a tag has no values of it. -/
theorem values_eq_nil {tag : Text} (h : contains tag comment.text = false) :
    comment.values tag = [] := by
  rw [values, map_eq_nil_iff, filter_eq_nil_iff]
  intro line hline htag
  rw [contains_eq_false_iff] at h
  refine h ?_
  have hbegins : tag <+: line.text := ⟨' ' :: line.value, by rw [← of_decide_eq_true htag]; rfl⟩
  have hdecorate : line.text <:+: decorate comment.indent line.text := by
    rw [decorate_of_ne line.text_ne_nil]
    exact ((suffix_cons _ _).trans (suffix_append _ _)).isInfix
  have hmem : decorate comment.indent line.text ∈ comment.texts.map (decorate comment.indent) :=
    mem_map_of_mem (mem_append_right _ (mem_map.mpr ⟨some line, mem_tags.mp hline, rfl⟩))
  obtain ⟨before, after, hsplit⟩ := append_of_mem (mem_cons_of_mem comment.opening hmem)
  refine hbegins.isInfix.trans (hdecorate.trans ?_)
  rw [text, hsplit, unlines_append, unlines_cons]
  exact ⟨unlines before, '\n' :: unlines after ++ comment.closing, by simp⟩

/-- A line of another tag does not hold the tag, if neither its tag nor its value does. -/
theorem contains_tagLine (hn : IsWord n) (htag : startsWith ('@' :: n) line.tag = false)
    (hvalue : contains ('@' :: n) line.value = false) : contains ('@' :: n) line.text = false := by
  rw [contains_eq_false_iff] at hvalue ⊢
  intro hinside
  have hspace : ' ' ∉ '@' :: n := by simp [hn.notMem (c := ' ') (by decide)]
  have hat : '@' ∉ line.name ++ [' '] := by simp [line.isWord.notMem (c := '@') (by decide)]
  rcases infix_cons_iff.mp hinside with hbegins | hinside
  · have hstarts := startsWith_iff.mpr (prefix_of_append_cons (l := line.tag) hspace hbegins)
    rw [htag] at hstarts
    cases hstarts
  · refine hvalue (infix_of_append hat ?_)
    rwa [append_assoc, singleton_append]

/-- Values that may go on over several lines. -/
theorem trim_wrappedTagValues_text (hn : IsWord n)
    (hother : ∀ text ∈ comment.description ++ (comment.tags.filter (·.tag ≠ '@' :: n)).map
      TagLine.value, contains ('@' :: n) text = false)
    (hname : ∀ line ∈ comment.tags, line.tag ≠ '@' :: n → startsWith ('@' :: n) line.tag = false)
    (hvalue : ∀ value ∈ comment.values ('@' :: n), holdsTag (value.dropWhile (· = ' ')) = false) :
    (wrappedTagValues ('@' :: n) comment.text).map trim =
      (comment.values ('@' :: n)).map trim := by
  have hnewline := newline_notMem_tag hn
  have hlines : ∀ l ∈ comment.opening :: comment.description.map (List.dropWhile (· = ' ')),
      contains ('@' :: n) l = false := by
    refine forall_mem_cons.mpr ⟨?_, forall_mem_map.mpr fun text htext => ?_⟩
    · rw [contains_eq_false_iff]
      intro hinside
      have hat : '@' ∈ comment.opening := hinside.subset mem_cons_self
      simp [opening] at hat
    · have hnot := hother text (mem_append_left _ htext)
      rw [contains_eq_false_iff] at hnot ⊢
      exact fun hinside => hnot (hinside.trans (dropWhile_suffix _).isInfix)
  have htags : ∀ line ∈ comment.tags, line.tag ≠ '@' :: n →
      contains ('@' :: n) line.text = false := fun line hline hne =>
    contains_tagLine hn (hname line hline hne) (hother line.value (mem_append_right _
      (mem_map_of_mem (mem_filter.mpr ⟨hline, by simpa using hne⟩))))
  have hvalues : ∀ line ∈ comment.tags, line.tag = '@' :: n →
      holdsTag (line.value.dropWhile (· = ' ')) = false := fun line hline htag =>
    hvalue line.value (mem_map_of_mem (mem_filter.mpr ⟨hline, by simpa using htag⟩))
  obtain ⟨e, he, hundecorate⟩ := comment.exists_undecorate_text
  have hread := trim_tagValuesFrom_rows hn htags hvalues he
  rw [wrappedTagValues]
  split
  · rw [hundecorate, tagValuesFrom_lines hnewline (cons_ne_nil _ _) hlines, hread, values, map_map]
    rfl
  · next hnone =>
    rw [values_eq_nil (by simpa using hnone)]

/-! ### The values that are copied -/

theorem value_normalize (line : TagLine) : line.normalize.value = line.value := by
  unfold TagLine.normalize
  split <;> rfl

/-- Normalizing keeps what does not tell `@exception` from `@throws`. -/
theorem apply_tag_normalize {p : Text → Bool} (hp : p "@throws".toList = p "@exception".toList)
    (line : TagLine) : p line.normalize.tag = p line.tag := by
  unfold TagLine.normalize
  split
  · next hname =>
    rw [TagLine.tag, TagLine.tag, hname]
    exact hp
  · rfl

theorem tags_normalize (comment : TaggedComment) :
    comment.normalize.tags = comment.tags.map TagLine.normalize :=
  reduceOption_map

theorem map_value_filter_normalize {p : Text → Bool}
    (hp : p "@throws".toList = p "@exception".toList) (comment : TaggedComment) :
    (comment.normalize.tags.filter fun line => p line.tag).map TagLine.value =
      (comment.tags.filter fun line => p line.tag).map TagLine.value := by
  have hvalue : TagLine.value ∘ TagLine.normalize = TagLine.value := funext value_normalize
  have hfilter : (fun line : TagLine => p line.tag) ∘ TagLine.normalize = fun line => p line.tag :=
    funext (apply_tag_normalize hp)
  rw [tags_normalize, filter_map, map_map, hvalue, hfilter]

/-- The values of a tag that is read up to the end of its line. -/
theorem Unambiguous.trim_lineTagValues (h : comment.Unambiguous) (hn : IsWord n)
    (htag : '@' :: n ∈ lineTags) :
    (lineTagValues ('@' :: n) (substitute exceptionTagRule comment.text)).map trim =
      (comment.values ('@' :: n)).map trim := by
  have hthrows : ∀ tag ∈ lineTags, tag ≠ "@throws".toList ∧ tag ≠ "@exception".toList := by decide
  have hne := hthrows _ htag
  have hvalues : comment.normalize.values ('@' :: n) = comment.values ('@' :: n) :=
    map_value_filter_normalize (p := fun tag => tag = '@' :: n)
      (by rw [decide_eq_false (Ne.symm hne.1), decide_eq_false (Ne.symm hne.2)]) comment
  have hother := h.lineTag _ htag
  rw [← map_value_filter_normalize (p := fun tag => tag ≠ '@' :: n)
    (by rw [decide_eq_true (Ne.symm hne.1), decide_eq_true (Ne.symm hne.2)]) comment]
    at hother
  rw [substitute_text h, ← hvalues, lineTagValues_text hn hother, map_map]
  exact map_congr_left fun value _ => trim_dropWhile_space value

theorem Unambiguous.trim_authors (h : comment.Unambiguous) :
    (wrappedTagValues "@author".toList (substitute exceptionTagRule comment.text)).map trim =
      (comment.values "@author".toList).map trim := by
  have hvalues : comment.normalize.values "@author".toList = comment.values "@author".toList :=
    map_value_filter_normalize (p := fun tag => tag = "@author".toList) (by decide) comment
  have hother := h.author
  rw [← map_value_filter_normalize (p := fun tag => tag ≠ "@author".toList) (by decide) comment]
    at hother
  have hname : ∀ line ∈ comment.normalize.tags, line.tag ≠ "@author".toList →
      startsWith "@author".toList line.tag = false := by
    rw [tags_normalize]
    refine forall_mem_map.mpr fun line hline hne => ?_
    rw [apply_tag_normalize (p := startsWith "@author".toList) (by decide)]
    refine h.authorName line hline fun htag => hne ?_
    have hsame := apply_tag_normalize (p := fun tag => tag = "@author".toList) (by decide) line
    exact of_decide_eq_true (hsame.trans (decide_eq_true htag))
  have hvalue := h.authorValue
  rw [← hvalues] at hvalue
  rw [substitute_text h, ← hvalues]
  exact trim_wrappedTagValues_text (n := "author".toList) (.of_all rfl) hother hname hvalue

/-- The values of the tags that are copied are those of their lines, up to white space around
them, if no other text of the comment looks like one of the tags. -/
theorem prepare_copies_tags {comment : TaggedComment} (h : comment.Unambiguous)
    (doc : LocalizedComment) :
    let draft := Draft.prepare comment.text doc
    draft.authors.map trim = (comment.values "@author".toList).map trim ∧
      draft.versions.map trim = (comment.values "@version".toList).map trim ∧
      draft.serials.map trim = (comment.values "@serial".toList).map trim ∧
      draft.serialFields.map trim = (comment.values "@serialField".toList).map trim ∧
      draft.serialDatas.map trim = (comment.values "@serialData".toList).map trim ∧
      draft.specs.map trim = (comment.values "@spec".toList).map trim := by
  dsimp only [Draft.prepare]
  split
  all_goals
    exact ⟨h.trim_authors, h.trim_lineTagValues (n := "version".toList) (.of_all rfl) (by decide),
      h.trim_lineTagValues (n := "serial".toList) (.of_all rfl) (by decide),
      h.trim_lineTagValues (n := "serialField".toList) (.of_all rfl) (by decide),
      h.trim_lineTagValues (n := "serialData".toList) (.of_all rfl) (by decide),
      h.trim_lineTagValues (n := "spec".toList) (.of_all rfl) (by decide)⟩

/-- Two authors, one of them with a reference, with a blank line and a version between them. -/
private def copiedComment : TaggedComment where
  indent := 2
  description := ["The class.".toList, []]
  rows := [
    some ⟨"author".toList, " John \x7b@link Doe\x7d".toList, .of_all rfl, by decide⟩, none,
    some ⟨"version".toList, "1.2 @ home".toList, .of_all rfl, by decide⟩,
    some ⟨"exception".toList, "E if it fails".toList, .of_all rfl, by decide⟩,
    some ⟨"serialField".toList, "x int".toList, .of_all rfl, by decide⟩,
    some ⟨"author".toList, "Jane".toList, .of_all rfl, by decide⟩]
  lineEnd := true
  oneLine := by decide

theorem prepare_copies_tags_two_authors :
    copiedComment.text =
        ("  /**\n   * The class.\n   *\n   * @author  John \x7b@link Doe\x7d\n".toList
          ++ "   *\n   * @version 1.2 @ home\n   * @exception E if it fails\n".toList
          ++ "   * @serialField x int\n   * @author Jane\n   */\n".toList) ∧
      copiedComment.Unambiguous ∧
      (Draft.prepare copiedComment.text {}).authors.map trim =
        ["John \x7b@link Doe\x7d".toList, "Jane".toList] ∧
      (Draft.prepare copiedComment.text {}).versions.map trim = ["1.2 @ home".toList] := by
  have hunambiguous : copiedComment.Unambiguous :=
    ⟨by decide +kernel, by decide +kernel, by decide +kernel, by decide +kernel, by decide +kernel⟩
  have hcopied := prepare_copies_tags hunambiguous {}
  refine ⟨by decide +kernel, hunambiguous, hcopied.1.trans ?_, hcopied.2.1.trans ?_⟩
  · decide +kernel
  · decide +kernel

/-- A value with an at-sign between two words is cut before it. -/
private def mailComment : TaggedComment where
  indent := 0
  description := ["The class.".toList]
  rows := [some ⟨"author".toList, "John <john@example.com>".toList, .of_all rfl, by decide⟩]
  lineEnd := true
  oneLine := by decide

theorem prepare_cuts_author_mail :
    mailComment.text = "/**\n * The class.\n * @author John <john@example.com>\n */\n".toList ∧
      mailComment.values "@author".toList = ["John <john@example.com>".toList] ∧
      (Draft.prepare mailComment.text {}).authors = ["John <joh".toList] := by
  decide +kernel

end TaggedComment

end DocGraft
