import DocGraft.Docs.CrossReference
import DocGraft.Proofs.TextLines
import DocGraft.Proofs.TextSearch

/-!
# Relative addresses

An address on a page leads up from the directory of the page and down again to another page. Its
path is resolved against that of the page, and what is left is the path of the target below the root
of the documentation, whose components are the segments of the package and the file of the class.
-/

namespace DocGraft.Text

open List

variable {names : List Text} {s : Text} {sep : Char} {c : Char}

/-! ### Chains of names -/

/-- A text with names before it, and the separator behind each of them. -/
def chain (sep : Char) (names : List Text) (s : Text) : Text :=
  names.foldr (fun w t => w ++ sep :: t) s

@[simp] theorem chain_nil (sep : Char) (s : Text) : chain sep [] s = s :=
  rfl

@[simp] theorem chain_cons (sep : Char) (w : Text) (names : List Text) (s : Text) :
    chain sep (w :: names) s = w ++ sep :: chain sep names s :=
  rfl

theorem chain_append (sep : Char) (names more : List Text) (s : Text) :
    chain sep (names ++ more) s = chain sep names (chain sep more s) :=
  foldr_append

theorem chain_append_text (sep : Char) (names : List Text) (s t : Text) :
    chain sep names (s ++ t) = chain sep names s ++ t := by
  induction names with
  | nil => rfl
  | cons w names ih => simp [ih]

theorem chain_ne_nil (sep : Char) (names : List Text) (hs : s ≠ []) : chain sep names s ≠ [] := by
  cases names with
  | nil => exact hs
  | cons w names => simp

/-- A chain begins with one of its names. -/
theorem exists_chain_eq (sep : Char) (names : List Text) (s : Text) :
    ∃ w ∈ names ++ [s], ∃ t, chain sep names s = w ++ t := by
  cases names with
  | nil => simp
  | cons w names => exact ⟨w, mem_cons_self, _, rfl⟩

theorem head?_chain (h : ∀ w ∈ names ++ [s], w ≠ [] ∧ w.head? ≠ some c) :
    (chain sep names s).head? ≠ some c := by
  obtain ⟨w, hw, t, ht⟩ := exists_chain_eq sep names s
  rw [ht, head?_append_of_ne_nil w (h w hw).1]
  exact (h w hw).2

theorem mem_chain (h : c ∈ chain sep names s) : (∃ w ∈ names, c ∈ w) ∨ c = sep ∨ c ∈ s := by
  induction names with
  | nil => exact .inr (.inr h)
  | cons w names ih =>
    rw [chain_cons, mem_append, mem_cons] at h
    rcases h with h | h | h
    · exact .inl ⟨w, mem_cons_self, h⟩
    · exact .inr (.inl h)
    · grind

theorem joinWith_concat (sep : Char) (names : List Text) (s : Text) :
    joinWith [sep] (names ++ [s]) = chain sep names s := by
  induction names with
  | nil => rfl
  | cons w names ih =>
    rw [cons_append, joinWith_cons _ _ (by simp), ih]
    simp

theorem joinWith_append_chain (sep : Char) (h : names ≠ []) (s : Text) :
    joinWith [sep] names ++ sep :: s = chain sep names s := by
  obtain ⟨init, last, rfl⟩ := eq_nil_or_concat names |>.resolve_left h
  simp [joinWith_concat, chain_append, chain_append_text]

theorem eq_nil_of_joinWith {sep : Text} {ts : List Text} (h : ∀ t ∈ ts, t ≠ [])
    (hnil : joinWith sep ts = []) : ts = [] := by
  match ts with
  | [] => rfl
  | [t] => exact absurd hnil (h t mem_cons_self)
  | t :: u :: ts =>
    rw [joinWith_cons _ _ (by simp), append_assoc, append_eq_nil_iff] at hnil
    exact absurd hnil.1 (h t mem_cons_self)

theorem fields_chain (h : ∀ w ∈ names ++ [s], sep ∉ w) :
    fields sep (chain sep names s) = names ++ [s] := by
  induction names with
  | nil => exact fields_of_notMem (h s mem_cons_self)
  | cons w names ih =>
    obtain ⟨hw, h⟩ := forall_mem_cons.mp h
    rw [chain_cons, fields_append_cons hw, ih h, cons_append]

theorem map_joinWith {sep' : Char} (h : ∀ w ∈ names, sep ∉ w) :
    (joinWith [sep] names).map (fun c => if c = sep then sep' else c) = joinWith [sep'] names := by
  induction names with
  | nil => rfl
  | cons w names ih =>
    obtain ⟨hw, h⟩ := forall_mem_cons.mp h
    have hkeep : w.map (fun c => if c = sep then sep' else c) = w :=
      (map_congr_left fun c hc => if_neg (ne_of_mem_of_not_mem hc hw)).trans w.map_id
    by_cases hnil : names = []
    · rwa [hnil]
    · simp [joinWith_cons _ _ hnil, hkeep, ih h]

end DocGraft.Text

namespace DocGraft.Path

open List Text

variable {aim below names shared : List Text} {file w : Text}

/-! ### Resolving paths -/

/-- A component that leads down. -/
def Plain (w : Text) : Prop :=
  w ≠ [] ∧ w.head? ≠ some '.' ∧ '/' ∉ w

theorem Plain.ne_dots (h : Plain w) : w ≠ ['.'] ∧ w ≠ ['.', '.'] := by
  constructor <;> rintro rfl <;> exact h.2.1 rfl

section Fold

variable {step : List Text → Text → List Text} {names : List Text}

theorem foldl_down (hdown : ∀ done w, Plain w → step done w = w :: done)
    (h : ∀ w ∈ names, Plain w) (done : List Text) :
    names.foldl step done = names.reverse ++ done := by
  induction names generalizing done with
  | nil => rfl
  | cons w names ih =>
    obtain ⟨hw, h⟩ := forall_mem_cons.mp h
    grind

theorem foldl_up (hup : ∀ w done, Plain w → step (w :: done) ['.', '.'] = done)
    (h : ∀ w ∈ names, Plain w) (done : List Text) :
    (List.replicate names.length ['.', '.']).foldl step (names ++ done) = done := by
  induction names with
  | nil => rfl
  | cons w names ih =>
    obtain ⟨hw, h⟩ := forall_mem_cons.mp h
    grind

end Fold

/-- Steps up take back the components before them. -/
theorem resolveDots_climb (above : Bool) (h : ∀ w ∈ shared ++ below ++ aim, Plain w) :
    resolveDots above (shared ++ below ++ (List.replicate below.length ['.', '.'] ++ aim)) =
      shared ++ aim := by
  rw [forall_mem_append] at h
  have hbelow : ∀ w ∈ below.reverse, Plain w := fun w hw =>
    h.1 w (mem_append_right shared (mem_reverse.mp hw))
  have hreverse : (shared ++ below).reverse ++ [] = below.reverse ++ shared.reverse := by simp
  rw [resolveDots, foldl_append, foldl_append, foldl_down ?_ h.1, foldl_down ?_ h.2]
  · rw [hreverse, ← length_reverse, foldl_up ?_ hbelow]
    · simp
    · intro w done hw
      simp [hw.ne_dots.2]
  · intro done w hw
    simp [hw.1, hw.ne_dots]
  · intro done w hw
    simp [hw.1, hw.ne_dots]

/-- The parts of a path that climbs and goes down again. -/
theorem of_mem_climb {n : Nat} (h : ∀ w ∈ names, Plain w)
    (hw : w ∈ List.replicate n ['.', '.'] ++ names) : w ≠ [] ∧ '/' ∉ w := by
  rcases mem_append.mp hw with hw | hw
  · rw [eq_of_mem_replicate hw]
    decide
  · exact ⟨(h w hw).1, (h w hw).2.2⟩

theorem head?_ne_slash {s : Text} (h : ∀ w ∈ names ++ [s], w ≠ [] ∧ '/' ∉ w) :
    (chain '/' names s).head? ≠ some '/' :=
  head?_chain fun w hw => ⟨(h w hw).1, fun hhead => (h w hw).2 (mem_of_head? hhead)⟩

/-- A path is resolved to the components that are left when its steps up have been taken. -/
theorem resolve_climb (h : ∀ w ∈ shared ++ below ++ (aim ++ [file]), Plain w) :
    resolve (chain '/' (shared ++ below ++ (List.replicate below.length ['.', '.'] ++ aim)) file) =
      chain '/' (shared ++ aim) file := by
  have hparts : ∀ w ∈ shared ++ below ++ (List.replicate below.length ['.', '.'] ++ aim) ++ [file],
      w ≠ [] ∧ '/' ∉ w := by
    rw [forall_mem_append] at h
    rw [append_assoc (shared ++ below), append_assoc _ aim, forall_mem_append]
    exact ⟨fun w hw => ⟨(h.1 w hw).1, (h.1 w hw).2.2⟩, fun w hw => of_mem_climb h.2 hw⟩
  have hroot : rootSlashes (chain '/' (shared ++ below ++
      (List.replicate below.length ['.', '.'] ++ aim)) file) = 0 := by
    have hhead := head?_ne_slash hparts
    generalize chain '/' _ file = path at hhead
    cases path with
    | nil => rfl
    | cons c path =>
      have hc : c ≠ '/' := by simpa using hhead
      simp [rootSlashes, run, hc]
  have hne := chain_ne_nil '/' (shared ++ aim) (h file (by simp)).1
  rw [resolve, hroot, fields_chain fun w hw => (hparts w hw).2, append_assoc (shared ++ below),
    append_assoc _ aim, resolveDots_climb _ h, ← append_assoc, joinWith_concat]
  simp [hne]

/-! ### Directories -/

theorem exists_joinWith_eq (hne : names ≠ []) (h : ∀ w ∈ names, Plain w) :
    ∃ a c, joinWith ['/'] names = a ++ [c] ∧ c ≠ '/' := by
  obtain ⟨init, last, rfl⟩ := eq_nil_or_concat names |>.resolve_left hne
  rw [concat_eq_append] at h ⊢
  obtain ⟨hlast, -, hslash⟩ := h last (by simp)
  obtain ⟨v, c, rfl⟩ := eq_nil_or_concat last |>.resolve_left hlast
  rw [concat_eq_append] at hslash ⊢
  refine ⟨chain '/' init v, c, by rw [joinWith_concat, chain_append_text], ?_⟩
  rintro rfl
  simp at hslash

theorem join_names (h : ∀ w ∈ names, Plain w) {path : Text} (hpath : path.head? ≠ some '/') :
    join (joinWith ['/'] names) path = chain '/' names path := by
  by_cases hne : names = []
  · subst hne
    simp [join, hpath, joinWith]
  · obtain ⟨a, c, ha, hc⟩ := exists_joinWith_eq hne h
    rw [join, if_neg hpath, if_neg, joinWith_append_chain '/' hne]
    rw [ha]
    simp [hc]

theorem join_of_getLast? {d : Text} (hd : d.getLast? ≠ some '/') (hw : '/' ∉ w) :
    join d w = if d = [] then w else d ++ '/' :: w := by
  rw [join, if_neg fun hhead => hw (mem_of_head? hhead)]
  by_cases hnil : d = []
  · rw [if_pos (.inl hnil), if_pos hnil, hnil, nil_append]
  · rw [if_neg (not_or.mpr ⟨hnil, hd⟩), if_neg hnil]

/-- The directory of a path to which a name was joined. -/
theorem directory_join {d : Text} (hd : d.getLast? ≠ some '/') (hw : '/' ∉ w) :
    directory (join d w) = d := by
  rw [join_of_getLast? hd hw]
  rcases eq_nil_or_concat d with rfl | ⟨b, c, rfl⟩
  · simp [directory, baseName, afterLast, cutLast_of_notMem hw]
  · have hc : decide (c = '/') = false := by simpa using hd
    have hhead : (b ++ [c] ++ '/' :: w).take ((b ++ [c] ++ '/' :: w).length - w.length) =
        b ++ c :: ['/'] := by
      rw [append_cons, length_append, Nat.add_sub_cancel, take_left]
      simp
    rw [concat_eq_append, if_neg (by simp), directory, baseName, afterLast, cutLast_append_cons hw]
    simp only [hhead, all_append, all_cons, hc, Bool.false_and, Bool.and_false, Bool.false_eq_true,
      if_false]
    exact trimEnd_append_cons b hc (by simp)

theorem directory_chain (h : ∀ w ∈ names, Plain w) (hfile : '/' ∉ file) :
    directory (chain '/' names file) = joinWith ['/'] names := by
  rw [← join_names h fun hhead => hfile (mem_of_head? hhead)]
  refine directory_join (fun hlast => ?_) hfile
  by_cases hne : names = []
  · simp [hne, joinWith] at hlast
  · obtain ⟨a, c, ha, hc⟩ := exists_joinWith_eq hne h
    simp [ha, hc] at hlast

end DocGraft.Path

namespace DocGraft.Markup

open Text

variable {s : Text}

/-! ### Percent codes -/

theorem percentBytesFrom_of_notMem (h : '%' ∉ s) :
    percentBytesFrom 0 s = s.map fun c => c.toNat.toUInt8 := by
  induction s with
  | nil => rfl
  | cons c s ih =>
    rw [List.mem_cons, not_or] at h
    have hnone : percentByte? (c :: s) = none := by
      grind [percentByte?.eq_def]
    rw [percentBytesFrom, hnone, ih h.2]
    rfl

/-- ASCII characters are decoded to themselves. -/
theorem decodeLossy_ascii (h : ∀ c ∈ s, c.toNat < 0x80) :
    Encoding.utf8.decodeLossy (s.map fun c => c.toNat.toUInt8) = s := by
  rw [Encoding.decodeLossy, Encoding.characters]
  induction s with
  | nil => rfl
  | cons c s ih =>
    obtain ⟨hc, h⟩ := List.forall_mem_cons.mp h
    have hstep : Encoding.utf8Step (c.toNat.toUInt8 :: s.map fun c => c.toNat.toUInt8) =
        (some c, 1) := by
      have hbyte : c.toNat.toUInt8.toNat = c.toNat := by
        rw [Nat.toUInt8, UInt8.toNat_ofNat', Nat.mod_eq_of_lt (by omega)]
      have hlt : c.toNat.toUInt8 < 0x80 := by
        rw [UInt8.lt_iff_toNat_lt, hbyte]
        exact hc
      simp [Encoding.utf8Step.eq_def, hlt, hbyte]
    rw [List.map_cons, Encoding.utf8From, hstep]
    simpa using ih h

theorem unquoteFrom_of_notMem {ascii : Text} (hascii : ∀ c ∈ ascii, c.toNat < 0x80)
    (h : '%' ∉ ascii ++ s) : unquoteFrom ascii s = ascii.reverse ++ s := by
  induction s generalizing ascii with
  | nil =>
    rw [unquoteFrom, percentBytes, percentBytesFrom_of_notMem (by simpa using h),
      decodeLossy_ascii (by simpa using hascii), List.append_nil]
  | cons c s ih =>
    have hparts : '%' ∉ ascii ∧ '%' ≠ c ∧ '%' ∉ s := by simpa using h
    rw [unquoteFrom]
    split
    · next hc =>
      grind
    · rw [percentBytes, percentBytesFrom_of_notMem (by simpa using hparts.1),
        decodeLossy_ascii (by simpa using hascii), ih (by simp) (by simpa using hparts.2.2)]
      simp

theorem unquote_of_notMem (h : '%' ∉ s) : unquote s = s :=
  unquoteFrom_of_notMem (by simp) h

end DocGraft.Markup

namespace DocGraft

open List Text Pattern

/-! ### Classes and their pages -/

/-- A name in a reference. -/
structure Identifier where
  text : Text
  ne_nil : text ≠ []
  all : ∀ c ∈ text, isJavaName c
deriving DecidableEq

namespace Identifier

variable {c : Char}

/-- The name with a given text. -/
def of (w : String) (h : (!w.toList.isEmpty && w.toList.all isJavaName) = true) : Identifier where
  text := w.toList
  ne_nil := by
    grind
  all := by
    grind

/-- Whether the name begins with an ASCII capital. -/
def isCapital (w : Identifier) : Bool :=
  w.text.head?.any fun c => 'A' ≤ c ∧ c ≤ 'Z'

theorem notMem (w : Identifier) (hc : isJavaName c = false) : c ∉ w.text :=
  fun hmem => absurd (w.all c hmem) (by simp [hc])

theorem exists_cons (w : Identifier) : ∃ c v, w.text = c :: v ∧ isJavaName c ∧
    ∀ d ∈ v, isJavaName d := by
  obtain ⟨c, v, hw⟩ := exists_cons_of_ne_nil w.ne_nil
  have hall := w.all
  grind

theorem head?_append (w : Identifier) (hc : isJavaName c = false) (s : Text) :
    (w.text ++ s).head? ≠ some c := by
  obtain ⟨d, v, hw, hd, -⟩ := w.exists_cons
  rw [hw, cons_append, head?_cons, ne_eq, Option.some.injEq]
  rintro rfl
  simp [hc] at hd

theorem ext_text {v w : Identifier} (h : v.text = w.text) : v = w := by
  cases v
  cases w
  congr

/-- The texts of names. -/
def texts (names : List Identifier) : List Text :=
  names.map text

theorem texts_append (names more : List Identifier) :
    texts (names ++ more) = texts names ++ texts more :=
  map_append

theorem length_texts (names : List Identifier) : (texts names).length = names.length :=
  length_map text

theorem notMem_of_mem_texts {names : List Identifier} {w : Text} (hw : w ∈ texts names)
    (hc : isJavaName c = false) : c ∉ w := by
  obtain ⟨v, -, rfl⟩ := mem_map.mp hw
  exact v.notMem hc

/-- A chain of names begins with one of them. -/
theorem exists_chain_texts (names : List Identifier) (w : Identifier) (s : Text) :
    ∃ v ∈ w :: names, ∃ t, chain '.' (texts names) (w.text ++ s) = v.text ++ t := by
  cases names with
  | nil => exact ⟨w, mem_cons_self, s, rfl⟩
  | cons v names => exact ⟨v, by simp, _, rfl⟩

end Identifier

open Identifier

/-- A class with its package and the classes around it. -/
structure QualifiedClass where
  package : List Identifier
  outer : List Identifier
  name : Identifier
  small : ∀ w ∈ package, w.isCapital = false
  capital : ∀ w ∈ name :: outer, w.isCapital
deriving DecidableEq

namespace QualifiedClass

variable {c : Char}

def packageText (q : QualifiedClass) : Text :=
  joinWith ['.'] (texts q.package)

def classPath (q : QualifiedClass) : Text :=
  chain '.' (texts q.outer) q.name.text

/-- The file of the page of the class. -/
def file (q : QualifiedClass) : Text :=
  q.classPath ++ ".html".toList

/-- The context of the page of the class. -/
def context (q : QualifiedClass) : PageContext where
  package := q.packageText
  classPath := q.classPath

theorem isJavaName_or_dot (q : QualifiedClass) (hc : c ∈ q.classPath) : isJavaName c ∨ c = '.' := by
  rcases mem_chain hc with ⟨w, hw, hc⟩ | rfl | hc
  · obtain ⟨v, -, rfl⟩ := mem_map.mp hw
    exact .inl (v.all c hc)
  · exact .inr rfl
  · exact .inl (q.name.all c hc)

theorem notMem_file (q : QualifiedClass) (hc : isJavaName c = false) (hdot : c ≠ '.') :
    c ∉ q.file := by
  rw [file, mem_append, not_or]
  constructor
  · intro hmem
    rcases q.isJavaName_or_dot hmem with h | h
    · simp [hc] at h
    · exact hdot h
  · change c ∉ ['.', 'h', 't', 'm', 'l']
    simp only [mem_cons, not_mem_nil, or_false]
    rintro (rfl | rfl | rfl | rfl | rfl)
    · exact hdot rfl
    all_goals exact absurd hc (by decide)

theorem plain_of_mem_texts {names : List Identifier} {w : Text} (hw : w ∈ texts names) :
    Path.Plain w := by
  obtain ⟨v, -, rfl⟩ := mem_map.mp hw
  exact ⟨v.ne_nil, by simpa using v.head?_append (c := '.') (by decide) [], v.notMem (by decide)⟩

theorem plain_file (q : QualifiedClass) : Path.Plain q.file := by
  refine ⟨by simp [file], ?_, q.notMem_file (by decide) (by decide)⟩
  rw [file, classPath, ← chain_append_text]
  obtain ⟨w, -, s, hs⟩ := exists_chain_texts q.outer q.name ".html".toList
  rw [hs]
  exact w.head?_append (by decide) s

/-- The path of the page of a class. -/
theorem path_context (q : QualifiedClass) :
    q.context.path = chain '/' (texts q.package) q.file := by
  have hcontext : q.context.path = if joinWith ['/'] (texts q.package) = [] then q.file
      else Path.join (joinWith ['/'] (texts q.package)) q.file := by
    rw [← map_joinWith fun w hw => notMem_of_mem_texts hw (c := '.') (by decide)]
    rfl
  have hfile : q.file.head? ≠ some '/' := fun hhead => q.plain_file.2.2 (mem_of_head? hhead)
  rw [hcontext, Path.join_names (fun _ => plain_of_mem_texts) hfile]
  split_ifs with hnil
  · rw [eq_nil_of_joinWith (fun _ hw => (plain_of_mem_texts hw).1) hnil, chain_nil]
  · rfl

theorem dropSteps_of_head? {s : Text} (h : s.head? ≠ some '.') : PageContext.dropSteps s = s := by
  grind [PageContext.dropSteps.eq_def]

/-- A relative address leads to the path of its target, whatever directories of the page it climbs
and goes down again. -/
theorem targetPath_relative {page target : QualifiedClass} {shared below aim : List Identifier}
    (hpage : page.package = shared ++ below) (htarget : target.package = shared ++ aim) :
    page.context.targetPath
        (chain '/' (List.replicate below.length ['.', '.'] ++ texts aim) target.file) =
      chain '/' (texts target.package) target.file := by
  have hall : ∀ w ∈ texts shared ++ texts below ++ (texts aim ++ [target.file]), Path.Plain w := by
    simp only [forall_mem_append, forall_mem_singleton]
    exact ⟨⟨fun _ => plain_of_mem_texts, fun _ => plain_of_mem_texts⟩, fun _ => plain_of_mem_texts,
      target.plain_file⟩
  have hne := chain_ne_nil '/' (List.replicate below.length ['.', '.'] ++ texts aim)
    target.plain_file.1
  have hhead : (chain '/' (List.replicate below.length ['.', '.'] ++ texts aim)
      target.file).head? ≠ some '/' := by
    rw [forall_mem_append] at hall
    exact Path.head?_ne_slash fun w hw => Path.of_mem_climb hall.2 (append_assoc .. ▸ hw)
  have hresolve := Path.resolve_climb hall
  rw [length_texts] at hresolve
  rw [PageContext.targetPath, if_neg hne, path_context, Path.directory_chain
    (fun _ => plain_of_mem_texts) (page.notMem_file (by decide) (by decide)),
    Path.join_names (fun _ => plain_of_mem_texts) hhead, ← chain_append, hpage, htarget,
    texts_append, texts_append, hresolve]
  refine dropSteps_of_head? (head?_chain fun w hw => ?_)
  have hplain := hall w (by simp only [mem_append] at hw ⊢; tauto)
  exact ⟨hplain.1, hplain.2.1⟩

end QualifiedClass

end DocGraft
