import DocGraft.Proofs.EngineHistory
import DocGraft.Proofs.RelativeAddresses
import DocGraft.Standard.Platform

/-!
# Libraries in memory and in files

A library in memory finds the pages of the inner classes of a class by the names of the classes and
puts them in the order of these names. A library in files finds the pages in the directory of the
package by their file names and puts them in the order of those. Both find the same pages, whatever
pages there are. The names of files end with `.html`, though, and so their order is another one if
the name of one inner class goes on where that of another ends, with something that comes before
this ending: the page of `A.B.C` stands before that of `A.B`.

The main results are `Library.Stored.fileFragments_eq` and `Library.fileFragments_eq_iff`.
-/

namespace DocGraft

open List Text

/-! ### The order of texts -/

namespace FileTree

variable {a b : Text}

theorem textLe_iff : textLe a b = true ↔ a.map Char.toNat ≤ b.map Char.toNat := by
  simp [textLe]

theorem textLe_trans (a b c : Text) (hab : textLe a b) (hbc : textLe b c) : textLe a c :=
  textLe_iff.mpr (le_trans (textLe_iff.mp hab) (textLe_iff.mp hbc))

theorem textLe_total (a b : Text) : textLe a b || textLe b a := by
  rw [Bool.or_eq_true, textLe_iff, textLe_iff]
  exact le_total _ _

theorem textLe_antisymm (hab : textLe a b) (hba : textLe b a) : a = b :=
  map_injective_iff.mpr (fun _ _ h => Char.toNat_inj.mp h)
    (le_antisymm (textLe_iff.mp hab) (textLe_iff.mp hba))

theorem textLe_cons {c d : Char} : textLe (c :: a) (d :: b) = true ↔
    c.toNat < d.toNat ∨ c = d ∧ textLe a b = true := by
  simp only [textLe, map_cons, Bool.not_eq_true', decide_eq_false_iff_not, cons_lt_cons_iff,
    ← Char.toNat_inj]
  grind

theorem textLe_append_left (a b c : Text) : textLe (a ++ b) (a ++ c) = textLe b c := by
  induction a with
  | nil => rfl
  | cons d a ih =>
    rw [cons_append, cons_append, Bool.eq_iff_iff, textLe_cons, ih]
    simp

/-- An ending keeps the order of two texts unless one of them goes on where the other ends. -/
theorem textLe_append_right {t : Text} (hab : textLe a b)
    (h : ∀ rest, rest ≠ [] → b = a ++ rest → textLe t (rest ++ t)) : textLe (a ++ t) (b ++ t) := by
  induction a generalizing b with
  | nil =>
    by_cases hb : b = []
    · rw [hb, textLe_iff]
    · exact h b hb rfl
  | cons c a ih =>
    cases b with
    | nil => simp [textLe] at hab
    | cons d b =>
      refine textLe_cons.mpr ((textLe_cons.mp hab).imp_right fun ⟨hcd, hle⟩ => ⟨hcd, ih hle ?_⟩)
      rintro rest hrest rfl
      exact h rest hrest (by rw [hcd, cons_append])

theorem eq_of_perm_of_sorted {xs ys : List Text} (hxs : xs.Pairwise fun a b => textLe a b)
    (hys : ys.Pairwise fun a b => textLe a b) (h : xs.Perm ys) : xs = ys :=
  h.eq_of_pairwise (fun _ _ _ _ => textLe_antisymm) hxs hys

theorem sorted_listing (files : FileTree) (path : Text) :
    ((files.listing? path).getD []).Pairwise fun a b => textLe a b := by
  unfold listing?
  split
  · split_ifs
    · exact pairwise_mergeSort textLe_trans textLe_total _
    · exact Pairwise.nil
  · exact Pairwise.nil

theorem isFile_of_read {files : FileTree} {path : Text} {bytes : Bytes}
    (h : files.read path = .ok bytes) : files.isFile path = true := by
  unfold FileTree.read at h
  unfold isFile
  cases hentry : files.entry path with
  | error fault => simp [hentry, Except.bind] at h
  | ok content => cases content <;> simp_all [Except.bind]

end FileTree

/-! ### Slashes at the end of a directory -/

namespace Path

variable {d w : Text}

/-- A directory does not change by the slashes at its end. -/
inductive Slashed : (d e : Text) → Prop
  | same (d : Text) : Slashed d d
  | more (t : Text) {c : Char} (hc : c ≠ '/') (n : Nat) :
      Slashed (t ++ [c] ++ replicate (n + 1) '/') (t ++ [c])

theorem slashed_directory_join (hw : '/' ∉ w) : Slashed d (directory (join d w)) := by
  by_cases hlast : d.getLast? = some '/'
  · obtain ⟨b, hb⟩ := getLast?_eq_some_iff.mp hlast
    have hjoin : join d w = d ++ w := by
      rw [join, if_neg fun hhead => hw (mem_of_head? hhead), if_pos (.inr hlast)]
    have hbase : baseName (d ++ w) = w := by
      rw [hb, append_assoc, singleton_append, baseName, afterLast, cutLast_append_cons hw]
    have hhead : (d ++ w).take ((d ++ w).length - w.length) = d := by simp
    rw [hjoin, directory, hbase, hhead]
    split_ifs with hall
    · exact .same d
    · have hsplit := takeWhile_append_dropWhile (p := fun c => decide (c = '/')) (l := d.reverse)
      obtain ⟨n, hn⟩ : ∃ n, d.reverse.takeWhile (fun c => decide (c = '/')) = replicate n '/' :=
        ⟨_, eq_replicate_of_mem fun c hc => by simpa using mem_takeWhile_imp hc⟩
      cases hdrop : d.reverse.dropWhile fun c => decide (c = '/') with
      | nil =>
        rw [dropWhile_eq_nil_iff] at hdrop
        exact absurd (all_eq_true.mpr fun c hc => hdrop c (mem_reverse.mpr hc)) hall
      | cons c t =>
        have hc : c ≠ '/' := by
          have hne := head?_dropWhile_not (fun c => decide (c = '/')) d.reverse
          rw [hdrop] at hne
          simpa using hne
        rw [hn, hdrop] at hsplit
        have hd : d = t.reverse ++ [c] ++ replicate n '/' := by
          rw [← reverse_reverse d, ← hsplit]
          simp
        have htrim : trimEnd (fun c => decide (c = '/')) d = t.reverse ++ [c] := by
          rw [trimEnd, hdrop, reverse_cons]
        rw [htrim]
        cases n with
        | zero =>
          rw [hd] at hlast
          exact absurd (by simpa using hlast) hc
        | succ n =>
          rw [hd]
          exact .more t.reverse hc n
  · rw [directory_join hlast hw]
    exact .same d

theorem fields_slashes (e s : Text) (n : Nat) :
    fields '/' (e ++ replicate n '/' ++ '/' :: s) =
      fields '/' e ++ (replicate n [] ++ fields '/' s) := by
  induction n generalizing s with
  | zero => rw [replicate_zero, append_nil, fields_append_sep, replicate_zero, nil_append]
  | succ n ih =>
    rw [replicate_succ', ← append_assoc e, append_assoc, singleton_append, ih]
    rw [replicate_succ', append_assoc]
    rfl

theorem resolveDots_replicate (above : Bool) (components : List Text) (n : Nat) :
    resolveDots above (components ++ replicate n []) = resolveDots above components := by
  induction n with
  | zero => rw [replicate_zero, append_nil]
  | succ n ih =>
    rw [← ih, replicate_succ', ← append_assoc, resolveDots, foldl_append]
    simp [resolveDots]

theorem Slashed.resolve_eq {e : Text} (h : Slashed d e) : resolve e = resolve d := by
  cases h with
  | same => rfl
  | @more t c hc n =>
    have hrun : ∀ more, run (fun c => decide (c = '/')) (t ++ [c] ++ more) =
        run (fun c => decide (c = '/')) (t ++ [c]) := by
      intro more
      rw [run, run, takeWhile_append, if_neg]
      intro hlength
      have hall := takeWhile_eq_self_iff.mp (( takeWhile_prefix _).eq_of_length hlength)
      exact hc (by simpa using hall c (by simp))
    have hfields : fields '/' (t ++ [c] ++ replicate (n + 1) '/') =
        fields '/' (t ++ [c]) ++ replicate (n + 1) [] := by
      rw [replicate_succ', ← append_assoc, fields_slashes, replicate_succ']
      rfl
    have hroot : rootSlashes (t ++ [c] ++ replicate (n + 1) '/') = rootSlashes (t ++ [c]) := by
      rw [rootSlashes, hrun]
      rfl
    simp only [resolve, hroot, hfields, resolveDots_replicate]

/-- A file in a directory is not told by the slashes between them. -/
theorem Slashed.join_cases {e : Text} (h : Slashed d e) (hw : '/' ∉ w) :
    join e w = join d w ∨ ∃ n, e ≠ [] ∧ join e w = e ++ '/' :: w ∧
      join d w = e ++ replicate n '/' ++ '/' :: w := by
  cases h with
  | same => exact .inl rfl
  | @more t c hc n =>
    have hhead : ¬ w.head? = some '/' := fun hhead => hw (mem_of_head? hhead)
    refine .inr ⟨n, by simp, ?_, ?_⟩
    · rw [join, if_neg hhead, if_neg (by simpa using hc)]
    · have hlast : (t ++ [c] ++ replicate (n + 1) '/').getLast? = some '/' := by
        rw [replicate_succ', ← append_assoc, getLast?_concat]
      rw [join, if_neg hhead, if_pos (.inr hlast), replicate_succ']
      simp

end Path

namespace FileTree

variable (tree : FileTree)

theorem follow_replicate (here xs : List Text) {ys : List Text} (hys : ys ≠ []) (n : Nat) :
    tree.follow here (xs ++ (replicate n [] ++ ys)) = tree.follow here (xs ++ ys) := by
  induction xs generalizing here with
  | nil =>
    induction n with
    | zero => rfl
    | succ n ih =>
      obtain ⟨y, ys, rfl⟩ := exists_cons_of_ne_nil hys
      rw [nil_append, nil_append] at ih ⊢
      rw [replicate_succ, cons_append, follow, ih, follow]
      cases tree.node? here with
      | none => rfl
      | some content => cases content <;> simp
  | cons x xs ih => simp only [cons_append, follow, ih]

theorem read_of_slashed {d e w : Text} (h : Path.Slashed d e) (hw : '/' ∉ w) :
    tree.read (Path.join e w) = tree.read (Path.join d w) := by
  rcases h.join_cases hw with heq | ⟨n, hne, he, hd⟩
  · rw [heq]
  · have horigin : tree.origin (e ++ replicate n '/' ++ '/' :: w) =
        tree.origin (e ++ '/' :: w) := by
      obtain ⟨c, e, rfl⟩ := exists_cons_of_ne_nil hne
      rfl
    have hlocate : tree.locate (e ++ '/' :: w) = tree.locate (e ++ replicate n '/' ++
        '/' :: w) := by
      rw [locate, locate, if_neg (by simp), if_neg (by simp), horigin, Path.fields_slashes,
        fields_append_sep, follow_replicate tree _ _ (fields_ne_nil '/' w)]
    rw [he, hd, FileTree.read, FileTree.read, entry, entry, hlocate]

end FileTree
/-! ### Names of classes -/

namespace QualifiedClass

open Identifier

variable {p q : QualifiedClass}

/-- The name of a class with its package. -/
def text (q : QualifiedClass) : Text :=
  chain '.' (texts q.package) q.classPath

/-- The second class stands in the first one, which is on the outermost level. -/
def HasInner (q p : QualifiedClass) : Prop :=
  p.package = q.package ∧ p.outer.head? = some q.name

theorem texts_injective : Function.Injective texts :=
  map_injective_iff.mpr fun _ _ => ext_text

theorem fields_classPath : fields '.' p.classPath = texts (p.outer ++ [p.name]) := by
  rw [classPath, fields_chain, texts_append]
  · rfl
  · intro w hw
    have hmem : w ∈ texts (p.outer ++ [p.name]) := by simpa [texts_append, texts] using hw
    exact notMem_of_mem_texts hmem (by decide)

theorem fields_text : fields '.' p.text = texts (p.package ++ (p.outer ++ [p.name])) := by
  have htext : p.text = chain '.' (texts (p.package ++ p.outer)) p.name.text := by
    rw [text, classPath, texts_append, chain_append]
  rw [htext, fields_chain, ← append_assoc, texts_append (p.package ++ p.outer)]
  · rfl
  · intro w hw
    have hmem : w ∈ texts (p.package ++ p.outer ++ [p.name]) := by
      simpa [texts_append, texts] using hw
    exact notMem_of_mem_texts hmem (by decide)

theorem exists_classes (q : QualifiedClass) :
    ∃ w ws, q.outer ++ [q.name] = w :: ws ∧ w.isCapital = true := by
  cases houter : q.outer with
  | nil => exact ⟨_, _, rfl, q.capital _ mem_cons_self⟩
  | cons w ws => exact ⟨w, _, rfl, q.capital w (by simp [houter])⟩

/-- The classes begin where the first capital stands. -/
theorem takeWhile_package (q : QualifiedClass) {w : Identifier} (hw : w.isCapital = true)
    (ws : List Identifier) :
    (q.package ++ w :: ws).takeWhile (fun v => !v.isCapital) = q.package := by
  rw [takeWhile_append_of_pos (by simpa using q.small), takeWhile_cons_of_neg (by simp [hw]),
    append_nil]

/-- The name of a class tells its package and its classes apart. -/
theorem eq_of_append_eq {w : Identifier} {ws : List Identifier} (hw : w.isCapital = true)
    (h : p.package ++ (p.outer ++ [p.name]) = q.package ++ w :: ws) :
    p.package = q.package ∧ p.outer ++ [p.name] = w :: ws := by
  obtain ⟨v, vs, hv, hcapital⟩ := p.exists_classes
  have hpackage : p.package = q.package := by
    rw [← p.takeWhile_package hcapital vs, ← hv, h, q.takeWhile_package hw]
  rw [hpackage] at h
  exact ⟨hpackage, append_cancel_left h⟩

theorem text_inj (h : p.text = q.text) : p = q := by
  obtain ⟨w, ws, hw, hcapital⟩ := q.exists_classes
  have hnames : p.package ++ (p.outer ++ [p.name]) = q.package ++ (q.outer ++ [q.name]) :=
    texts_injective (by rw [← fields_text, h, fields_text])
  obtain ⟨hpackage, hclasses⟩ := eq_of_append_eq hcapital (hw ▸ hnames)
  obtain ⟨houter, hname⟩ := append_inj' (hclasses.trans hw.symm) rfl
  cases p
  cases q
  simp_all

theorem head?_outer {w : Identifier} {ws : List Identifier} (h : p.outer ++ [p.name] = w :: ws)
    (hws : ws ≠ []) : p.outer.head? = some w := by
  cases houter : p.outer with
  | nil => simp_all
  | cons v vs => simp_all

/-- The inner classes are those whose name goes on with a dot. -/
theorem startsWith_text_iff (hq : q.outer = []) :
    startsWith (q.text ++ ['.']) p.text = true ↔ q.HasInner p := by
  rw [startsWith_iff]
  constructor
  · rintro ⟨t, ht⟩
    rw [append_assoc, singleton_append] at ht
    have hfields : (p.package ++ (p.outer ++ [p.name])).map Identifier.text =
        texts (q.package ++ (q.outer ++ [q.name])) ++ fields '.' t := by
      rw [← fields_text, ← fields_append_sep, ht, fields_text]
      rfl
    obtain ⟨front, rest, hsplit, hfront, hrest⟩ := map_eq_append_iff.mp hfields
    rw [texts_injective hfront, hq, nil_append, append_assoc, singleton_append] at hsplit
    obtain ⟨hpackage, hclasses⟩ := eq_of_append_eq (q.capital _ mem_cons_self) hsplit
    exact ⟨hpackage, head?_outer hclasses fun hnil => fields_ne_nil '.' t
      (by rw [← hrest, hnil]; rfl)⟩
  · rintro ⟨hpackage, hhead⟩
    obtain ⟨more, houter⟩ := head?_eq_some_iff.mp hhead
    refine ⟨chain '.' (texts more) p.name.text, ?_⟩
    rw [text, text, classPath, classPath, hpackage, houter, hq, append_assoc, ← chain_append_text]
    rfl

theorem text_eq (hpackage : p.package = q.package) (hne : q.package ≠ []) :
    p.text = q.packageText ++ '.' :: p.classPath := by
  rw [text, hpackage, packageText, joinWith_append_chain _ (by simpa [texts] using hne)]

theorem packageText_eq_nil_iff : q.packageText = [] ↔ q.package = [] := by
  refine ⟨fun h => ?_, fun h => by rw [packageText, h]; rfl⟩
  simpa [texts] using eq_nil_of_joinWith (fun _ hw => (plain_of_mem_texts hw).1) h

/-- What stands behind the package in the name of a class. -/
theorem drop_text (hpackage : p.package = q.package) :
    (if q.packageText = [] then p.text else p.text.drop (q.packageText.length + 1)) =
      p.classPath := by
  by_cases hnil : q.package = []
  · rw [if_pos (packageText_eq_nil_iff.mpr hnil), text, hpackage, hnil]
    rfl
  · rw [if_neg (mt packageText_eq_nil_iff.mp hnil), text_eq hpackage hnil, drop_length_add_append]
    rfl

theorem cutLast_text (hq : q.outer = []) :
    cutLast '.' q.text = (q.packageText, q.name.text) := by
  have hname : '.' ∉ q.name.text := q.name.notMem (by decide)
  have hclass : q.classPath = q.name.text := by rw [classPath, hq]; rfl
  by_cases hnil : q.package = []
  · rw [packageText_eq_nil_iff.mpr hnil, text, hnil, hclass]
    exact cutLast_of_notMem hname
  · rw [text_eq rfl hnil, hclass, cutLast_append_cons hname]

/-- The files of inner classes are told by their names. -/
theorem innerPath?_file {path : Text} : Library.innerPath? q.name.text p.file = some path ↔
    p.outer.head? = some q.name ∧ path = p.classPath := by
  have htake : p.file.take (p.file.length - 5) = p.classPath := by
    rw [file, length_append]
    exact take_left
  constructor
  · intro hpath
    unfold Library.innerPath? at hpath
    split at hpath
    · next rest hafter =>
      split_ifs at hpath with hrest
      obtain rfl := Option.some.inj hpath
      rw [Bool.and_eq_true, Bool.and_eq_true, endsWith_iff] at hrest
      obtain ⟨⟨⟨r, rfl⟩, -⟩, -⟩ := hrest
      rw [after?_eq_some_iff, file, ← append_assoc, append_left_inj, append_assoc,
        singleton_append] at hafter
      have hfields : (p.outer ++ [p.name]).map Identifier.text = q.name.text :: fields '.' r := by
        rw [← fields_append_cons (q.name.notMem (by decide)), ← hafter, fields_classPath]
        rfl
      obtain ⟨w, ws, hclasses, hw, hws⟩ := map_eq_cons_iff.mp hfields
      rw [← ext_text hw]
      exact ⟨head?_outer hclasses fun hnil => fields_ne_nil '.' r (by rw [← hws, hnil]; rfl), htake⟩
    · cases hpath
  · rintro ⟨hhead, rfl⟩
    obtain ⟨more, houter⟩ := head?_eq_some_iff.mp hhead
    have hfile : p.file = q.name.text ++ ['.'] ++ (chain '.' (texts more) p.name.text ++
        ".html".toList) := by
      rw [file, classPath, houter]
      simp [texts]
    have hlong := length_pos_of_ne_nil (chain_ne_nil '.' (texts more) p.name.ne_nil)
    have hlines : '\n' ∉ chain '.' (texts more) p.name.text ++ ".html".toList := fun hmem =>
      p.notMem_file (by decide) (by decide) (hfile ▸ mem_append_right _ hmem)
    have hends : endsWith ".html".toList (chain '.' (texts more) p.name.text ++ ".html".toList) =
        true := endsWith_iff.mpr (suffix_append _ _)
    have hlength : 5 < (chain '.' (texts more) p.name.text ++ ".html".toList).length := by
      rw [length_append]
      exact Nat.lt_add_of_pos_left hlong
    rw [Library.innerPath?, after?_eq_some_iff.mpr hfile]
    simp only [hends, hlength, hlines, htake, not_false_eq_true, decide_true,
      Bool.and_self, if_true]

theorem textLe_text (h : p.package = q.package) :
    FileTree.textLe p.text q.text = FileTree.textLe p.classPath q.classPath := by
  have hsplit : ∀ s : Text, chain '.' (texts q.package) s = chain '.' (texts q.package) [] ++ s :=
    fun s => by rw [← chain_append_text, nil_append]
  rw [text, text, h, hsplit p.classPath, hsplit q.classPath, FileTree.textLe_append_left]

end QualifiedClass

namespace Library

open FileTree DocGraft.Path Identifier QualifiedClass

/-! ### Pages in memory -/

/-- A page of a class. -/
structure Page extends QualifiedClass where
  markup : Text

/-- The page as it is found under a package. -/
def Page.fragment (page : Page) : Fragment :=
  ⟨page.packageText, page.classPath, normalizeMarkup page.markup⟩

/-- The page of a class. -/
def own (pages : List Page) (q : QualifiedClass) : List Page :=
  (pages.find? fun page => page.toQualifiedClass = q).toList

/-- The pages of inner classes. -/
def inner (pages : List Page) (q : QualifiedClass) : List Page :=
  pages.filter fun page => page.package = q.package ∧ page.outer.head? = some q.name

variable {pages : List Page} {q : QualifiedClass}

theorem mem_inner {page : Page} :
    page ∈ inner pages q ↔ page ∈ pages ∧ q.HasInner page.toQualifiedClass := by
  rw [inner, mem_filter, decide_eq_true_iff]
  rfl

theorem packageText_eq {p : QualifiedClass} (h : p.package = q.package) :
    p.packageText = q.packageText := by
  rw [packageText, h]
  rfl

theorem pageFragments_eq (hq : q.outer = []) :
    pageFragments (pages.map fun page => (page.text, page.markup)) q.text =
      (own pages q ++ (inner pages q).mergeSort fun a b => textLe a.text b.text).map
        Page.fragment := by
  have hsort := map_mergeSort (l := inner pages q) (f := fun page => (page.text, page.markup))
    (r := fun a b => textLe a.text b.text) (s := fun a b => textLe a.1 b.1) fun _ _ _ _ => rfl
  have hinner : (pages.map fun page => (page.text, page.markup)).filter (fun page =>
      startsWith (q.text ++ ['.']) page.1) =
        (inner pages q).map fun page => (page.text, page.markup) := by
    rw [filter_map, inner]
    refine congrArg _ (filter_congr fun page _ => ?_)
    rw [Bool.eq_iff_iff, Function.comp_apply, startsWith_text_iff hq, decide_eq_true_iff]
    rfl
  have hown : (pages.map fun page => (page.text, page.markup)).find? (fun page => page.1 = q.text) =
      (pages.find? fun page => page.toQualifiedClass = q).map fun page =>
        (page.text, page.markup) := by
    rw [find?_map]
    refine congrArg _ (congrFun (congrArg _ (funext fun page => ?_)) _)
    exact decide_eq_decide.mpr ⟨text_inj, fun h => congrArg QualifiedClass.text h⟩
  simp only [pageFragments, cutLast_text hq, hinner, hown, ← hsort, map_append, map_map]
  congr 1
  · rw [own]
    cases hfind : pages.find? fun page => page.toQualifiedClass = q with
    | none => rfl
    | some page =>
      obtain rfl : page.toQualifiedClass = q := by simpa using find?_some hfind
      have hclass : page.classPath = page.name.text := by rw [classPath, hq]; rfl
      simp [Page.fragment, hclass]
  · refine map_congr_left fun page hpage => ?_
    have hpackage := (mem_inner.mp (mem_mergeSort.mp hpage)).2.1
    simp only [Function.comp_apply, Page.fragment, drop_text hpackage, packageText_eq hpackage]

/-! ### Pages in files -/

/-- The directory of the package of a class. -/
def folder (root : Text) (q : QualifiedClass) : Text :=
  (texts q.package).foldl join root

/-- Pages are the files of a documentation, as far as a class on the outermost level and its inner
classes go. The directory of the package holds each page under the name of its class, the page can
be read, and nothing else there has the name of such a page. -/
structure Stored [Platform] (files : FileTree) (root encoding : Text) (pages : List Page)
    (q : QualifiedClass) : Prop where
  read : ∀ page ∈ pages, page.package = q.package → ∃ bytes codec,
    files.read (join (folder root q) page.file) = .ok bytes ∧
      Platform.codec? encoding = some codec ∧ codec.decode? bytes = some page.markup
  found : files.isFile (join (folder root q) q.file) = true →
    ∃ page ∈ pages, page.toQualifiedClass = q
  unique : ((files.listing? (resolve (folder root q))).getD []).Nodup
  listed : ∀ file, q.name.text ++ ['.'] <+: file → ".html".toList <:+ file →
    (file ∈ (files.listing? (resolve (folder root q))).getD [] ↔
      ∃ page ∈ pages, page.package = q.package ∧ page.file = file)

variable {files : FileTree} {root encoding : Text}

theorem pagePath_eq (hq : q.outer = []) (root : Text) :
    pagePath root q.text = join (folder root q) q.file := by
  have hjoin : ∀ a t : Text, join a q.name.text ++ t = join a (q.name.text ++ t) := fun a t => by
    rw [join, join, head?_append_of_ne_nil _ q.name.ne_nil]
    split_ifs <;> simp
  rw [pagePath, fields_text, hq, nil_append, texts_append, foldl_append]
  change join (folder root q) q.name.text ++ ".html".toList = _
  rw [hjoin, file, classPath, hq]
  rfl

theorem readPages_map [Platform] {package : Text} {path : Page → Text}
    (h : ∀ page ∈ pages, page.packageText = package ∧
      readPage files encoding (path page) = .ok (.ok (normalizeMarkup page.markup))) :
    readPages files encoding package (pages.map fun page => (path page, page.classPath)) =
      { fragments := pages.map Page.fragment } := by
  induction pages with
  | nil => rfl
  | cons page pages ih =>
    obtain ⟨⟨rfl, hread⟩, h⟩ := forall_mem_cons.mp h
    rw [map_cons, readPages, hread, ih h]
    rfl

theorem of_innerPath? {simple file path : Text} (h : innerPath? simple file = some path) :
    simple ++ ['.'] <+: file ∧ ".html".toList <:+ file := by
  unfold innerPath? at h
  split at h
  · next rest hafter =>
    split_ifs at h with hrest
    rw [after?_eq_some_iff.mp hafter]
    simp only [Bool.and_eq_true, endsWith_iff] at hrest
    exact ⟨prefix_append _ _, hrest.1.1.trans (suffix_append _ _)⟩
  · cases h

namespace Stored

variable [Platform] (h : Stored files root encoding pages q)

include h

theorem readPage_eq {page : Page} (hpage : page ∈ pages) (hpackage : page.package = q.package) :
    readPage files encoding (join (folder root q) page.file) =
      .ok (.ok (normalizeMarkup page.markup)) := by
  obtain ⟨bytes, codec, hread, hcodec, hdecode⟩ := h.read page hpage hpackage
  rw [readPage, hread]
  simp only [hcodec, hdecode]

/-- The names of the files of inner classes in the directory of the package. -/
theorem filter_names (hpages : (pages.map fun page => page.text).Nodup) :
    ((files.listing? (resolve (folder root q))).getD []).filter
      (fun file => (innerPath? q.name.text file).isSome) =
      ((inner pages q).mergeSort fun a b => textLe a.file b.file).map fun page => page.file := by
  have hinj : ∀ a ∈ inner pages q, ∀ b ∈ inner pages q, a.file = b.file → a = b := by
    intro a ha b hb hab
    obtain ⟨ha, hinner, -⟩ := mem_inner.mp ha
    obtain ⟨hb, hinner', -⟩ := mem_inner.mp hb
    refine inj_on_of_nodup_map hpages ha hb ?_
    rw [QualifiedClass.text, QualifiedClass.text, hinner, hinner', append_cancel_right hab]
  have hfiles : ((inner pages q).mergeSort fun a b => textLe a.file b.file).Pairwise
      fun a b => textLe a.file b.file :=
    pairwise_mergeSort (fun a b c => textLe_trans a.file b.file c.file)
      (fun a b => textLe_total a.file b.file) _
  -- Both lists are in order and have no name twice, so it is enough that they have the same names.
  refine eq_of_perm_of_sorted ((sorted_listing _ _).filter _) (pairwise_map.mpr hfiles) ?_
  refine (perm_ext_iff_of_nodup (h.unique.filter _) ?_).mpr fun file => ?_
  · rw [((mergeSort_perm _ _).map _).nodup_iff]
    exact ((Nodup.of_map _ hpages).filter _).map_on hinj
  · simp only [mem_filter, mem_map, mem_mergeSort, Option.isSome_iff_exists]
    constructor
    · rintro ⟨hfile, path, hpath⟩
      obtain ⟨hbegins, hends⟩ := of_innerPath? hpath
      obtain ⟨page, hpage, hpackage, rfl⟩ := (h.listed file hbegins hends).mp hfile
      exact ⟨page, mem_inner.mpr ⟨hpage, hpackage, (innerPath?_file.mp hpath).1⟩, rfl⟩
    · rintro ⟨page, hpage, rfl⟩
      obtain ⟨hmem, hinner⟩ := mem_inner.mp hpage
      have hpath := innerPath?_file.mpr ⟨hinner.2, rfl⟩
      obtain ⟨hbegins, hends⟩ := of_innerPath? hpath
      exact ⟨(h.listed page.file hbegins hends).mpr ⟨page, hmem, hinner.1, rfl⟩, _, hpath⟩

/-- The files of inner classes in the directory of the package, with their class paths. -/
theorem filterMap_names (hpages : (pages.map fun page => page.text).Nodup) (directory : Text) :
    (((files.listing? (resolve (folder root q))).getD []).filterMap fun file =>
      (innerPath? q.name.text file).map fun classPath => (join directory file, classPath)) =
    ((inner pages q).mergeSort fun a b => textLe a.file b.file).map fun page =>
      (join directory page.file, page.classPath) := by
  have hsome : ∀ names : List Text, names.filterMap (fun file =>
      (innerPath? q.name.text file).map fun classPath => (join directory file, classPath)) =
      (names.filter fun file => (innerPath? q.name.text file).isSome).filterMap fun file =>
        (innerPath? q.name.text file).map fun classPath => (join directory file, classPath) := by
    intro names
    rw [filterMap_filter]
    refine filterMap_congr fun file _ => ?_
    cases innerPath? q.name.text file <;> rfl
  rw [hsome, h.filter_names hpages, filterMap_map, ← filterMap_eq_map]
  refine filterMap_congr fun page hpage => ?_
  have hinner := (mem_inner.mp (mem_mergeSort.mp hpage)).2
  rw [Function.comp_apply, innerPath?_file.mpr ⟨hinner.2, rfl⟩]
  rfl

variable (hq : q.outer = [])

include hq

theorem own_eq : readPages files encoding q.packageText
    (if files.isFile (join (folder root q) q.file) then
      [(join (folder root q) q.file, q.name.text)] else []) =
      { fragments := (own pages q).map Page.fragment } := by
  cases hfind : pages.find? fun page => page.toQualifiedClass = q with
  | none =>
    have hnone : ¬ files.isFile (join (folder root q) q.file) = true := fun hfile => by
      obtain ⟨page, hpage, hclass⟩ := h.found hfile
      exact find?_eq_none.mp hfind page hpage (by simpa using hclass)
    rw [if_neg hnone, own, hfind]
    rfl
  | some page =>
    have hpage := mem_of_find?_eq_some hfind
    obtain rfl : page.toQualifiedClass = q := by simpa using find?_some hfind
    have hclass : page.classPath = page.name.text := by rw [classPath, hq]; rfl
    obtain ⟨bytes, codec, hread, -⟩ := h.read page hpage rfl
    rw [if_pos (isFile_of_read hread), own, hfind, readPages, h.readPage_eq hpage rfl, ← hclass]
    rfl

/-- The pages of a class in files: its own, then those of its inner classes by file name. -/
theorem fileFragments_eq (hpages : (pages.map fun page => page.text).Nodup)
    {listings : ListingCache} (hcurrent : listings.Current files) :
    (fileFragments files root encoding q.text listings).fragments =
        .ok ((own pages q ++ (inner pages q).mergeSort fun a b => textLe a.file b.file).map
          Page.fragment) ∧
      (fileFragments files root encoding q.text listings).notices = [] := by
  have hslash : ∀ p : QualifiedClass, '/' ∉ p.file := fun p => p.notMem_file (by decide) (by decide)
  have hfolder := slashed_directory_join (d := folder root q) (hslash q)
  have hread : ∀ page ∈ (inner pages q).mergeSort fun a b => textLe a.file b.file,
      page.packageText = q.packageText ∧
        readPage files encoding (join (Path.directory (join (folder root q) q.file)) page.file) =
          .ok (.ok (normalizeMarkup page.markup)) := fun page hpage => by
    obtain ⟨hmem, hpackage, -⟩ := mem_inner.mp (mem_mergeSort.mp hpage)
    refine ⟨packageText_eq hpackage, ?_⟩
    rw [readPage, files.read_of_slashed hfolder (hslash page.toQualifiedClass)]
    exact h.readPage_eq hmem hpackage
  simp only [fileFragments, cutLast_text hq, pagePath_eq hq, h.own_eq hq, hfolder.resolve_eq,
    hcurrent.list_eq, h.filterMap_names hpages, readPages_map hread, map_append, append_nil,
    and_self]

end Stored

/-! ### Agreement -/

/-- The name of one page goes on where that of the other ends, with something that comes before the
suffix of the file names. -/
def Overtakes (later earlier : Page) : Prop :=
  ∃ rest, rest ≠ [] ∧ later.classPath = earlier.classPath ++ rest ∧
    textLe ".html".toList (rest ++ ".html".toList) = false

theorem textLe_file {a b : Page} (hab : ¬ Overtakes a b) (hba : ¬ Overtakes b a) :
    textLe a.file b.file = textLe a.classPath b.classPath := by
  have hkeep : ∀ {a b : Page}, ¬ Overtakes b a → textLe a.classPath b.classPath →
      textLe a.file b.file := fun h hle =>
    textLe_append_right hle fun rest hrest heq => by
      by_contra hlt
      exact h ⟨rest, hrest, heq, by simpa using hlt⟩
  rw [Bool.eq_iff_iff]
  refine ⟨fun hfile => ?_, hkeep hba⟩
  by_contra hle
  have hge : textLe b.classPath a.classPath := by
    have htotal := textLe_total a.classPath b.classPath
    simpa [hle] using htotal
  have hsame := append_cancel_right (textLe_antisymm hfile (hkeep hab hge))
  exact hle (by rw [hsame, textLe_iff])

/-- Where the class names and the file names have the same order, no page overtakes another. -/
theorem not_overtakes_of_pairwise {names : List Text} (hnames : names.Pairwise fun a b =>
    textLe a b)
    (hfiles : names.Pairwise fun a b => textLe (a ++ ".html".toList) (b ++ ".html".toList))
    {later earlier : Page} (hlater : later.classPath ∈ names)
    (hearlier : earlier.classPath ∈ names) : ¬ Overtakes later earlier := by
  rintro ⟨rest, hrest, hname, hlt⟩
  have hfirst : textLe later.classPath earlier.classPath = false := by
    have happend := textLe_append_left earlier.classPath rest []
    rw [append_nil, ← hname] at happend
    rw [happend]
    obtain ⟨c, rest, rfl⟩ := exists_cons_of_ne_nil hrest
    rfl
  have hsecond : textLe (earlier.classPath ++ ".html".toList) (later.classPath ++ ".html".toList) =
      false := by
    rw [hname, append_assoc, textLe_append_left, hlt]
  have hne : later.classPath ≠ earlier.classPath := fun heq => by
    rw [heq] at hfirst
    simp [textLe] at hfirst
  let R (a b : Text) : Prop := textLe a b ∧ textLe (a ++ ".html".toList) (b ++ ".html".toList)
  have hsymm : Std.Symm fun a b => R a b ∨ R b a := ⟨fun _ _ => Or.symm⟩
  have hboth : names.Pairwise fun a b => R a b ∨ R b a := (hnames.and hfiles).imp Or.inl
  rcases hboth.forall hlater hearlier hne with h | h
  · exact Bool.eq_false_iff.mp hfirst h.1
  · exact Bool.eq_false_iff.mp hsecond h.2

/-- **Libraries in memory and in files.** Both give the page of a class and then those of its inner
classes: in memory in the order of the class names, and in files in the order of the file names.
They give the same list exactly if no page of an inner class overtakes another. -/
theorem fileFragments_eq_iff [Platform] (hpages : (pages.map fun page => page.text).Nodup)
    (hq : q.outer = []) (hstored : Stored files root encoding pages q) {listings : ListingCache}
    (hcurrent : listings.Current files) :
    ((Library.pages (pages.map fun page => (page.text, page.markup))).fragments files q.text
      listings).fragments =
        .ok ((own pages q ++ (inner pages q).mergeSort fun a b => textLe a.text b.text).map
          Page.fragment) ∧
    ((Library.directory root encoding).fragments files q.text listings).fragments =
        .ok ((own pages q ++ (inner pages q).mergeSort fun a b => textLe a.file b.file).map
          Page.fragment) ∧
    ((Library.directory root encoding).fragments files q.text listings).notices = [] ∧
    (((Library.directory root encoding).fragments files q.text listings).fragments =
        ((Library.pages (pages.map fun page => (page.text, page.markup))).fragments files q.text
          listings).fragments ↔
      ∀ later ∈ pages, ∀ earlier ∈ pages, q.HasInner later.toQualifiedClass →
        q.HasInner earlier.toQualifiedClass → ¬ Overtakes later earlier) := by
  obtain ⟨hfiles, hnotices⟩ := hstored.fileFragments_eq hq hpages hcurrent
  refine ⟨congrArg Except.ok (pageFragments_eq hq), hfiles, hnotices, ?_⟩
  rw [Library.fragments, Library.fragments, hfiles, pageFragments_eq hq]
  refine ⟨fun heq later hlater earlier hearlier hinner hinner' => ?_, fun h => ?_⟩
  · rw [Except.ok.injEq, map_append, map_append, append_cancel_left_eq] at heq
    have hclasses := congrArg (map Fragment.classPath) heq
    rw [map_map, map_map] at hclasses
    have hmem : ∀ {page : Page}, page ∈ pages → q.HasInner page.toQualifiedClass →
        page.classPath ∈ ((inner pages q).mergeSort fun a b => textLe a.text b.text).map
          (Fragment.classPath ∘ Page.fragment) := fun hpage hinner =>
      mem_map.mpr ⟨_, mem_mergeSort.mpr (mem_inner.mpr ⟨hpage, hinner⟩), rfl⟩
    refine not_overtakes_of_pairwise ?_ ?_ (hmem hlater hinner) (hmem hearlier hinner')
    · refine pairwise_map.mpr (Pairwise.imp_of_mem (fun ha hb hab => ?_) (pairwise_mergeSort
        (fun a b c => textLe_trans a.text b.text c.text) (fun a b => textLe_total a.text b.text)
        (inner pages q)))
      have hpackage := (mem_inner.mp (mem_mergeSort.mp ha)).2.1
      rwa [textLe_text (hpackage.trans (mem_inner.mp (mem_mergeSort.mp hb)).2.1.symm)] at hab
    · rw [← hclasses]
      exact pairwise_map.mpr (pairwise_mergeSort
        (fun a b c => textLe_trans a.file b.file c.file) (fun a b => textLe_total a.file b.file)
        (inner pages q))
  · have hsame : ∀ a ∈ inner pages q, ∀ b ∈ inner pages q,
        textLe a.file b.file = textLe a.text b.text := by
      intro a ha b hb
      obtain ⟨ha, hinner⟩ := mem_inner.mp ha
      obtain ⟨hb, hinner'⟩ := mem_inner.mp hb
      rw [textLe_text (hinner.1.trans hinner'.1.symm), textLe_file (h a ha b hb hinner hinner')
        (h b hb a ha hinner' hinner)]
    have hsort : (inner pages q).mergeSort (fun a b => textLe a.file b.file) =
        (inner pages q).mergeSort fun a b => textLe a.text b.text := by
      simpa using map_mergeSort (f := id) hsame
    rw [hsort]

/-- The class `p.A`, or the class of this name in it. -/
private def sampleClass (inner : List Identifier) (name : Identifier)
    (h : ∀ w ∈ name :: inner, w.isCapital) : QualifiedClass :=
  ⟨[.of "p" (by decide)], inner, name, by decide, h⟩

private def outermost : QualifiedClass :=
  sampleClass [] (.of "A" (by decide)) (by decide)

/-- The pages of this class and of two of its inner classes. -/
private def siblings : List Page :=
  [⟨outermost, "a".toList⟩,
    ⟨sampleClass [.of "A" (by decide)] (.of "C" (by decide)) (by decide), "c".toList⟩,
    ⟨sampleClass [.of "A" (by decide)] (.of "B" (by decide)) (by decide), "b".toList⟩]

/-- The files of these pages. -/
private def siblingFiles : FileTree where
  nodes := [(["docs".toList], none), (["docs".toList, "p".toList], none),
    (["docs".toList, "p".toList, "A.html".toList], some [97]),
    (["docs".toList, "p".toList, "A.C.html".toList], some [99]),
    (["docs".toList, "p".toList, "A.B.html".toList], some [98])]

private theorem listing_siblings :
    (siblingFiles.listing? (resolve (folder "docs".toList outermost))).getD [] =
      ["A.B.html".toList, "A.C.html".toList, "A.html".toList] := by
  cbv

private theorem stored_siblings :
    Stored siblingFiles "docs".toList "utf-8".toList siblings outermost where
  read page hpage _ := by
    simp only [siblings, mem_cons, not_mem_nil, or_false] at hpage
    rcases hpage with rfl | rfl | rfl
    · exact ⟨[97], Encoding.utf8.codec, by decide +kernel, rfl, by decide +kernel⟩
    · exact ⟨[99], Encoding.utf8.codec, by decide +kernel, rfl, by decide +kernel⟩
    · exact ⟨[98], Encoding.utf8.codec, by decide +kernel, rfl, by decide +kernel⟩
  found _ := ⟨_, .head _, rfl⟩
  unique := by
    rw [listing_siblings]
    decide
  listed file _ _ := by
    rw [listing_siblings]
    constructor
    · simp only [mem_cons, not_mem_nil, or_false]
      rintro (rfl | rfl | rfl) <;> decide
    · rintro ⟨page, hpage, -, rfl⟩
      simp only [siblings, mem_cons, not_mem_nil, or_false] at hpage
      rcases hpage with rfl | rfl | rfl <;> decide

/-- The pages of two inner classes of which neither goes on where the other ends. -/
theorem fileFragments_eq_iff_siblings :
    ((Library.directory "docs".toList "utf-8".toList).fragments siblingFiles "p.A".toList
      {}).fragments = ((Library.pages (siblings.map fun page => (page.text, page.markup))).fragments
        siblingFiles "p.A".toList {}).fragments := by
  have hlength : ∀ page ∈ siblings, outermost.HasInner page.toQualifiedClass →
      page.classPath.length = 3 := by
    intro page hpage hinner
    simp only [siblings, mem_cons, not_mem_nil, or_false] at hpage
    rcases hpage with rfl | rfl | rfl
    · cases hinner.2
    · rfl
    · rfl
  refine (fileFragments_eq_iff (by decide +kernel) (rfl : outermost.outer = []) stored_siblings
    (ListingCache.current_empty _)).2.2.2.mpr fun later hlater earlier hearlier hinner hinner' => ?_
  rintro ⟨rest, hrest, hname, -⟩
  have hlong := congrArg length hname
  rw [length_append, hlength later hlater hinner, hlength earlier hearlier hinner'] at hlong
  exact hrest (length_eq_zero_iff.mp (by omega))

/-- The page of an inner class stands before that of the class around it. -/
theorem fileFragments_overtaken :
    let files : FileTree := { nodes := [(["docs".toList], none),
      (["docs".toList, "A.html".toList], some [97]),
        (["docs".toList, "A.B.html".toList], some [98]),
      (["docs".toList, "A.B.C.html".toList], some [99])] }
    let first : Fragment := ⟨[], "A".toList, "a".toList⟩
    let outer : Fragment := ⟨[], "A.B".toList, "b".toList⟩
    let inner : Fragment := ⟨[], "A.B.C".toList, "c".toList⟩
    ((Library.directory "docs".toList "utf-8".toList).fragments files "A".toList {}).fragments =
        .ok [first, inner, outer] ∧
      pageFragments [("A".toList, "a".toList), ("A.B".toList, "b".toList),
        ("A.B.C".toList, "c".toList)] "A".toList = [first, outer, inner] := by
  intro files first outer inner
  constructor <;> cbv

end Library

end DocGraft
