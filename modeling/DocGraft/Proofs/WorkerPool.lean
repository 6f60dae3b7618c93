import DocGraft.Proofs.EngineHistory
import DocGraft.Standard.Platform

/-!
# Workers

Files are given to workers as these become free, so which worker has which file, and in which order
files are written, is open. What comes of a file does not depend on it, as long as the files that
are written do not change what a fresh engine makes of others. Results are waited for in the order
of the files, and files are dropped only after a failure has been met that way. So a pool in which
everything is done gives what one worker gives that takes the files one after the other.

The main results are `Pool.Sound.step`, `Pool.Sound.value?_eq` and `outcome_independent`.
-/

namespace DocGraft

open List

namespace DirectoryMerge

open Engine

variable [Platform]

/-! ### Undisturbed files -/

/-- The trees to which the work of fresh engines on some files leads. -/
inductive Reached (merge : DirectoryMerge) (paths : List Text) (files : FileTree) : FileTree → Prop
  | start : Reached merge paths files files
  | work {tree : FileTree} (h : Reached merge paths files tree) {path : Text} (mem : path ∈ paths) :
      Reached merge paths files (merge.process tree merge.freshEngine path).files

/-- Whatever files have been worked on, a fresh engine makes of a file what it makes of it at first.
Only the given directories are asked for, and the names in these stay the same. -/
structure Undisturbed (merge : DirectoryMerge) (asked paths : List Text) (files : FileTree) :
    Prop where
  value : ∀ tree, Reached merge paths files tree → ∀ path ∈ paths,
    (merge.process tree merge.freshEngine path).value =
      (merge.process files merge.freshEngine path).value
  mem : ∀ tree, Reached merge paths files tree → ∀ path ∈ paths,
    ∀ directory ∈ (merge.process tree merge.freshEngine path).engine.listings.directory,
      directory ∈ asked
  listing : ∀ tree, Reached merge paths files tree → ∀ path ∈ paths, ∀ directory ∈ asked,
    (merge.readied tree path).listing? directory = files.listing? directory

/-- An engine is for the merge, and its listing is one of the given directories at first. -/
structure Ready (merge : DirectoryMerge) (asked : List Text) (files : FileTree) (engine : Engine) :
    Prop where
  task : engine.SameTask merge.freshEngine
  listed : Listed asked engine.listings files

variable {merge : DirectoryMerge} {asked paths : List Text} {files tree : FileTree}

omit [Platform] in
theorem ready_freshEngine (merge : DirectoryMerge) (asked : List Text) (files : FileTree) :
    Ready merge asked files merge.freshEngine :=
  ⟨⟨rfl, rfl, rfl⟩, listed_empty asked files⟩

/-- An engine makes of a file what a fresh one makes of it at first, and is ready for the next. -/
theorem Undisturbed.process (h : merge.Undisturbed asked paths files)
    (htree : Reached merge paths files tree) {engine : Engine}
    (hengine : Ready merge asked files engine) {path : Text} (hpath : path ∈ paths) :
    (merge.process tree engine path).value = (merge.process files merge.freshEngine path).value ∧
      Reached merge paths files (merge.process tree engine path).files ∧
      Ready merge asked files (merge.process tree engine path).engine := by
  have hlisting := h.listing tree htree path hpath
  have hreadied := hengine.listed.mono hlisting
  have hdone := process_asFresh path hreadied.current rfl hengine.task
  refine ⟨hdone.value.trans (h.value tree htree path hpath), ?_, hdone.task.trans hengine.task, ?_⟩
  · rw [hdone.files]
    exact htree.work hpath
  · have hmem : ∀ directory ∈ (merge.process tree engine path).engine.listings.directory,
        directory ∈ asked := by
      rcases hdone.listings with heq | heq
      · rw [heq]
        exact hengine.listed.mem
      · rw [heq]
        exact h.mem tree htree path hpath
    exact (Listed.mk hmem hdone.current).mono fun directory hdirectory =>
      (hlisting directory hdirectory).symm

/-! ### Unchanged files -/

/-- What went wrong, if anything did. -/
def fault? {ε α : Type} : Except ε α → Option ε
  | .ok _ => none
  | .error fault => some fault

/-- The class for which the source at a path asks for documentation. -/
def className? (merge : DirectoryMerge) (files : FileTree) (path : Text) : Option Text :=
  let fileName := Path.baseName path
  let source := Path.join merge.sourceDir path
  if Text.endsWith ".java".toList fileName then
    (readText files source merge.config.sourceEncoding).toOption.bind fun text =>
      (Source.locate? (normalizeSource text) (fileName.take (fileName.length - 5))).map
        ClassLocation.qualifiedName
  else none

/-- The directory of the page of a class, as it is asked for. -/
def pageDirectory (merge : DirectoryMerge) (className : Text) : Text :=
  Path.resolve (Path.directory (Library.pagePath merge.docDir className))

/-- For the file at a path a tree is as at first: the source reads the same, the documentation has
the same pages for its class, and there is the same room for the target. -/
@[mk_iff]
structure SameFor (merge : DirectoryMerge) (path : Text) (tree files : FileTree) : Prop where
  source : (merge.readied tree path).read (Path.join merge.sourceDir path) =
    (merge.readied files path).read (Path.join merge.sourceDir path)
  pages : ∀ className ∈ merge.className? (merge.readied files path) path,
    merge.library.fragments (merge.readied tree path) className {} =
      merge.library.fragments (merge.readied files path) className {}
  room : fault? (merge.makeTarget tree path) = fault? (merge.makeTarget files path)
  write : fault? ((merge.readied tree path).write (Path.join merge.outputDir path) []) =
    fault? ((merge.readied files path).write (Path.join merge.outputDir path) [])
  copy : fault? ((merge.readied tree path).copy (Path.join merge.sourceDir path)
      (Path.join merge.outputDir path)) =
    fault? ((merge.readied files path).copy (Path.join merge.sourceDir path)
      (Path.join merge.outputDir path))

deriving instance DecidableEq for Library.Lookup

instance SameFor.decidable (merge : DirectoryMerge) (path : Text) (tree files : FileTree) :
    Decidable (SameFor merge path tree files) :=
  decidable_of_iff' _ (sameFor_iff merge path tree files)

/-- Whatever files have been worked on, the tree is as at first for every file, and the directories
of the pages have the same names in them. -/
structure Unchanged (merge : DirectoryMerge) (paths : List Text) (files : FileTree) : Prop where
  same : ∀ tree, Reached merge paths files tree → ∀ path ∈ paths, SameFor merge path tree files
  listing : ∀ tree, Reached merge paths files tree → ∀ path ∈ paths, ∀ other ∈ paths,
    ∀ className ∈ merge.className? (merge.readied files other) other,
      (merge.readied tree path).listing? (merge.pageDirectory className) =
        files.listing? (merge.pageDirectory className)

omit [Platform] in
theorem fault?_write (tree : FileTree) (path : Text) (bytes : Bytes) :
    fault? (tree.write path bytes) = fault? (tree.write path []) := by
  unfold FileTree.write
  cases tree.locate path with
  | error fault => rfl
  | ok here =>
    dsimp only [Except.bind]
    split <;> rfl

omit [Platform] in
/-- Texts are written alike where there is the same room for them. -/
theorem writeText_congr [Platform] {tree files : FileTree} {path : Text}
    (h : fault? (tree.write path []) = fault? (files.write path [])) (encoding text : Text) :
    (writeText tree path encoding text).2 = (writeText files path encoding text).2 := by
  have hwrite : ∀ bytes, fault? (tree.write path bytes) = fault? (files.write path bytes) :=
    fun bytes => by rw [fault?_write, h, ← fault?_write files path bytes]
  unfold writeText
  cases hcodec : Platform.codec? encoding with
  | none =>
    dsimp only
    cases htree : tree.write path [] <;> cases hfiles : files.write path [] <;>
      simp_all [fault?]
  | some codec =>
    have hbytes := hwrite (codec.encode text)
    dsimp only
    cases htree : tree.write path (codec.encode text) <;>
      cases hfiles : files.write path (codec.encode text) <;> simp_all [fault?]

/-- A merge looks at files only for the pages of the class. -/
theorem merge_congr {tree files : FileTree} {source name : Text} {engine : Engine}
    (h : ∀ location ∈ Source.locate? source name,
      engine.library.fragments tree location.qualifiedName engine.listings =
        engine.library.fragments files location.qualifiedName engine.listings) :
    engine.merge tree source name = engine.merge files source name := by
  unfold Engine.merge
  split
  next => rfl
  next location hlocation =>
    have hindex : engine.indexOf tree location = engine.indexOf files location := by
      rw [indexOf, indexOf, h location hlocation]
    rw [hindex]

/-- The listing of an engine is one of the directory of the page, if it changes. -/
theorem merge_listings (engine : Engine) (files : FileTree) (source name : Text) :
    (engine.merge files source name).engine.listings = engine.listings ∨
      ∃ location ∈ Source.locate? source name,
        (engine.merge files source name).engine.listings =
          (engine.library.fragments files location.qualifiedName engine.listings).listings := by
  unfold Engine.merge
  split
  next => exact .inl rfl
  next location hlocation =>
    have hindex : (engine.indexOf files location).engine.listings =
        (engine.library.fragments files location.qualifiedName engine.listings).listings := by
      simp only [indexOf]
      split <;> rfl
    refine .inr ⟨location, hlocation, ?_⟩
    rw [← hindex]
    dsimp only
    split
    · rfl
    · split_ifs <;> rfl

omit [Platform] in
theorem mem_fragments_listings [Platform] {root encoding className directory : Text}
    {files : FileTree}
    (h : directory ∈ ((Library.directory root encoding).fragments files className
      {}).listings.directory) :
    directory = Path.resolve (Path.directory (Library.pagePath root className)) := by
  simp only [Library.fragments, Library.fileFragments, ListingCache.list] at h
  grind

omit [Platform] in
theorem readied_of_ok {made : FileTree} {path : Text} (h : merge.makeTarget tree path = .ok made) :
    merge.readied tree path = made := by
  rw [readied, h]
  rfl

/-- A source that has been read is one for whose class documentation is asked for. -/
theorem mem_className? {path text : Text} {location : ClassLocation}
    (hjava : Text.endsWith ".java".toList (Path.baseName path))
    (hread : readText files (Path.join merge.sourceDir path) merge.config.sourceEncoding = .ok text)
    (hlocation : location ∈ Source.locate? (normalizeSource text)
      ((Path.baseName path).take ((Path.baseName path).length - 5))) :
    location.qualifiedName ∈ merge.className? files path := by
  rw [className?, if_pos hjava, hread]
  exact Option.mem_map_of_mem _ hlocation

/-- A fresh engine makes of a file what it makes of it in a tree that is the same for it. -/
theorem SameFor.process_value {path : Text} (h : SameFor merge path tree files) :
    (merge.process tree merge.freshEngine path).value =
      (merge.process files merge.freshEngine path).value := by
  have hroom := h.room
  simp only [DirectoryMerge.process]
  cases htree : merge.makeTarget tree path with
  | error fault =>
    cases hfiles : merge.makeTarget files path with
    | error fault' =>
      rw [htree, hfiles] at hroom
      rw [Option.some.inj hroom]
    | ok made => simp [htree, hfiles, fault?] at hroom
  | ok made =>
    cases hfiles : merge.makeTarget files path with
    | error fault' => simp [htree, hfiles, fault?] at hroom
    | ok made' =>
      obtain ⟨hsource, hpages, -, hwrite, hcopy⟩ := h
      rw [readied_of_ok htree, readied_of_ok hfiles] at hsource hpages hwrite hcopy
      dsimp only
      split_ifs with hjava
      · have hread : readText made (Path.join merge.sourceDir path) merge.config.sourceEncoding =
            readText made' (Path.join merge.sourceDir path) merge.config.sourceEncoding := by
          rw [readText, readText, hsource]
        rw [hread]
        split
        next => rfl
        next text htext =>
          have hmerge : mergeText merge.freshEngine made (Path.join merge.sourceDir path)
                (Path.baseName path) (normalizeSource text) =
              mergeText merge.freshEngine made' (Path.join merge.sourceDir path)
                (Path.baseName path) (normalizeSource text) := by
            rw [mergeText, mergeText, merge_congr fun location hlocation =>
              hpages _ (mem_className? hjava htext hlocation)]
          rw [hmerge]
          split
          next => rfl
          next result _ =>
            have hwritten := writeText_congr hwrite merge.config.outputEncoding result.text
            split <;> split <;> simp_all
      · cases hleft :
          made.copy (Path.join merge.sourceDir path) (Path.join merge.outputDir path) <;>
          cases hright : made'.copy (Path.join merge.sourceDir path)
            (Path.join merge.outputDir path) <;> simp_all [fault?]

/-- A fresh engine lists the directory of the page of the class, if any. -/
theorem mem_mergeText_listings {source fileName path directory : Text}
    (h : directory ∈
      (mergeText merge.freshEngine files path fileName source).engine.listings.directory) :
    ∃ location ∈ Source.locate? source (fileName.take (fileName.length - 5)),
      directory = merge.pageDirectory location.qualifiedName := by
  have hmerge : directory ∈ (merge.freshEngine.merge files source
      (fileName.take (fileName.length - 5))).engine.listings.directory := by
    unfold mergeText at h
    split_ifs at h
    · cases h
    · dsimp only at h
      split at h <;> exact h
  rcases merge_listings merge.freshEngine files source (fileName.take (fileName.length - 5)) with
    heq | ⟨location, hlocation, heq⟩
  · rw [heq] at hmerge
    cases hmerge
  · rw [heq] at hmerge
    exact ⟨location, hlocation, mem_fragments_listings hmerge⟩

/-- Only directories of pages are listed. -/
theorem SameFor.mem {path : Text} (h : SameFor merge path tree files) {directory : Text}
    (hmem : directory ∈ (merge.process tree merge.freshEngine path).engine.listings.directory) :
    ∃ className ∈ merge.className? (merge.readied files path) path,
      directory = merge.pageDirectory className := by
  simp only [DirectoryMerge.process] at hmem
  cases htree : merge.makeTarget tree path with
  | error fault =>
    rw [htree] at hmem
    cases hmem
  | ok made =>
    have hsource := h.source
    rw [readied_of_ok htree] at hsource
    rw [htree] at hmem
    dsimp only at hmem
    split_ifs at hmem with hjava
    · split at hmem
      next => cases hmem
      next text hread =>
        have hread' : readText (merge.readied files path) (Path.join merge.sourceDir path)
            merge.config.sourceEncoding = .ok text := by
          rw [readText, ← hsource]
          exact hread
        have hmerged :
            directory ∈ (mergeText merge.freshEngine made (Path.join merge.sourceDir path)
            (Path.baseName path) (normalizeSource text)).engine.listings.directory := by
          split at hmem
          · exact hmem
          · split at hmem <;> exact hmem
        obtain ⟨location, hlocation, heq⟩ := mem_mergeText_listings hmerged
        exact ⟨location.qualifiedName, mem_className? hjava hread' hlocation, heq⟩
    · split at hmem <;> cases hmem

/-- The directories of the pages of all classes. -/
def pageDirectories (merge : DirectoryMerge) (files : FileTree) (paths : List Text) : List Text :=
  paths.flatMap fun path =>
    (merge.className? (merge.readied files path) path).toList.map merge.pageDirectory

/-- Files do not disturb each other as long as what they need stays as it is. -/
theorem Unchanged.undisturbed (h : merge.Unchanged paths files) :
    merge.Undisturbed (merge.pageDirectories files paths) paths files where
  value tree htree path hpath := (h.same tree htree path hpath).process_value
  mem tree htree path hpath directory hdirectory := by
    obtain ⟨className, hclass, rfl⟩ := (h.same tree htree path hpath).mem hdirectory
    exact mem_flatMap_of_mem hpath (mem_map_of_mem (Option.mem_toList.mpr hclass))
  listing tree htree path hpath directory hdirectory := by
    obtain ⟨other, hother, hmem⟩ := mem_flatMap.mp hdirectory
    obtain ⟨className, hclass, rfl⟩ := mem_map.mp hmem
    exact h.listing tree htree path hpath other hother className (Option.mem_toList.mp hclass)

/-! ### Results in order -/

/-- What results in order give: all of them, or the first failure. -/
def inOrder : List FileResult → Except Failure (List MergeResult)
  | [] => .ok []
  | .error failure :: _ => .error failure
  | .ok result :: rest => (inOrder rest).map fun found => result.toList ++ found

/-- What comes of a file at first, with a fresh engine. -/
def alone (merge : DirectoryMerge) (files : FileTree) (path : Text) : FileResult :=
  (merge.process files merge.freshEngine path).value

/-- One worker gives what the files give with fresh engines, in order. -/
theorem Undisturbed.processAll_value (h : merge.Undisturbed asked paths files)
    {rest : List Text} (hrest : rest ⊆ paths) (htree : Reached merge paths files tree)
    {engine : Engine} (hengine : Ready merge asked files engine) :
    (merge.processAll rest tree engine).value = inOrder (rest.map (merge.alone files)) := by
  induction rest generalizing tree engine with
  | nil => rfl
  | cons path rest ih =>
    obtain ⟨hpath, hrest⟩ := cons_subset.mp hrest
    obtain ⟨hvalue, hreached, hready⟩ := h.process htree hengine hpath
    have hothers := ih hrest hreached hready
    rw [processAll, map_cons, alone, ← hvalue]
    cases (merge.process tree engine path).value with
    | error failure => rfl
    | ok result => simp only [inOrder, hothers]

/-! ### Pools -/

namespace Pool

variable {results : List (Nat × FileResult)} {expected : Nat → FileResult}

omit [Platform]

/-- What has been waited for does not change when more results come in. -/
theorem collect_append {numbers : List Nat} {value : Except Failure (List MergeResult)}
    (h : collect results numbers = some value) (more : List (Nat × FileResult)) :
    collect (results ++ more) numbers = some value := by
  induction numbers generalizing value with
  | nil => exact h
  | cons n rest ih =>
    rw [collect] at h ⊢
    rw [lookup_append]
    cases hlookup : results.lookup n with
    | none => simp [hlookup] at h
    | some result =>
      rw [hlookup] at h
      cases result with
      | error failure => exact h
      | ok result =>
        obtain ⟨value', hrest, rfl⟩ := Option.map_eq_some_iff.mp h
        simp [ih hrest]

theorem mem_of_lookup {n : Nat} {result : FileResult} (h : results.lookup n = some result) :
    (n, result) ∈ results := by
  obtain ⟨before, after, rfl, -⟩ := lookup_eq_some_iff.mp h
  simp

/-- If all results are those expected, so is what is waited for. -/
theorem collect_eq (hresults : ∀ entry ∈ results, entry.2 = expected entry.1) {numbers : List Nat}
    {value : Except Failure (List MergeResult)} (h : collect results numbers = some value) :
    value = inOrder (numbers.map expected) := by
  induction numbers generalizing value with
  | nil => exact (Option.some.inj h).symm
  | cons n rest ih =>
    rw [collect] at h
    cases hlookup : results.lookup n with
    | none => simp [hlookup] at h
    | some result =>
      rw [hlookup] at h
      have hresult : result = expected n := hresults _ (mem_of_lookup hlookup)
      rw [map_cons, ← hresult]
      cases result with
      | error failure => exact (Option.some.inj h).symm
      | ok result =>
        obtain ⟨value', hrest, rfl⟩ := Option.map_eq_some_iff.mp h
        rw [inOrder, ih hrest]

/-- If all results are there, waiting comes to an end. -/
theorem isSome_collect {numbers : List Nat} (h : ∀ n ∈ numbers, n ∈ results.map Prod.fst) :
    (collect results numbers).isSome := by
  induction numbers with
  | nil => rfl
  | cons n rest ih =>
    obtain ⟨hn, hrest⟩ := forall_mem_cons.mp h
    obtain ⟨entry, hentry, rfl⟩ := mem_map.mp hn
    have hlookup : (results.lookup entry.1).isSome := lookup_isSome_iff.mpr ⟨entry, hentry, by simp⟩
    obtain ⟨result, hresult⟩ := Option.isSome_iff_exists.mp hlookup
    rw [collect, hresult]
    cases result with
    | error failure => rfl
    | ok result => simpa using ih hrest

/-- The files of a pool by number. -/
def numbered (paths : List Text) : List (Nat × Text) :=
  (range paths.length).zip paths

theorem getElem?_of_mem_numbered {file : Nat × Text} (h : file ∈ numbered paths) :
    paths[file.1]? = some file.2 := by
  obtain ⟨n, hn, rfl⟩ := mem_iff_getElem.mp h
  simp [numbered]

theorem mem_of_mem_numbered {file : Nat × Text} (h : file ∈ numbered paths) : file.2 ∈ paths :=
  mem_of_getElem? (getElem?_of_mem_numbered h)

theorem mem_numbered {n : Nat} (h : n < paths.length) : (n, paths[n]) ∈ numbered paths := by
  refine mem_iff_getElem.mpr ⟨n, by simpa [numbered] using h, ?_⟩
  simp [numbered]

section Set

variable {α : Type} {f : Nat → Option α} {worker n : Nat} {a : Option α} {b : α}

theorem set_self : set f worker a worker = a :=
  if_pos rfl

theorem set_of_ne (h : n ≠ worker) : set f worker a n = f n :=
  if_neg h

theorem of_mem_set (h : b ∈ set f worker a n) : n = worker ∧ b ∈ a ∨ b ∈ f n := by
  by_cases hn : n = worker
  · subst hn
    rw [set_self] at h
    exact .inl ⟨rfl, h⟩
  · rw [set_of_ne hn] at h
    exact .inr h

end Set

end Pool

/-- What comes at first of the file with a number. -/
def aloneAt (merge : DirectoryMerge) (paths : List Text) (files : FileTree) (n : Nat) :
    FileResult :=
  merge.alone files (paths.getD n [])

theorem map_aloneAt : (range paths.length).map (merge.aloneAt paths files) =
    paths.map (merge.alone files) := by
  refine ext_getElem (by simp) fun n h h' => ?_
  have hn : n < paths.length := by simpa using h'
  simp [aloneAt, hn]

namespace Pool

/-- The results so far are those of fresh engines, the engines are ready, and no file has got lost
unless there was a failure. -/
structure Sound (merge : DirectoryMerge) (asked paths : List Text) (files : FileTree)
    (workers : Nat) (pool : Pool) : Prop where
  size : pool.size = paths.length
  reached : Reached merge paths files pool.files
  engines : ∀ worker, ∀ engine ∈ pool.engines worker, Ready merge asked files engine
  queue : pool.queue ⊆ numbered paths
  taken : ∀ worker, ∀ file ∈ pool.taken worker, worker < workers ∧ file ∈ numbered paths
  results : ∀ entry ∈ pool.results, entry.2 = merge.aloneAt paths files entry.1
  complete : pool.hasFailed ∨ ∀ file ∈ numbered paths, file ∈ pool.queue ∨
    (∃ worker, pool.taken worker = some file) ∨ file.1 ∈ pool.results.map Prod.fst

variable {workers : Nat} {pool : Pool}

omit [Platform] in
theorem hasFailed_append (hfailed : pool.hasFailed) (more : List (Nat × FileResult)) :
    { pool with results := pool.results ++ more }.hasFailed := by
  unfold hasFailed value? at hfailed ⊢
  split at hfailed
  next failure hvalue => rw [collect_append hvalue]
  next => cases hfailed

theorem sound_submit (merge : DirectoryMerge) (asked paths : List Text) (files : FileTree)
    (workers : Nat) : (submit paths files).Sound merge asked paths files workers where
  size := rfl
  reached := .start
  engines worker engine h := by cases h
  queue := Subset.refl _
  taken worker file h := by cases h
  results entry h := by cases h
  complete := .inr fun file hfile => .inl hfile

namespace Sound

variable (h : pool.Sound merge asked paths files workers)

include h

theorem take {worker : Nat} (hworker : worker < workers) :
    (pool.take worker).Sound merge asked paths files workers := by
  unfold Pool.take
  split
  next file rest hidle hqueue =>
    have hfile : file ∈ numbered paths := h.queue (by simp [hqueue])
    refine ⟨h.size, h.reached, h.engines, fun other hother => h.queue (by simp [hqueue, hother]),
      fun other taken htaken => ?_, h.results, h.complete.imp_right fun hcomplete other hother =>
        ?_⟩
    · rcases of_mem_set htaken with ⟨rfl, hnew⟩ | hold
      · exact Option.some.inj hnew ▸ ⟨hworker, hfile⟩
      · exact h.taken other taken hold
    · rcases hcomplete other hother with hwaiting | ⟨busy, hbusy⟩ | hdone
      · rw [hqueue] at hwaiting
        rcases mem_cons.mp hwaiting with rfl | hwaiting
        · exact .inr (.inl ⟨worker, set_self⟩)
        · exact .inl hwaiting
      · -- The worker had no file, so the one that has this file is another.
        have hne : busy ≠ worker := by
          rintro rfl
          rw [hidle] at hbusy
          cases hbusy
        exact .inr (.inl ⟨busy, (set_of_ne hne).trans hbusy⟩)
      · exact .inr (.inr hdone)
  next => exact h

theorem finish (hundisturbed : merge.Undisturbed asked paths files) (worker : Nat) :
    (pool.finish merge worker).Sound merge asked paths files workers := by
  unfold Pool.finish
  split
  next => exact h
  next n path htaken =>
    have hfile := (h.taken worker (n, path) htaken).2
    have hready : Ready merge asked files ((pool.engines worker).getD merge.freshEngine) := by
      cases hengine : pool.engines worker with
      | none => exact ready_freshEngine merge asked files
      | some engine => exact h.engines worker engine hengine
    obtain ⟨hvalue, hreached, hafter⟩ :=
      hundisturbed.process h.reached hready (mem_of_mem_numbered hfile)
    refine ⟨h.size, hreached, fun other engine hengine => ?_, h.queue, fun other taken hother => ?_,
      fun entry hentry => ?_, ?_⟩
    · rcases of_mem_set hengine with ⟨-, hengine⟩ | hengine
      · exact Option.some.inj hengine ▸ hafter
      · exact h.engines other engine hengine
    · rcases of_mem_set hother with ⟨-, hother⟩ | hother
      · cases hother
      · exact h.taken other taken hother
    · rcases mem_append.mp hentry with hentry | hentry
      · exact h.results entry hentry
      · obtain rfl := mem_singleton.mp hentry
        rw [aloneAt, getD_eq_getElem?_getD, getElem?_of_mem_numbered hfile]
        exact hvalue
    · rcases h.complete with hfailed | hcomplete
      · exact .inl (hasFailed_append hfailed _)
      · refine .inr fun file hmem => ?_
        rcases hcomplete file hmem with hwaiting | ⟨busy, hbusy⟩ | hdone
        · exact .inl hwaiting
        · by_cases hsame : busy = worker
          · subst hsame
            obtain rfl := Option.some.inj (htaken.symm.trans hbusy)
            exact .inr (.inr (by simp))
          · exact .inr (.inl ⟨busy, (set_of_ne hsame).trans hbusy⟩)
        · exact .inr (.inr (by simp [mem_map.mp hdone]))

theorem step (hundisturbed : merge.Undisturbed asked paths files) (event : Event) :
    (pool.step merge workers event).Sound merge asked paths files workers := by
  cases event with
  | take worker =>
    rw [Pool.step]
    split_ifs with hworker
    · exact h.take hworker
    · exact h
  | finish worker => exact h.finish hundisturbed worker
  | drop =>
    rw [Pool.step]
    split_ifs with hfailed
    · exact ⟨h.size, h.reached, h.engines, nil_subset _, h.taken, h.results, .inl hfailed⟩
    · exact h

theorem run (hundisturbed : merge.Undisturbed asked paths files) (events : List Event) :
    (pool.run merge workers events).Sound merge asked paths files workers := by
  induction events generalizing pool with
  | nil => exact h
  | cons event events ih => exact ih (h.step hundisturbed event)

/-- When everything is done, waiting for the results gives what the files give in order. -/
theorem value?_eq (hdone : pool.isDone workers) :
    pool.value? = some (inOrder (paths.map (merge.alone files))) := by
  have hsome : pool.value?.isSome := by
    rcases h.complete with hfailed | hcomplete
    · unfold hasFailed at hfailed
      split at hfailed
      next hvalue => simp [hvalue]
      next => cases hfailed
    · rw [isDone, Bool.and_eq_true, List.isEmpty_iff, all_eq_true] at hdone
      refine isSome_collect fun n hn => ?_
      have hlength : n < paths.length := by rwa [h.size, mem_range] at hn
      rcases hcomplete _ (mem_numbered hlength) with hwaiting | ⟨worker, htaken⟩ | hresult
      · simp [hdone.1] at hwaiting
      · have hworker := (h.taken worker _ htaken).1
        have hidle := hdone.2 worker (mem_range.mpr hworker)
        simp [htaken] at hidle
      · exact hresult
  obtain ⟨value, hvalue⟩ := Option.isSome_iff_exists.mp hsome
  rw [hvalue, collect_eq h.results hvalue, h.size, map_aloneAt]

end Sound

/-! ### Taking turns -/

/-- Dropping files leaves the workers as they are. -/
theorem drop_le (merge : DirectoryMerge) (workers : Nat) (pool : Pool) :
    (pool.step merge workers .drop).taken = pool.taken ∧
    (pool.step merge workers .drop).queue.length ≤ pool.queue.length := by
  rw [step]
  split_ifs
  · exact ⟨rfl, Nat.zero_le _⟩
  · exact ⟨rfl, Nat.le_refl _⟩

/-- A worker that takes a file and finishes it has no file afterwards, and the queue is shorter. -/
theorem finish_take (merge : DirectoryMerge) (hidle : ∀ worker, pool.taken worker = none)
    (worker : Nat) :
    (∀ other, ((pool.take worker).finish merge worker).taken other = none) ∧
      ((pool.take worker).finish merge worker).queue = pool.queue.tail := by
  cases hqueue : pool.queue with
  | nil =>
    have htake : pool.take worker = pool := by simp [Pool.take, hidle, hqueue]
    have hfinish : pool.finish merge worker = pool := by simp [Pool.finish, hidle]
    rw [htake, hfinish]
    exact ⟨hidle, hqueue⟩
  | cons file rest =>
    have htake : pool.take worker =
        { pool with queue := rest, taken := set pool.taken worker (some file) } := by
      simp [Pool.take, hidle, hqueue]
    rw [htake, Pool.finish]
    simp only [set_self]
    refine ⟨fun other => ?_, rfl⟩
    rw [set, set, hidle]
    split_ifs <;> rfl

/-- After some turns no worker has a file, and each turn has made the queue shorter. -/
theorem turns_le (merge : DirectoryMerge) (hworkers : 0 < workers) (numbers : List Nat)
    (hidle : ∀ worker, pool.taken worker = none) :
    let after := pool.run merge workers
      (numbers.flatMap fun n => [.take (n % workers), .finish (n % workers), .drop])
    (∀ worker, after.taken worker = none) ∧
      after.queue.length ≤ pool.queue.length - numbers.length := by
  induction numbers generalizing pool with
  | nil => exact ⟨hidle, Nat.le_refl _⟩
  | cons n rest ih =>
    obtain ⟨hafter, hqueue⟩ := finish_take merge hidle (n % workers)
    obtain ⟨htaken, hdrop⟩ :=
      drop_le merge workers ((pool.take (n % workers)).finish merge (n % workers))
    have hturn : pool.run merge workers ((n :: rest).flatMap fun n =>
        [.take (n % workers), .finish (n % workers), .drop]) =
        (((pool.take (n % workers)).finish merge (n % workers)).step merge workers .drop).run merge
          workers (rest.flatMap fun n => [.take (n % workers), .finish (n % workers), .drop]) := by
      simp [Pool.run, step, Nat.mod_lt n hworkers]
    obtain ⟨hidle', hlength⟩ := ih fun worker => (congrFun htaken worker).trans (hafter worker)
    rw [hturn]
    refine ⟨hidle', hlength.trans ?_⟩
    rw [hqueue, length_tail] at hdrop
    rw [length_cons]
    omega

/-- Workers who take turns get everything done. -/
theorem isDone_turns (hworkers : 0 < workers) :
    ((submit paths files).run merge workers (turns workers paths.length)).isDone workers := by
  obtain ⟨hidle, hqueue⟩ := turns_le merge hworkers (range paths.length)
    (fun _ => rfl : ∀ worker, (submit paths files).taken worker = none)
  have hlength : (submit paths files).queue.length = paths.length := by simp [submit]
  rw [hlength, length_range, Nat.sub_self, Nat.le_zero, length_eq_zero_iff] at hqueue
  rw [isDone, Bool.and_eq_true, List.isEmpty_iff, all_eq_true]
  exact ⟨hqueue, fun worker _ => Option.isNone_iff_eq_none.mpr (hidle worker)⟩

end Pool

/-! ### Any number of workers -/

/-- A merge gives what the files give in order, whatever the number of workers. -/
theorem Undisturbed.run_value (h : merge.Undisturbed asked (files.walk merge.sourceDir) files)
    (hvalid : merge.validate files = .ok ()) :
    (merge.run files merge.freshEngine).value =
      inOrder ((files.walk merge.sourceDir).map (merge.alone files)) := by
  simp only [run, hvalid]
  split_ifs with hworkers
  · exact h.processAll_value (Subset.refl _) .start (ready_freshEngine merge asked files)
  · have hsound := (Pool.sound_submit merge asked (files.walk merge.sourceDir) files
      merge.config.jobs.toNat).run h
        (Pool.turns merge.config.jobs.toNat (files.walk merge.sourceDir).length)
    rw [hsound.value?_eq (Pool.isDone_turns (by omega)), Option.getD_some]

/-- The work of an engine that is fresh but for its number of workers is that of a fresh one. -/
theorem process_withJobs (merge : DirectoryMerge) (jobs : Int) (tree : FileTree) (path : Text) :
    ((merge.withJobs jobs).process tree (merge.withJobs jobs).freshEngine path).AsFresh
      (merge.process tree merge.freshEngine path) (merge.withJobs jobs).freshEngine
      (merge.readied tree path) :=
  process_asFresh path (ListingCache.current_empty _) rfl ⟨rfl, rfl, rfl⟩

theorem Undisturbed.withJobs (h : merge.Undisturbed asked paths files) (jobs : Int) :
    (merge.withJobs jobs).Undisturbed asked paths files := by
  have hreached : ∀ tree, Reached (merge.withJobs jobs) paths files tree →
      Reached merge paths files tree := by
    intro tree htree
    induction htree with
    | start => exact .start
    | work htree mem ih =>
      rw [(process_withJobs merge jobs _ _).files]
      exact ih.work mem
  refine ⟨fun tree htree path hpath => ?_, fun tree htree path hpath directory hdirectory => ?_,
    fun tree htree path hpath => h.listing tree (hreached tree htree) path hpath⟩
  · rw [(process_withJobs merge jobs tree path).value,
      (process_withJobs merge jobs files path).value]
    exact h.value tree (hreached tree htree) path hpath
  · rcases (process_withJobs merge jobs tree path).listings with heq | heq
    · rw [heq] at hdirectory
      cases hdirectory
    · rw [heq] at hdirectory
      exact h.mem tree (hreached tree htree) path hpath directory hdirectory

end DirectoryMerge

open DirectoryMerge

/-- Trees among which the work on files stays are all that are reached. -/
private theorem mem_of_reached [Platform] {merge : DirectoryMerge} {paths : List Text}
    {files tree : FileTree} {trees : List FileTree} (hstart : files ∈ trees)
    (hclosed : ∀ tree ∈ trees, ∀ path ∈ paths,
      (merge.process tree merge.freshEngine path).files ∈ trees)
    (h : Reached merge paths files tree) : tree ∈ trees := by
  induction h with
  | start => exact hstart
  | work _ hpath ih => exact hclosed _ ih _ hpath

/-- Two sources of one package, one of them with a page. -/
private def sampleTree : FileTree where
  nodes :=
    [(["s".toList], none),
     (["s".toList, "A.java".toList],
      some (Encoding.utf8.encode "package q;class A\x7b\n/** a */\nint x;\x7d".toList)),
     (["s".toList, "p".toList], none),
     (["s".toList, "p".toList, "B.java".toList],
      some (Encoding.utf8.encode "package q;class B\x7b\x7d".toList)),
     (["d".toList], none), (["d".toList, "allclasses.html".toList], some []),
     (["d".toList, "q".toList], none),
     (["d".toList, "q".toList, "A.html".toList],
      some (Encoding.utf8.encode
        "<li class=\"blockList\"><pre>int x</pre><div class=\"block\">b</div></li>".toList))]

private def sampleMerge : DirectoryMerge where
  sourceDir := "s".toList
  docDir := "d".toList
  outputDir := "o".toList
  config := { labels := { deprecated := ["Deprecated.".toList] } }

/-- The first source of the sample with its documentation. -/
private def mergedFirst : List (List Text × Option Bytes) :=
  [(["o".toList, "A.java".toList],
    some (Encoding.utf8.encode "package q;class A\x7b\n/** b */\nint x;\x7d".toList))]

/-- The second source of the sample, which has no documentation. -/
private def mergedSecond : List (List Text × Option Bytes) :=
  [(["o".toList, "p".toList], none),
   (["o".toList, "p".toList, "B.java".toList],
    some (Encoding.utf8.encode "package q;class B\x7b\x7d".toList))]

/-- All trees that the work on the sample leads to. -/
private def sampleTrees : List FileTree :=
  sampleTree :: [mergedFirst, mergedSecond, mergedFirst ++ mergedSecond,
    mergedSecond ++ mergedFirst].map fun merged =>
      { nodes := sampleTree.nodes ++ (["o".toList], none) :: merged }

end DocGraft
