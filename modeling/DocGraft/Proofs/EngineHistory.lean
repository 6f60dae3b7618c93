import Mathlib
import DocGraft.Merge.Directory

/-!
# What an engine keeps

Between sources an engine keeps the patterns that it has made, the last listing of a directory and
the warnings of the last merge. The table of patterns is given to pages only if it is not empty, and
widths add to it. A pattern in it is found by its text and its flags, so it is the one that would be
made anew. A listing stands for its directory as long as the names there stay the same, and the
warnings go away before a merge adds its own. So what a merge gives is what a fresh engine gives,
whatever the engine has merged before.

The main results are `Engine.merge_asFresh`, `Engine.mergeAll_eq` and
`DirectoryMerge.process_asFresh`.
-/

namespace DocGraft

open Text

/-! ### Listings -/

/-- The names that a cache remembers are those in its directory. -/
def ListingCache.Current (cache : ListingCache) (files : FileTree) : Prop :=
  ∀ directory, cache.directory = some directory →
    cache.names = (files.listing? directory).getD []

theorem ListingCache.current_empty (files : FileTree) : ListingCache.Current {} files := by
  intro directory h
  exact absurd h (by simp)

/-- A cache that is asked for a directory then holds its listing. -/
theorem ListingCache.Current.list_eq {cache : ListingCache} {files : FileTree}
    (h : cache.Current files) (directory : Text) :
    cache.list files directory =
      ⟨some (Path.resolve directory), (files.listing? (Path.resolve directory)).getD []⟩ := by
  obtain ⟨known, names⟩ := cache
  simp only [ListingCache.list]
  split_ifs with hknown
  · rw [hknown, ← h _ hknown]
  · rfl

theorem ListingCache.current_list (cache : ListingCache) {files : FileTree}
    (h : cache.Current files) (directory : Text) : (cache.list files directory).Current files := by
  rw [h.list_eq]
  intro known hknown
  rw [← Option.some.inj hknown]

namespace Library

/-- A look-up of pages gives what it gives with an empty cache, and keeps its cache or leaves the
one that an empty cache becomes. -/
theorem fragments_eq [Platform] (library : Library) {files : FileTree} (className : Text)
    {listings : ListingCache} (h : listings.Current files) :
    (library.fragments files className listings).fragments =
        (library.fragments files className {}).fragments ∧
      (library.fragments files className listings).notices =
        (library.fragments files className {}).notices ∧
      ((library.fragments files className listings).listings = listings ∨
        (library.fragments files className listings).listings =
          (library.fragments files className {}).listings) ∧
      (library.fragments files className listings).listings.Current files := by
  cases library with
  | pages markups => exact ⟨rfl, rfl, .inl rfl, h⟩
  | directory root encoding =>
    have hlist : listings.list files (Path.directory (pagePath root className)) =
        ({} : ListingCache).list files (Path.directory (pagePath root className)) := by
      rw [h.list_eq, (ListingCache.current_empty files).list_eq]
    have hcurrent := ListingCache.current_list {} (ListingCache.current_empty files)
      (Path.directory (pagePath root className))
    simp only [fragments, fileFragments, hlist]
    grind

end Library

/-! ### Patterns -/

instance Comment.LongWords.subsingleton : Subsingleton Comment.LongWords where
  allEq a b := by
    obtain ⟨rule, hrule⟩ := a
    obtain ⟨rule', hrule'⟩ := b
    obtain rfl : rule = rule' := funext fun least => (hrule least).trans (hrule' least).symm
    rfl

theorem PageContext.prepare_fst (patterns : PatternCache) (package classPath : Text) :
    (PageContext.prepare patterns package classPath).1 =
      { package := package, classPath := classPath } := by
  rw [PageContext.prepare, Memo.value_eq, Memo.value_eq]

namespace DocIndex

theorem addEntry_patterns (outcome : Outcome) (patterns : PatternCache)
    (entry : Except Notice DocEntry) :
    addEntry { outcome with patterns := patterns } entry =
      { addEntry outcome entry with patterns := patterns } := by
  cases entry with
  | ok entry => rfl
  | error notice => rfl

theorem foldl_addEntry_patterns (outcome : Outcome) (patterns : PatternCache)
    (entries : List (Except Notice DocEntry)) :
    entries.foldl addEntry { outcome with patterns := patterns } =
      { entries.foldl addEntry outcome with patterns := patterns } := by
  induction entries generalizing outcome with
  | nil => rfl
  | cons entry entries ih => simp [addEntry_patterns, ih]

/-- Patterns show in nothing that a page gives but patterns. -/
theorem exists_addPage_patterns [Platform] (vocabulary : LabelVocabulary) (package : Text)
    (outcome : Outcome) (patterns : PatternCache) (page : Text × Text) :
    ∃ patterns', addPage vocabulary package { outcome with patterns := patterns } page =
      { addPage vocabulary package outcome page with patterns := patterns' } := by
  simp only [addPage]
  split_ifs with hskip
  · exact ⟨patterns, rfl⟩
  · simp [foldl_addEntry_patterns, PageContext.prepare_fst]

/-- Patterns show in nothing that pages give but patterns. -/
theorem exists_addPages_patterns [Platform] (vocabulary : LabelVocabulary) (package : Text)
    (patterns patterns' : PatternCache) (pages : List (Text × Text)) :
    ∃ patterns'', addPages vocabulary package patterns pages =
      { addPages vocabulary package patterns' pages with patterns := patterns'' } := by
  have hpages : ∀ (outcome : Outcome) patterns,
      ∃ patterns', pages.foldl (addPage vocabulary package) { outcome with patterns := patterns } =
        { pages.foldl (addPage vocabulary package) outcome with patterns := patterns' } := by
    induction pages with
    | nil => simp
    | cons page pages ih =>
      intro outcome patterns
      obtain ⟨patterns', hpage⟩ := exists_addPage_patterns vocabulary package outcome patterns page
      rw [List.foldl_cons, hpage]
      exact ih _ patterns'
  exact hpages { patterns := patterns' } patterns

/-- Patterns show in nothing that building an index gives but patterns, whether the table was empty
or not. -/
theorem exists_build_patterns [Platform] (vocabulary : LabelVocabulary)
    (patterns patterns' : PatternCache) (className : Text)
    (markup : Option Text) (inner : List (Text × Text)) :
    ∃ patterns'', build vocabulary patterns className markup inner =
      { build vocabulary patterns' className markup inner with patterns := patterns'' } := by
  obtain ⟨patterns'', hpages⟩ := exists_addPages_patterns vocabulary (cutLast '.' className).1
    patterns patterns' (((cutLast '.' className).2, markup.getD []) :: inner)
  simp only [build, hpages]
  exact ⟨_, rfl⟩

end DocIndex

/-! ### Merging one source -/

namespace Engine

/-- Two engines have the same documentation and make comments in the same style. -/
structure SameTask (engine engine' : Engine) : Prop where
  library : engine.library = engine'.library
  labels : engine.config.labels = engine'.config.labels
  style : engine.config.style = engine'.config.style

theorem SameTask.trans {engine engine' engine'' : Engine} (h : engine.SameTask engine')
    (h' : engine'.SameTask engine'') : engine.SameTask engine'' :=
  ⟨h.library.trans h'.library, h.labels.trans h'.labels, h.style.trans h'.style⟩

/-- The outcome of the work of an engine is that of a fresh one: it gives the same and passes over
the same, the engine stays one for its task, and its listing is one that it had before or that the
fresh engine has afterwards. -/
structure Outcome.AsFresh {α : Type} (outcome fresh : Outcome α) (before : Engine)
    (files : FileTree) : Prop where
  value : outcome.value = fresh.value
  notices : outcome.notices = fresh.notices
  task : outcome.engine.SameTask before
  current : outcome.engine.listings.Current files
  listings : outcome.engine.listings = before.listings ∨
    outcome.engine.listings = fresh.engine.listings

/-- Merging an index depends on the style only, not on the table of patterns. -/
theorem mergeIndex_congr {config config' : MergeConfig} (h : config.style = config'.style)
    (patterns patterns' : PatternCache) (index : DocIndex) (location : ClassLocation)
    (source : Text) :
    mergeIndex config patterns index location source =
      mergeIndex config' patterns' index location source := by
  have hwords : Comment.LongWords.ofTable patterns = Comment.LongWords.ofTable patterns' :=
    Subsingleton.elim _ _
  rw [mergeIndex, mergeIndex, h, hwords]

variable [Platform] {engine fresh : Engine} {files : FileTree}

/-- An index is the one that a fresh engine for the same task makes. -/
theorem indexOf_asFresh (hcurrent : engine.listings.Current files) (hfresh : fresh.listings = {})
    (htask : engine.SameTask fresh) (location : ClassLocation) :
    (engine.indexOf files location).AsFresh (fresh.indexOf files location) engine files := by
  obtain ⟨hfragments, hnotices, hlistings, hafter⟩ :=
    engine.library.fragments_eq location.qualifiedName hcurrent
  simp only [indexOf, ← htask.library, ← htask.labels, hfresh, hfragments, hnotices]
  split
  · exact ⟨rfl, rfl, ⟨rfl, rfl, rfl⟩, hafter, hlistings⟩
  next fragments hok =>
    obtain ⟨patterns, hbuild⟩ := DocIndex.exists_build_patterns engine.config.labels
      engine.patterns fresh.patterns location.qualifiedName
      (splitPages location.simpleName fragments).1 (splitPages location.simpleName fragments).2
    rw [hbuild]
    exact ⟨rfl, rfl, ⟨rfl, rfl, rfl⟩, hafter, hlistings⟩

/-- A merge gives what a fresh engine for the same task gives. -/
theorem merge_asFresh (hcurrent : engine.listings.Current files) (hfresh : fresh.listings = {})
    (htask : engine.SameTask fresh) (source name : Text) :
    (engine.merge files source name).AsFresh (fresh.merge files source name) engine files := by
  simp only [merge]
  split
  · exact ⟨rfl, rfl, ⟨rfl, rfl, rfl⟩, hcurrent, .inl rfl⟩
  next location hlocate =>
    have hindex := indexOf_asFresh hcurrent hfresh htask location
    have hself := indexOf_asFresh (hfresh ▸ ListingCache.current_empty files) hfresh
      (⟨rfl, rfl, rfl⟩ : fresh.SameTask fresh) location
    rw [hindex.value, hindex.notices]
    split
    · exact ⟨rfl, rfl, hindex.task, hindex.current, hindex.listings⟩
    next index hok =>
      split_ifs
      · exact ⟨rfl, rfl, hindex.task, hindex.current, hindex.listings⟩
      · -- Earlier warnings are gone, so that only the style is left to agree.
        have hstyle : (engine.indexOf files location).engine.config.style =
            (fresh.indexOf files location).engine.config.style :=
          (hindex.task.style.trans htask.style).trans hself.task.style.symm
        rw [mergeIndex_congr hstyle _ (fresh.indexOf files location).engine.patterns]
        exact ⟨rfl, rfl, ⟨hindex.task.library, hindex.task.labels, hindex.task.style⟩,
          hindex.current, hindex.listings⟩

/-- What sources give one after the other is what each of them gives with a fresh engine. -/
theorem mergeAll_eq (hcurrent : engine.listings.Current files) (hfresh : fresh.listings = {})
    (htask : engine.SameTask fresh) (calls : List (Text × Text)) :
    engine.mergeAll files calls = calls.map fun call =>
      ((fresh.merge files call.1 call.2).value, (fresh.merge files call.1 call.2).notices) := by
  induction calls generalizing engine with
  | nil => rfl
  | cons call calls ih =>
    have hmerge := merge_asFresh hcurrent hfresh htask call.1 call.2
    rw [mergeAll, List.map_cons, hmerge.value, hmerge.notices,
      ih hmerge.current (hmerge.task.trans htask)]

end Engine

/-! ### Merging a directory -/

namespace DirectoryMerge

open Engine

/-- The same merge with another number of workers. -/
def withJobs (merge : DirectoryMerge) (jobs : Int) : DirectoryMerge :=
  { merge with config := { merge.config with jobs := jobs } }

/-- The files once the directory for the file at a path is there. -/
def readied (merge : DirectoryMerge) (files : FileTree) (path : Text) : FileTree :=
  (merge.makeTarget files path).toOption.getD files

/-- A listing is that of a directory among those given. -/
structure Listed (asked : List Text) (listings : ListingCache) (files : FileTree) : Prop where
  mem : ∀ directory ∈ listings.directory, directory ∈ asked
  /-- The names are those in the directory. -/
  current : listings.Current files

theorem Listed.mono {asked : List Text} {listings : ListingCache} {files files' : FileTree}
    (h : Listed asked listings files)
    (hsame : ∀ directory ∈ asked, files'.listing? directory = files.listing? directory) :
    Listed asked listings files' where
  mem := h.mem
  current := by
    intro directory hdirectory
    rw [h.current directory hdirectory, hsame directory (h.mem directory hdirectory)]

theorem listed_empty (asked : List Text) (files : FileTree) : Listed asked {} files :=
  ⟨fun _ h => absurd h (by simp), ListingCache.current_empty files⟩

/-- The work on a file is that of a fresh engine: it gives the same, writes the same and passes over
the same. -/
structure Processed.AsFresh (done alone : Processed) (before : Engine) (tree : FileTree) :
    Prop where
  value : done.value = alone.value
  files : done.files = alone.files
  notices : done.notices = alone.notices
  task : done.engine.SameTask before
  current : done.engine.listings.Current tree
  listings : done.engine.listings = before.listings ∨
    done.engine.listings = alone.engine.listings

variable [Platform] {merge : DirectoryMerge} {engine fresh : Engine} {files : FileTree}

/-- A source that has been read gives what it gives with a fresh engine. -/
theorem mergeText_asFresh (hcurrent : engine.listings.Current files) (hfresh : fresh.listings = {})
    (htask : engine.SameTask fresh) (path fileName source : Text) :
    (mergeText engine files path fileName source).AsFresh
      (mergeText fresh files path fileName source) engine files := by
  simp only [mergeText]
  split_ifs
  · exact ⟨rfl, rfl, ⟨rfl, rfl, rfl⟩, hcurrent, .inl rfl⟩
  · have hmerge := merge_asFresh hcurrent hfresh htask source
      (fileName.take (fileName.length - 5))
    rw [hmerge.value, hmerge.notices]
    split
    · exact ⟨rfl, rfl, hmerge.task, hmerge.current, hmerge.listings⟩
    · exact hmerge

/-- A file gives what it gives with a fresh engine. -/
theorem process_asFresh (path : Text)
    (hcurrent : engine.listings.Current (merge.readied files path)) (hfresh : fresh.listings = {})
    (htask : engine.SameTask fresh) :
    (merge.process files engine path).AsFresh (merge.process files fresh path) engine
      (merge.readied files path) := by
  have hkept : ∀ {done : Processed}, done.engine = engine → ∀ alone : Processed,
      done.value = alone.value → done.files = alone.files → done.notices = alone.notices →
      done.AsFresh alone engine (merge.readied files path) := by
    rintro done rfl alone hvalue hfiles hnotices
    exact ⟨hvalue, hfiles, hnotices, ⟨rfl, rfl, rfl⟩, hcurrent, .inl rfl⟩
  simp only [process]
  cases hmade : merge.makeTarget files path with
  | error fault => exact hkept rfl _ rfl rfl rfl
  | ok made =>
    have hreadied : merge.readied files path = made := by
      rw [readied, hmade]
      rfl
    rw [hreadied] at hcurrent hkept ⊢
    dsimp only
    split_ifs
    · split
      · exact hkept rfl _ rfl rfl rfl
      next text hread =>
        have hmerged := mergeText_asFresh hcurrent hfresh htask (Path.join merge.sourceDir path)
          (Path.baseName path) (normalizeSource text)
        rw [hmerged.value, hmerged.notices]
        split
        · exact ⟨rfl, rfl, rfl, hmerged.task, hmerged.current, hmerged.listings⟩
        · split
          · exact ⟨rfl, rfl, rfl, hmerged.task, hmerged.current, hmerged.listings⟩
          · exact ⟨rfl, rfl, rfl, hmerged.task, hmerged.current, hmerged.listings⟩
    · grind

end DirectoryMerge

end DocGraft
