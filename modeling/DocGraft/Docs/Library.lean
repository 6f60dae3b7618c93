import DocGraft.Notice
import DocGraft.Platform
import DocGraft.Text.Lines
import DocGraft.Text.Rule

/-!
# Documentation libraries

The pages of a class are its own page and those of its inner classes. A library holds pages either
in memory, by class name, or as files below a directory: `java/util/Map.html` and
`java/util/Map.Entry.html`.
-/

namespace DocGraft

open Text

/-- A page with the class that it documents. -/
structure Fragment where
  package : Text
  classPath : Text
  markup : Text
deriving DecidableEq, Repr

/-- The names in the directory that was last asked for. -/
structure ListingCache where
  directory : Option Text := none
  /-- The names in it, in order; none if it could not be listed. -/
  names : List Text := []
deriving DecidableEq, Repr

/-- The cache after it was asked for a directory; it looks only at a directory other than the
last. -/
def ListingCache.list (cache : ListingCache) (files : FileTree) (directory : Text) : ListingCache :=
  let directory := Path.resolve directory
  if cache.directory = some directory then cache
  else ⟨some directory, (files.listing? directory).getD []⟩

/-- A set of pages. -/
inductive Library where
  /-- Markup in memory by class name. -/
  | pages (markups : List (Text × Text))
  /-- Files below a directory, in an encoding. -/
  | directory (root encoding : Text)
deriving DecidableEq, Repr

namespace Library

/-- Page markup with line feeds at its line ends, without tabs, and with one form of the wave
dash. -/
def normalizeMarkup (markup : Text) : Text :=
  (expandTabs (unifyBreaks markup)).map fun c => if c = '〜' then '～' else c

structure Lookup where
  /-- The pages of the class, or what stopped the look-up. -/
  fragments : Except Failure (List Fragment)
  listings : ListingCache
  /-- The notices of pages that could not be read. -/
  notices : List Notice

/-! ### Pages in memory -/

/-- The pages of a class in memory: its own, then those of its inner classes by name. -/
def pageFragments (markups : List (Text × Text)) (className : Text) : List Fragment :=
  let (package, simpleName) := cutLast '.' className
  let own := (markups.find? fun page => page.1 = className).map fun page =>
    Fragment.mk package simpleName (normalizeMarkup page.2)
  let inner := markups.filter fun page => startsWith (className ++ ['.']) page.1
  own.toList ++ (inner.mergeSort fun a b => FileTree.textLe a.1 b.1).map fun page =>
    let classPath := if package = [] then page.1 else page.1.drop (package.length + 1)
    ⟨package, classPath, normalizeMarkup page.2⟩

/-! ### Pages in files -/

/-- The names of the class index page in the root of a documentation. -/
def indexPages : List String :=
  ["allclasses-frame.html", "allclasses.html", "allclasses-index.html"]

def isRoot (files : FileTree) (root : Text) : Bool :=
  indexPages.any fun name => files.isFile (Path.join root name.toList)

def pagePath (root className : Text) : Text :=
  (fields '.' className).foldl Path.join root ++ ".html".toList

/-- The class path of the page of an inner class by its file name. -/
def innerPath? (simpleName file : Text) : Option Text :=
  match after? (simpleName ++ ['.']) file with
  | some rest =>
    if endsWith ".html".toList rest && 5 < rest.length && '\n' ∉ rest then
      some (file.take (file.length - 5))
    else none
  | none => none

/-- The markup of a page in a file, or why it cannot be read. -/
def readPage [Platform] (files : FileTree) (encoding path : Text) :
    Except Failure (Except PageFault Text) :=
  match files.read path with
  | .error fault => .ok (.error (.file fault))
  | .ok bytes =>
    match Platform.codec? encoding with
    | none => .error (.unknownEncoding encoding)
    | some codec =>
      match codec.decode? bytes with
      | none => .ok (.error .undecodable)
      | some markup => .ok (.ok (normalizeMarkup markup))

structure Reading where
  /-- The pages that could be read. -/
  fragments : List Fragment := []
  notices : List Notice := []
  failure : Option Failure := none

/-- Reads pages given by path and class path; pages that cannot be read are passed over. -/
def readPages [Platform] (files : FileTree) (encoding package : Text) : List (Text × Text) → Reading
  | [] => {}
  | (path, classPath) :: rest =>
    match readPage files encoding path with
    | .error failure => { failure := some failure }
    | .ok page =>
      let others := readPages files encoding package rest
      match page with
      | .ok markup => { others with fragments := ⟨package, classPath, markup⟩ :: others.fragments }
      | .error fault => { others with notices := .unreadablePage path fault :: others.notices }

/-- The pages of a class in files: its own, then those of its inner classes by file name. -/
def fileFragments [Platform] (files : FileTree) (root encoding className : Text)
    (listings : ListingCache) :
    Lookup :=
  let (package, simpleName) := cutLast '.' className
  let path := pagePath root className
  let directory := Path.directory path
  let own := readPages files encoding package
    (if files.isFile path then [(path, simpleName)] else [])
  match own.failure with
  | some failure => ⟨.error failure, listings, own.notices⟩
  | none =>
    let listings := listings.list files directory
    let inner := readPages files encoding package (listings.names.filterMap fun file =>
      (innerPath? simpleName file).map fun classPath => (Path.join directory file, classPath))
    let notices := own.notices ++ inner.notices
    match inner.failure with
    | some failure => ⟨.error failure, listings, notices⟩
    | none => ⟨.ok (own.fragments ++ inner.fragments), listings, notices⟩

/-- The pages of a class: its own page and then those of its inner classes. -/
def fragments [Platform] (library : Library) (files : FileTree) (className : Text)
    (listings : ListingCache) :
    Lookup :=
  match library with
  | pages markups => ⟨.ok (pageFragments markups className), listings, []⟩
  | directory root encoding => fileFragments files root encoding className listings

end Library

end DocGraft
