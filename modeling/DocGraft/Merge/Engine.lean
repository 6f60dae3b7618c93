import DocGraft.Docs.Index
import DocGraft.Docs.Library
import DocGraft.Merge.Config
import DocGraft.Merge.Result
import DocGraft.Source.Scanner

/-!
# Merge engine

An engine merges the documentation of a library into sources, one source at a time. Between
sources it keeps the patterns that it has made, the last listing of a directory and the
warnings of the last merge. The outcome of a merge does not depend on what it keeps, as long as
the files stay the same.
-/

namespace DocGraft

/-- A library, settings, and what is kept between sources. -/
structure Engine where
  library : Library
  config : MergeConfig := {}
  /-- The patterns made so far. -/
  patterns : PatternCache := .empty
  /-- The last listing of a directory. -/
  listings : ListingCache := {}
  /-- The warnings of the last merge. -/
  warnings : List LayoutWarning := []

namespace Engine

structure Outcome (α : Type) where
  /-- What was made, or what stopped the work. -/
  value : Except Failure α
  engine : Engine
  notices : List Notice := []

/-- The page of the class itself and the pages of its inner classes by class path. -/
def splitPages (simpleName : Text) (fragments : List Fragment) : Option Text × List (Text × Text) :=
  let own := fragments.filter fun fragment => fragment.classPath = simpleName
  let inner := fragments.filter fun fragment => fragment.classPath ≠ simpleName
  (own.getLast?.map Fragment.markup,
    inner.map fun fragment => (fragment.classPath, fragment.markup))

def indexOf [Platform] (engine : Engine) (files : FileTree) (location : ClassLocation) :
    Outcome DocIndex :=
  let lookup := engine.library.fragments files location.qualifiedName engine.listings
  let engine := { engine with listings := lookup.listings }
  match lookup.fragments with
  | .error failure => ⟨.error failure, engine, lookup.notices⟩
  | .ok fragments =>
    let (own, inner) := splitPages location.simpleName fragments
    let built :=
      DocIndex.build engine.config.labels engine.patterns location.qualifiedName own inner
    ⟨match built.failure with
      | none => .ok built.index
      | some e => .error (.badNumber e),
      { engine with patterns := built.patterns }, lookup.notices ++ built.notices⟩

/-- A source with the documentation of an index. -/
structure Merged where
  result : MergeResult
  notices : List Notice
  /-- The patterns that have been asked for. -/
  asked : List Pattern

/-- Merges the documentation of an index into a source, with patterns from a table. -/
def mergeIndex (config : MergeConfig) (patterns : PatternCache) (index : DocIndex)
    (location : ClassLocation) (source : Text) : Merged :=
  let scanner := Scanner.start source location.qualifiedName location.kind
  let synthesize := @Comment.synthesize (.ofTable patterns) config.style
  let visit := scanner.run synthesize index.get?
  let (text, scanner, notices) := visit.scanner.finish
  { result :=
      { text := text
        className := some location.qualifiedName
        kind := some location.kind.keyword
        documented := true
        replaced := scanner.replaced
        warnings := visit.warnings }
    notices := visit.notices ++ notices
    asked := visit.asked }

/-- Merges the documentation of the top-level type `name` into its source. A source without
documentation stays as it is. -/
def merge [Platform] (engine : Engine) (files : FileTree) (source name : Text) :
    Outcome MergeResult :=
  match Source.locate? source name with
  | none => ⟨.error (.noSuchType name), engine, []⟩
  | some location =>
    let indexed := engine.indexOf files location
    match indexed.value with
    | .error failure => ⟨.error failure, indexed.engine, indexed.notices⟩
    | .ok index =>
      if index.isEmpty then
        let result : MergeResult := {
          text := source
          className := some location.qualifiedName
          kind := some location.kind.keyword }
        ⟨.ok result, indexed.engine, indexed.notices⟩
      else
        -- Warnings of an earlier merge go away here and nowhere else.
        let engine := { indexed.engine with warnings := [] }
        let merged := mergeIndex engine.config engine.patterns index location source
        let engine := { engine with
          patterns := engine.patterns.rememberAll merged.asked
          warnings := engine.warnings ++ merged.result.warnings }
        ⟨.ok { merged.result with warnings := engine.warnings }, engine,
          indexed.notices ++ merged.notices⟩

/-- What merging sources one after the other gives, and what is passed over each time. -/
def mergeAll [Platform] (engine : Engine) (files : FileTree) :
    List (Text × Text) → List (Except Failure MergeResult × List Notice)
  | [] => []
  | (source, name) :: rest =>
    let outcome := engine.merge files source name
    (outcome.value, outcome.notices) :: outcome.engine.mergeAll files rest

end Engine

end DocGraft
