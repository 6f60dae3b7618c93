import DocGraft.Merge.Engine

/-!
# Merging a directory

All files below a source directory are merged into an output directory. Java sources are merged with
their documentation and other files are copied. One worker takes the files in order and stops at the
first failure. Several workers have all files before them from the start: each takes the next one as
soon as it has nothing to do, and has an engine of its own. The results are waited for in the order
of the files, and after a failure the files that nobody has taken are dropped.
-/

namespace DocGraft

open Text

/-- The directories and the settings of a merge. -/
structure DirectoryMerge where
  sourceDir : Text
  docDir : Text
  outputDir : Text
  config : MergeConfig := {}
deriving DecidableEq, Repr

namespace DirectoryMerge

def library (merge : DirectoryMerge) : Library :=
  .directory merge.docDir merge.config.docEncoding

/-- An engine that has not merged anything yet. -/
def freshEngine (merge : DirectoryMerge) : Engine where
  library := merge.library
  config := merge.config

def checkDocumentation (files : FileTree) (docDir : Text) : Except Failure Unit :=
  if Library.isRoot files docDir then .ok () else .error (.notDocumentation docDir)

def checkSources (files : FileTree) (sourceDir : Text) : Except Failure Unit :=
  if !files.isDirectory sourceDir then .error (.noSources sourceDir)
  else if files.walk sourceDir = [] then .error (.emptySources sourceDir)
  else .ok ()

/-- What is wrong with an output directory beside a source directory. -/
def checkOutput (files : FileTree) (sourceDir outputDir : Text) : Except Failure Unit :=
  if files.place outputDir = files.place sourceDir then .error (.outputIsSource outputDir)
  else .ok ()

/-- What is wrong with the directories: the documentation is looked at first, then the sources, then
the output. -/
def validate (merge : DirectoryMerge) (files : FileTree) : Except Failure Unit := do
  checkDocumentation files merge.docDir
  checkSources files merge.sourceDir
  checkOutput files merge.sourceDir merge.outputDir

/-! ### One file -/

/-- What reading a file as text gives: characters that are not valid are replaced. -/
def readText [Platform] (files : FileTree) (path encoding : Text) : Except Failure Text :=
  match files.read path with
  | .error fault => .error (.file fault)
  | .ok bytes =>
    match Platform.codec? encoding with
    | none => .error (.unknownEncoding encoding)
    | some codec => .ok (codec.decodeLossy bytes)

/-- A source with line feeds at its line ends and without tabs. -/
def normalizeSource (source : Text) : Text :=
  expandTabs (unifyBreaks source)

/-- Writes a text to a file, which is empty if the encoding is unknown. -/
def writeText [Platform] (files : FileTree) (path encoding text : Text) :
    FileTree × Option Failure :=
  match Platform.codec? encoding with
  | none =>
    match files.write path [] with
    | .error fault => (files, some (.file fault))
    | .ok files => (files, some (.unknownEncoding encoding))
  | some codec =>
    match files.write path (codec.encode text) with
    | .error fault => (files, some (.file fault))
    | .ok files => (files, none)

/-- The outcome of the work on a file. -/
structure Processed where
  /-- The result of a source, nothing for another file, or what stopped the work. -/
  value : Except Failure (Option MergeResult)
  files : FileTree
  engine : Engine
  notices : List Notice := []

/-- The name of the sources that document a package. -/
def packageInfo : Text :=
  "package-info.java".toList

/-- Merges a source that has been read. A source that documents a package or does not declare the
type that its name asks for stays as it is. -/
def mergeText [Platform] (engine : Engine) (files : FileTree) (path fileName source : Text) :
    Engine.Outcome MergeResult :=
  if fileName = packageInfo then ⟨.ok { text := source }, engine, []⟩
  else
    let outcome := engine.merge files source (fileName.take (fileName.length - 5))
    match outcome.value with
    | .error (.noSuchType name) =>
      { outcome with
        value := .ok { text := source }
        notices := outcome.notices ++ [.notMerged path (.noSuchType name)] }
    | _ => outcome

/-- The files with the directory into which the file at a path is merged. -/
def makeTarget (merge : DirectoryMerge) (files : FileTree) (path : Text) :
    Except FileFault FileTree :=
  let above := Path.directory (Path.join merge.outputDir path)
  files.makeDirectories (if above = [] then ['.'] else above)

/-- Merges or copies the file at a path below the source directory. -/
def process [Platform] (merge : DirectoryMerge) (files : FileTree) (engine : Engine) (path : Text) :
    Processed :=
  let source := Path.join merge.sourceDir path
  let target := Path.join merge.outputDir path
  let fileName := Path.baseName path
  match merge.makeTarget files path with
  | .error fault => ⟨.error (.file fault), files, engine, []⟩
  | .ok files =>
    if endsWith ".java".toList fileName then
      match readText files source merge.config.sourceEncoding with
      | .error failure => ⟨.error failure, files, engine, []⟩
      | .ok text =>
        let merged := mergeText engine files source fileName (normalizeSource text)
        match merged.value with
        | .error failure => ⟨.error failure, files, merged.engine, merged.notices⟩
        | .ok result =>
          match writeText files target merge.config.outputEncoding result.text with
          | (files, some failure) => ⟨.error failure, files, merged.engine, merged.notices⟩
          | (files, none) =>
            ⟨.ok (some { result with path := some path }), files, merged.engine, merged.notices⟩
    else
      match files.copy source target with
      | .error fault => ⟨.error (.file fault), files, engine, []⟩
      | .ok files => ⟨.ok none, files, engine, []⟩

/-! ### One worker -/

/-- The outcome of the work on several files. -/
structure Outcome where
  /-- The results in the order of the files, or what stopped the work. -/
  value : Except Failure (List MergeResult)
  files : FileTree
  engine : Engine
  notices : List Notice := []

/-- Works on files in order up to the first failure. -/
def processAll [Platform] (merge : DirectoryMerge) : List Text → FileTree → Engine → Outcome
  | [], files, engine => ⟨.ok [], files, engine, []⟩
  | path :: rest, files, engine =>
    let done := merge.process files engine path
    match done.value with
    | .error failure => ⟨.error failure, done.files, done.engine, done.notices⟩
    | .ok result =>
      let others := processAll merge rest done.files done.engine
      { others with
        value := others.value.map fun results => result.toList ++ results
        notices := done.notices ++ others.notices }

/-! ### Several workers -/

/-- What comes of a file. -/
abbrev FileResult := Except Failure (Option MergeResult)

/-- A pool of workers, and how far it has come. -/
structure Pool where
  /-- The number of files that were submitted. -/
  size : Nat
  /-- The files that nobody has taken, by number, in order. -/
  queue : List (Nat × Text)
  /-- The file that each worker has taken. -/
  taken : Nat → Option (Nat × Text) := fun _ => none
  /-- The engine that each worker has made. -/
  engines : Nat → Option Engine := fun _ => none
  /-- What has come of files, by number. -/
  results : List (Nat × FileResult) := []
  files : FileTree
  notices : List Notice := []

namespace Pool

/-- The pool to which files have been submitted. -/
def submit (paths : List Text) (files : FileTree) : Pool where
  size := paths.length
  queue := (List.range paths.length).zip paths
  files := files

/-- What waiting for the results of files by number gives: the results in order or the first
failure, or nothing as long as a result is missing before that. -/
def collect (results : List (Nat × FileResult)) :
    List Nat → Option (Except Failure (List MergeResult))
  | [] => some (.ok [])
  | n :: rest =>
    match results.lookup n with
    | none => none
    | some (.error failure) => some (.error failure)
    | some (.ok result) =>
      (collect results rest).map fun value => value.map fun found => result.toList ++ found

/-- What waiting for all results gives. -/
def value? (pool : Pool) : Option (Except Failure (List MergeResult)) :=
  collect pool.results (List.range pool.size)

/-- Whether a failure has been met while waiting for results in order. -/
def hasFailed (pool : Pool) : Bool :=
  match pool.value? with
  | some (.error _) => true
  | _ => false

/-- Whether no file is left and no worker is at work, of `workers` many. -/
def isDone (pool : Pool) (workers : Nat) : Bool :=
  pool.queue.isEmpty && (List.range workers).all fun worker => (pool.taken worker).isNone

/-- What can happen in a pool. -/
inductive Event where
  /-- A worker takes the next file. -/
  | take (worker : Nat)
  /-- A worker is done with its file. -/
  | finish (worker : Nat)
  /-- The files that nobody has taken are dropped. -/
  | drop
deriving DecidableEq, Repr

def set {α : Type} (f : Nat → α) (worker : Nat) (a : α) : Nat → α := fun n =>
  if n = worker then a else f n

/-- A worker that has nothing to do takes the next file. -/
def take (worker : Nat) (pool : Pool) : Pool :=
  match pool.taken worker, pool.queue with
  | none, file :: rest =>
    { pool with queue := rest, taken := set pool.taken worker (some file) }
  | _, _ => pool

/-- A worker does the work on the file that it has taken, with the engine that it has, or with a
fresh one. -/
def finish [Platform] (merge : DirectoryMerge) (worker : Nat) (pool : Pool) : Pool :=
  match pool.taken worker with
  | none => pool
  | some (n, path) =>
    let engine := (pool.engines worker).getD merge.freshEngine
    let done := merge.process pool.files engine path
    { pool with
      taken := set pool.taken worker none
      engines := set pool.engines worker (some done.engine)
      results := pool.results ++ [(n, done.value)]
      files := done.files
      notices := pool.notices ++ done.notices }

/-- The pool after an event, with `workers` many workers. What cannot happen changes nothing: only
a worker that is there and has nothing to do takes a file, and files are dropped only after a
failure. -/
def step [Platform] (merge : DirectoryMerge) (workers : Nat) (pool : Pool) : Event → Pool
  | .take worker => if worker < workers then pool.take worker else pool
  | .finish worker => pool.finish merge worker
  | .drop => if pool.hasFailed then { pool with queue := [] } else pool

/-- The pool after some events. -/
def run [Platform] (merge : DirectoryMerge) (workers : Nat) (events : List Event) (pool : Pool) :
    Pool :=
  events.foldl (step merge workers) pool

/-- The events in which workers take turns, one file at a time. -/
def turns (workers size : Nat) : List Event :=
  (List.range size).flatMap fun n => [.take (n % workers), .finish (n % workers), .drop]

end Pool

/-! ### All files -/

/-- Merges all files. A single worker goes on with the given engine; several workers take turns here
and start with fresh ones. -/
def run [Platform] (merge : DirectoryMerge) (files : FileTree) (engine : Engine) : Outcome :=
  match merge.validate files with
  | .error failure => ⟨.error failure, files, engine, []⟩
  | .ok () =>
    let paths := files.walk merge.sourceDir
    let workers := merge.config.jobs.toNat
    if workers ≤ 1 then merge.processAll paths files engine
    else
      let pool := (Pool.submit paths files).run merge workers (Pool.turns workers paths.length)
      ⟨pool.value?.getD (.ok []), pool.files, engine, pool.notices⟩

end DirectoryMerge

end DocGraft
