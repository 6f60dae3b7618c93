import DocGraft.CommandLine.Arguments
import DocGraft.Merge.Directory
import DocGraft.Merge.Report
import DocGraft.Standard.Platform

/-!
# Command line sessions

A session reads a command line, merges the directories that it names, prints a summary and writes a
report if one is wanted. What it does to files is worked out on a file tree, on the standard
platform.
-/

namespace DocGraft

inductive Ending where
  /-- All files were merged. -/
  | done
  /-- The directories could not be merged. -/
  | refused
  /-- The command line could not be followed. -/
  | usage (e : UsageError)
  /-- The settings were wrong. -/
  | config (e : ConfigError)
  /-- A directory was struck out on the command line. -/
  | struckOut
  /-- Something stopped the work. -/
  | failed (failure : Failure)
deriving DecidableEq, Repr

/-- What a session did. -/
structure Session where
  ending : Ending
  output : Text := []
  notices : List Notice := []
  files : FileTree

namespace Session

/-- The settings that a command line gives; a width of zero counts as none. -/
def overrides (arguments : Arguments) : ConfigOverrides where
  sourceEncoding := arguments.sourceEncoding
  docEncoding := arguments.docEncoding
  outputEncoding := arguments.outputEncoding
  jobs := arguments.jobs
  layout := (arguments.wrapWidth.filter (· ≠ 0)).map fun width => { initialWidth := some width }

/-- The merge that a command line asks for under given settings, unless a directory is struck out.
-/
def directoryMerge? (arguments : Arguments) (config : MergeConfig) : Option DirectoryMerge :=
  match arguments.sourceDir, arguments.docDir, arguments.outputDir with
  | some source, some doc, some output => some ⟨source, doc, output, config⟩
  | _, _, _ => none

/-- What is wrong with the directories before the first one that is struck out. -/
def checkGiven (arguments : Arguments) (files : FileTree) : Except Failure Unit :=
  match arguments.docDir with
  | none => .ok ()
  | some doc => do
    DirectoryMerge.checkDocumentation files doc
    match arguments.sourceDir with
    | none => .ok ()
    | some source => DirectoryMerge.checkSources files source

/-- Whether a failure is one of the directories as they were given. -/
def isRefusal : Failure → Bool
  | .noSuchType _ | .notDocumentation _ | .noSources _ | .emptySources _ | .outputIsSource _ => true
  | .unknownEncoding _ | .file _ | .badNumber _ => false

/-- Merges directories and writes a report if its path is given. -/
def merge (merge : DirectoryMerge) (report : Option Text) (files : FileTree) : Session :=
  let outcome := merge.run files merge.freshEngine
  match outcome.value with
  | .error failure =>
    if isRefusal failure then
      { ending := .refused
        notices := outcome.notices ++ [.refused failure]
        files := outcome.files }
    else { ending := .failed failure, notices := outcome.notices, files := outcome.files }
  | .ok results =>
    let session : Session := {
      ending := .done
      output := Report.summary results
      notices := outcome.notices
      files := outcome.files }
    match report with
    | none | some [] => session
    | some path =>
      match outcome.files.write path (Encoding.utf8.encode (Report.json results)) with
      | .error fault => { session with ending := .failed (.file fault) }
      | .ok files => { session with files := files }

/-- Works a command line out in an environment. -/
def run (arguments : List Text) (environment : MergeConfig.Environment) (files : FileTree) :
    Session :=
  match Arguments.parse arguments with
  | .error e => { ending := .usage e, files := files }
  | .ok arguments =>
    match MergeConfig.ofEnvironment environment (overrides arguments) with
    | .error e => { ending := .config e, files := files }
    | .ok config =>
      match directoryMerge? arguments config with
      | none =>
        match checkGiven arguments files with
        | .error failure =>
          { ending := .refused, notices := [.refused failure], files := files }
        | .ok () => { ending := .struckOut, files := files }
      | some directories => merge directories arguments.report files

end Session

end DocGraft
