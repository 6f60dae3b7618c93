import DocGraft.CommandLine.Session

/-!
# The command

The command reads the directories that its command line names into a file tree, works the session
out on it, and writes the files that have changed.
-/

namespace DocGraft.Main

def pathOf (components : List Text) : String :=
  String.ofList ('/' :: Text.joinWith ['/'] components)

/-- What stands at a place and below it. -/
partial def load (components : List Text) : IO (List (List Text × Option Bytes)) := do
  try
    let directory ← IO.FS.realPath (pathOf components)
    let names := (← directory.readDir).toList.map fun item => item.fileName.toList
    let parts ← names.mapM fun name => load (components ++ [name])
    return (components, none) :: parts.flatten
  catch _ =>
    try
      let bytes ← IO.FS.readBinFile (pathOf components)
      return [(components, some bytes.toList)]
    catch _ => return []

/-- The directories above a place that exist. -/
def loadAbove (components : List Text) : IO (List (List Text × Option Bytes)) := do
  let mut found := []
  for n in [1:components.length] do
    let above := components.take n
    try
      let directory ← IO.FS.realPath (pathOf above)
      if ← directory.isDir then
        found := found ++ [(above, none)]
    catch _ => pure ()
  return found

def loadTree (arguments : Arguments) : IO FileTree := do
  let working := (Text.fields '/' (← IO.currentDir).toString.toList).filter (· ≠ [])
  let bare : FileTree := { working := working }
  let mut nodes := []
  for path in [arguments.sourceDir, arguments.docDir, arguments.outputDir] do
    if let some path := path then
      let place := bare.place path
      nodes := nodes ++ (← loadAbove place) ++ (← load place)
  if let some report := arguments.report then
    nodes := nodes ++ (← loadAbove (bare.place report))
  return { bare with nodes := nodes.eraseDups }

/-- The environment variables that hold settings. -/
def environment : IO MergeConfig.Environment := do
  let names := ["DOC_ENCODING", "SOURCE_ENCODING", "OUTPUT_ENCODING", "JOBS", "WRAP_WIDTH"]
  let found ← names.mapM fun name => do
    let full := "JAVADOC_MERGE_" ++ name
    return (← IO.getEnv full).map fun value => (full.toList, value.toList)
  return found.filterMap id

/-- Writes what has changed in a file tree. -/
def save (before after : FileTree) : IO Unit :=
  for (components, content) in after.changesSince before do
    match content with
    | none => IO.FS.createDirAll (pathOf components)
    | some bytes => IO.FS.writeBinFile (pathOf components) ⟨bytes.toArray⟩

def complain (text : Text) : IO Unit :=
  IO.eprintln (String.ofList text)

/-- Tells how a session ended. -/
def conclude (ending : Ending) : IO UInt32 :=
  match ending with
  | .done => return 0
  | .refused => return 1
  | .usage .helpWanted => do
    IO.print (String.ofList Arguments.usage)
    return 0
  | .usage e => do
    complain (Arguments.usage ++ "error: ".toList ++ e.message)
    return 2
  | .config e => do
    complain e.message
    return 1
  | .struckOut => do
    complain "a directory was struck out".toList
    return 1
  | .failed failure => do
    complain failure.message
    return 1

end DocGraft.Main

open DocGraft in
/-- Merges what the command line names. -/
def main (argv : List String) : IO UInt32 := do
  let arguments := argv.map String.toList
  let files ← match Arguments.parse arguments with
    | .ok parsed => Main.loadTree parsed
    | .error _ => pure {}
  let session := Session.run arguments (← Main.environment) files
  Main.save files session.files
  for notice in session.notices do
    Main.complain notice.message
  IO.print (String.ofList session.output)
  Main.conclude session.ending
