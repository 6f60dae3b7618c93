import DocGraft.Files.FileTree
import DocGraft.Merge.Result
import DocGraft.Text.Quoted

/-!
# Reports

What was merged is told twice: as a summary for people, and as JSON with an indentation of two
spaces in which only quotation marks, backslashes and control characters are escaped.
-/

namespace DocGraft.Report

open Text

/-- The text that stands for a name that is not known. -/
def nameText (name : Option Text) : Text :=
  name.getD "None".toList

/-! ### Summary -/

/-- The path of a result, or its class if there is no path. -/
def placeOf (result : MergeResult) : Option Text :=
  (result.path.filter (· ≠ [])).or result.className

/-- Results ordered by a text; those with the same text stay in order. -/
def sortBy (key : MergeResult → Option Text) (results : List MergeResult) : List MergeResult :=
  results.mergeSort fun a b => FileTree.textLe ((key a).getD []) ((key b).getD [])

def mergedLines (result : MergeResult) : List Text :=
  (" - ".toList ++ nameText result.className ++ " (".toList ++ nameText result.kind ++ ")  ".toList
      ++ ofInt result.replaced ++ " comment(s) replaced".toList)
    :: result.warnings.map fun warning => "      kept original: ".toList ++ warning.keyText

/-- The lines about files that were copied. -/
def copiedLines (results : List MergeResult) : List Text :=
  if results = [] then []
  else
    [] :: "=== COPIED WITHOUT DOCUMENTATION ===".toList
      :: (sortBy placeOf results).map fun result => " - ".toList ++ nameText (placeOf result)

def summary (results : List MergeResult) : Text :=
  let merged := results.filter MergeResult.documented
  let replaced := (results.map MergeResult.replaced).foldl (· + ·) 0
  let warnings := (results.map fun result => result.warnings.length).foldl (· + ·) 0
  let total := ofNat results.length ++ " file(s), ".toList ++ ofNat merged.length
    ++ " merged, ".toList ++ ofInt replaced ++ " comment(s) replaced, ".toList ++ ofNat warnings
    ++ " warning(s)".toList
  let lines := [[], "=== MERGED CLASSES ===".toList]
    ++ (sortBy MergeResult.className merged).flatMap mergedLines
    ++ copiedLines (results.filter fun result => !result.documented) ++ [[], total]
  lines.flatMap fun line => line ++ ['\n']

/-! ### JSON -/

/-- A character as it stands in a JSON string. -/
def escape (c : Char) : Text :=
  if c = '"' ∨ c = '\\' then ['\\', c]
  else if c = '\n' then ['\\', 'n']
  else if c = '\r' then ['\\', 'r']
  else if c = '\t' then ['\\', 't']
  else if c.toNat = 8 then ['\\', 'b']
  else if c.toNat = 12 then ['\\', 'f']
  else if c.toNat < 32 then '\\' :: 'u' :: hexDigits 4 c.toNat
  else [c]

def jsonText (s : Text) : Text :=
  '"' :: s.flatMap escape ++ ['"']

def jsonText? (s : Option Text) : Text :=
  (s.map jsonText).getD "null".toList

/-- Items between brackets, each on a line of its own with an indentation of `n + 2`. -/
def jsonBlock (opening closing : Char) (n : Nat) (items : List Text) : Text :=
  if items = [] then [opening, closing]
  else
    let pad := List.replicate (n + 2) ' '
    opening :: '\n' :: joinWith ",\n".toList (items.map fun item => pad ++ item)
      ++ '\n' :: List.replicate n ' ' ++ [closing]

def jsonField (name : String) (value : Text) : Text :=
  jsonText name.toList ++ ": ".toList ++ value

def jsonWarning (n : Nat) (warning : LayoutWarning) : Text :=
  jsonBlock '{' '}' n
    [jsonField "signature" (jsonText? (warning.key.map SignatureKey.canonical)),
     jsonField "sourceComment" (jsonText warning.source),
     jsonField "rejectedComment" (jsonText warning.rejected)]

def jsonResult (n : Nat) (result : MergeResult) : Text :=
  jsonBlock '{' '}' n
    [jsonField "path" (jsonText? result.path),
     jsonField "className" (jsonText? result.className),
     jsonField "kind" (jsonText? result.kind),
     jsonField "documented" (if result.documented then "true".toList else "false".toList),
     jsonField "replaced" (ofInt result.replaced),
     jsonField "warnings"
       (jsonBlock '[' ']' (n + 2) (result.warnings.map (jsonWarning (n + 4))))]

/-- The JSON text of some results. -/
def json (results : List MergeResult) : Text :=
  jsonBlock '{' '}' 0 [jsonField "files" (jsonBlock '[' ']' 2 (results.map (jsonResult 4)))]

end DocGraft.Report
