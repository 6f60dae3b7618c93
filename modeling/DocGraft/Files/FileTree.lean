import DocGraft.Files.Path
import DocGraft.Text.Encoding

/-!
# File trees

A file tree holds directories, and files with their bytes. Paths that are not absolute begin at its
working directory. A path leads through directories only, so a component above which there is none
makes it lead nowhere.
-/

namespace DocGraft

/-- What goes wrong with a file. -/
inductive FileFault where
  | missing
  | notDirectory
  | isDirectory
  | occupied
  | sameFile
deriving DecidableEq, Repr

/-- Directories and files, seen from a working directory. -/
structure FileTree where
  /-- The components of the working directory, from the root on. -/
  working : List Text := []
  /-- The components of each path with the bytes of the file there, or nothing for a directory. -/
  nodes : List (List Text × Option Bytes) := []
deriving DecidableEq, Repr

namespace FileTree

open Text

/-! ### Nodes by their components -/

/-- The node with some components; the working directory and those above it are always there. -/
def node? (tree : FileTree) (here : List Text) : Option (Option Bytes) :=
  if here.isPrefixOf tree.working then some none
  else (tree.nodes.find? fun node => node.1 = here).map (·.2)

def setNode (tree : FileTree) (here : List Text) (content : Option Bytes) : FileTree :=
  if tree.nodes.any fun node => node.1 = here then
    { tree with
      nodes := tree.nodes.map fun node => if node.1 = here then (here, content) else node }
  else { tree with nodes := tree.nodes ++ [(here, content)] }

/-! ### Paths -/

/-- Where a path begins: at the root if it is absolute, and otherwise at the working directory. -/
def origin (tree : FileTree) (path : Text) : List Text :=
  if path.head? = some '/' then [] else tree.working

/-- The components of a path from the root on, as far as they can be told from its text. -/
def place (tree : FileTree) (path : Text) : List Text :=
  Path.resolveDots false (tree.origin path ++ fields '/' path)

/-- Follows components from a place; every step leads through a directory. -/
def follow (tree : FileTree) : (here : List Text) → List Text → Except FileFault (List Text)
  | here, [] => .ok here
  | here, c :: rest =>
    match tree.node? here with
    | none => .error .missing
    | some (some _) => .error .notDirectory
    | some none =>
      if c = [] ∨ c = ['.'] then follow tree here rest
      else if c = ['.', '.'] then follow tree here.dropLast rest
      else follow tree (here ++ [c]) rest

/-- The components to which a path leads; the empty path leads nowhere. -/
def locate (tree : FileTree) (path : Text) : Except FileFault (List Text) :=
  if path = [] then .error .missing else tree.follow (tree.origin path) (fields '/' path)

/-- What stands at a path: the bytes of a file, or nothing for a directory. -/
def entry (tree : FileTree) (path : Text) : Except FileFault (Option Bytes) :=
  (tree.locate path).bind fun here =>
    match tree.node? here with
    | some content => .ok content
    | none => .error .missing

def isFile (tree : FileTree) (path : Text) : Bool :=
  match tree.entry path with
  | .ok (some _) => true
  | _ => false

def isDirectory (tree : FileTree) (path : Text) : Bool :=
  match tree.entry path with
  | .ok none => true
  | _ => false

/-! ### Files -/

def read (tree : FileTree) (path : Text) : Except FileFault Bytes :=
  (tree.entry path).bind fun
    | some bytes => .ok bytes
    | none => .error .isDirectory

/-- The tree with some bytes in a file, whose directory must be there. -/
def write (tree : FileTree) (path : Text) (bytes : Bytes) : Except FileFault FileTree :=
  (tree.locate path).bind fun here =>
    match tree.node? here with
    | some none => .error .isDirectory
    | some (some _) => .ok (tree.setNode here (some bytes))
    | none => .ok (tree.setNode here (some bytes))

/-- The tree with a copy of a file, which may not be the file itself. -/
def copy (tree : FileTree) (source target : Text) : Except FileFault FileTree :=
  match tree.entry source, tree.entry target with
  | .ok _, .ok _ =>
    if tree.place source = tree.place target then .error .sameFile
    else (tree.read source).bind (tree.write target)
  | _, _ => (tree.read source).bind (tree.write target)

/-- Makes the directories that `rest` leads through from a place on. -/
def makeFrom (tree : FileTree) : (here : List Text) → List Text → Except FileFault FileTree
  | _, [] => .ok tree
  | here, c :: rest =>
    if c = [] ∨ c = ['.'] then makeFrom tree here rest
    else if c = ['.', '.'] then makeFrom tree here.dropLast rest
    else
      let next := here ++ [c]
      match tree.node? next with
      | some none => makeFrom tree next rest
      | some (some _) => .error (if rest = [] then .occupied else .notDirectory)
      | none => makeFrom (tree.setNode next none) next rest

/-- The tree with a directory at a path, and with the directories above it. -/
def makeDirectories (tree : FileTree) (path : Text) : Except FileFault FileTree :=
  tree.makeFrom (tree.origin path) (fields '/' path)

def remove (tree : FileTree) (path : Text) : Except FileFault FileTree :=
  (tree.locate path).bind fun here =>
    match tree.node? here with
    | some (some _) => .ok { tree with nodes := tree.nodes.filter fun node => node.1 ≠ here }
    | some none => .error .isDirectory
    | none => .error .missing

/-- The nodes that are new or have changed since an earlier tree. -/
def changesSince (tree earlier : FileTree) : List (List Text × Option Bytes) :=
  tree.nodes.filter fun node => node ∉ earlier.nodes

/-! ### Directories -/

/-- The order of texts by code points. -/
def textLe (a b : Text) : Bool :=
  !(b.map Char.toNat < a.map Char.toNat : Bool)

/-- The names of the nodes right below a place that satisfy a condition, in order. -/
def namesBelow (tree : FileTree) (here : List Text) (wanted : Option Bytes → Bool) : List Text :=
  (tree.nodes.filterMap fun node =>
    if node.1.dropLast = here ∧ wanted node.2 then node.1.getLast? else none).mergeSort textLe

/-- The names in the directory at a path, in order. -/
def listing? (tree : FileTree) (path : Text) : Option (List Text) :=
  match tree.locate path with
  | .ok here =>
    if tree.node? here = some none then some (tree.namesBelow here fun _ => true) else none
  | .error _ => none

/-- The paths of the files below a place: first those in it, then those in each directory in it,
where directories nest at most `depth` deep. -/
def walkFrom (tree : FileTree) : (depth : Nat) → (here : List Text) → List (List Text)
  | 0, _ => []
  | depth + 1, here =>
    (tree.namesBelow here Option.isSome).map (fun name => [name]) ++
      (tree.namesBelow here Option.isNone).flatMap fun name =>
        (walkFrom tree depth (here ++ [name])).map (name :: ·)

/-- The paths of the files below the directory at a path, relative to it. -/
def walk (tree : FileTree) (path : Text) : List Text :=
  match tree.locate path with
  | .ok here =>
    if tree.node? here = some none then
      (tree.walkFrom (tree.nodes.length + 1) here).map (joinWith ['/'])
    else []
  | .error _ => []

end FileTree

end DocGraft
