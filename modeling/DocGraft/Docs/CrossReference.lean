import DocGraft.Files.Path
import DocGraft.Markup.Anchor
import DocGraft.Markup.PercentCode
import DocGraft.Pattern

/-!
# Cross references

A link from one page to another names a class or a member. In a comment the same target is named
`package.Class#member`, where `java.lang`, the package of the page and the class of the page are
left out.
-/

namespace DocGraft

open Text

/-- The page on which references stand. -/
structure PageContext where
  /-- The package, which may be empty. -/
  package : Text
  /-- The class with the classes around it, such as `Map.Entry`. -/
  classPath : Text
  ownPackage : Rule := Pattern.rule (.ownPackage package)
  ownClass : Rule := Pattern.rule (.ownClass classPath)

namespace PageContext

/-- The patterns of a page; that of its package is asked for only if there is one. -/
def asks (package classPath : Text) : List Pattern :=
  (if package = [] then [] else [.ownPackage package]) ++ [.ownClass classPath]

/-- The context of a page with its patterns taken from a table, and the table after that. -/
def prepare (patterns : PatternCache) (package classPath : Text) : PageContext × PatternCache :=
  ({ package
     classPath
     ownPackage := patterns.value (.ownPackage package)
     ownClass := patterns.value (.ownClass classPath) },
    patterns.rememberAll (asks package classPath))

def owner (page : PageContext) : Text :=
  afterLast '.' page.classPath

/-- The path of the page below the root of the documentation. -/
def path (page : PageContext) : Text :=
  let directory := page.package.map fun c => if c = '.' then '/' else c
  let file := page.classPath ++ ".html".toList
  if directory = [] then file else Path.join directory file

/-! ### Members -/

/-- The name and the parameter types of an anchor `name-type-type-`. -/
def dashedMember? (fragment : Text) : Option (Text × List Text) :=
  let name := fragment.takeWhile Pattern.isJavaName
  match fragment.drop name.length with
  | '-' :: rest =>
    let rest := if rest.getLast? = some '\n' then rest.dropLast else rest
    if name = [] ∨ rest.getLast? ≠ some '-' ∨ '\n' ∈ rest ∨ '(' ∈ fragment then none
    else
      let types := rest.dropLast
      some (name, if types = [] then [] else fields '-' types)
  | _ => none

/-- A comma without white space after it gets a space. -/
def commaRule : Rule := fun _ s =>
  match s with
  | ',' :: c :: _ => if isBlank c then none else some (", ".toList, 1)
  | _ => none

/-- The member named by an anchor on the page of the class `classReference`. -/
def memberReference (fragment classReference : Text) : Text :=
  match dashedMember? fragment with
  | some (name, types) =>
    let types := types.map (replace ":A".toList "[]".toList)
    name ++ '(' :: joinWith ", ".toList types ++ [')']
  | none =>
    let named :=
      match after? "<init>".toList fragment with
      | some rest => afterLast '.' classReference ++ rest
      | none => fragment
    substitute commaRule named

/-! ### References -/

/-- A path without steps up at its beginning. -/
def dropSteps : Text → Text
  | '.' :: '.' :: '/' :: s => dropSteps s
  | s => s

/-- The path of the page that an address leads to. -/
def targetPath (page : PageContext) (path : Text) : Text :=
  if path = [] then page.path
  else dropSteps (Path.resolve (Path.join (Path.directory page.path) path))

/-- Leaves out the names that the page does not need in a reference. -/
def shorten (page : PageContext) (reference : Text) : Text :=
  let plain := substitute
    (Pattern.packageRule (fun c => Pattern.isJavaName c || c = '.') "java.lang".toList)
    reference
  let near := if page.package = [] then plain else substitute page.ownPackage plain
  substitute page.ownClass near

/-- The class or member that an address on the page names, or `none` for an address outside the
documentation. -/
def reference? (page : PageContext) (address : Text) : Option Text :=
  if contains "://".toList address || startsWith "mailto:".toList address
      || startsWith "javascript:".toList address then none
  else
    let path := address.takeWhile (· ≠ '#')
    let fragment := address.drop (path.length + 1)
    let target := page.targetPath path
    if endsWith ".html".toList target then
      let name := (Markup.unquote (target.take (target.length - 5))).map fun c =>
        if c = '/' then '.' else c
      let member :=
        if fragment = [] then [] else '#' :: memberReference (Markup.unquote fragment) name
      some (page.shorten (name ++ member))
    else none

/-- The link tag for a code link. The label is left out if it only repeats the target. -/
def linkTag? (page : PageContext) (link : Markup.CodeLink) : Option Text :=
  (page.reference? (trim link.address)).map fun reference =>
    let label := trim link.label
    let spelled := reference.map fun c => if c = '#' then '.' else c
    "\x7b@link ".toList ++ reference
      ++ (if label = [] || endsWith label spelled then [] else ' ' :: label) ++ "\x7d".toList

/-- The markup with link tags for its code links. -/
def linkTags (page : PageContext) (markup : Text) : Text :=
  substitute (Markup.codeLinkRule page.linkTag?) markup

end PageContext

end DocGraft
