import DocGraft.Platform
import DocGraft.Text.Blank

/-!
# Types at top level

A source is merged for a type that it declares at top level: the walk over its parse tree passes by
what is inside declarations of types, bodies and comments. It goes through everything else, nodes
for errors included.
-/

namespace DocGraft

open Text

/-- The kinds of declared types; a record counts as a class. -/
inductive TypeKind where
  /-- A class or a record. -/
  | classType
  /-- An interface. -/
  | interfaceType
  /-- An enumeration. -/
  | enumType
  /-- An annotation type. -/
  | annotationType
deriving DecidableEq, Repr

def TypeKind.keyword : TypeKind → Text
  | .classType => "class".toList
  | .interfaceType => "interface".toList
  | .enumType => "enum".toList
  | .annotationType => "@interface".toList

/-- The rules for declarations of types, with the kinds that they declare. -/
def TypeKind.rules : List (String × TypeKind) :=
  [("class_declaration", .classType), ("record_declaration", .classType),
   ("interface_declaration", .interfaceType), ("enum_declaration", .enumType),
   ("annotation_type_declaration", .annotationType)]

/-- The kind of the type that a node declares. -/
def TypeKind.ofNode? (node : ParseTree) : Option TypeKind :=
  (rules.find? fun rule => node.is rule.1).map Prod.snd

/-- The top-level type that a source is merged for. -/
structure ClassLocation where
  simpleName : Text
  qualifiedName : Text
  kind : TypeKind
  /-- The line of the declaration, counted from zero. -/
  line : Nat
  /-- The number of UTF-8 bytes before the declaration in its line. -/
  column : Nat
deriving DecidableEq, Repr

def ClassLocation.package? (location : ClassLocation) : Option Text :=
  match (cutLast '.' location.qualifiedName).1 with
  | [] => none
  | package => some package

namespace Source

/-- Whether the walk goes below a node. -/
def isOpen (node : ParseTree) : Bool :=
  (TypeKind.ofNode? node).isNone && !endsWith "_body".toList node.label.type
    && !node.is "block_comment" && !node.is "line_comment"

/-- The declarations of the types at top level in document order. -/
def topLevelTypes (root : ParseTree) : List ParseTree :=
  Tree.select (fun node => (TypeKind.ofNode? node).isSome) isOpen [root]

/-- The name in a declaration of a package. -/
def packageIn? (source : Bytes) (node : ParseTree) : Option Text :=
  if node.is "package_declaration" then
    (node.children.find? fun part =>
      part.is "scoped_identifier" || part.is "identifier").map
        fun part => part.text source
  else none

/-- The name of the package of a source, unless it is empty. -/
def packageName? (source : Bytes) (root : ParseTree) : Option Text :=
  (root.children.findSome? (packageIn? source)).filter (· ≠ [])

/-- The name of the type that a node declares. -/
def declaredName? (source : Bytes) (node : ParseTree) : Option Text :=
  (node.children.find? fun child => child.label.field = some "name".toList).map
    fun child => child.text source

/-- The first top-level type with a name in a parse tree. -/
def locateIn? (source : Bytes) (root : ParseTree) (name : Text) : Option ClassLocation :=
  (topLevelTypes root).findSome? fun node =>
    if declaredName? source node = some name then
      (TypeKind.ofNode? node).map fun kind =>
        let qualified :=
          match packageName? source root with
          | some package => package ++ '.' :: name
          | none => name
        ⟨name, qualified, kind, node.label.point.1, node.label.point.2⟩
    else none

/-- The first top-level type of a source with a name. -/
def locate? [Platform] (text name : Text) : Option ClassLocation :=
  locateIn? (Encoding.utf8.encode text) (Platform.java text) name

end Source

end DocGraft
