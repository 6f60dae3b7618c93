import DocGraft.Platform
import DocGraft.Text.Blank
import DocGraft.Text.LowerCase

/-!
# Elements of page markup

The elements of a page are the nodes of that type in its parse tree. An element begins with its
start tag, if it has one, and ends with its end tag, unless that is left out. Between two elements
there may be nodes of other types, down to any depth.
-/

namespace DocGraft.Markup

open Text

/-- An attribute has a name in lower case and a value, which may be empty. -/
structure Attribute where
  name : Text
  /-- The value as it is written, without quotes. -/
  value : Text
deriving DecidableEq, Repr

/-- What can be read off an element. -/
structure Element where
  tag : Text
  attributes : List Attribute
  outer : Text
  inner : Text
deriving DecidableEq, Repr

def Element.attribute (element : Element) (name : Text) : Text :=
  ((element.attributes.find? (·.name = name)).map Attribute.value).getD []

def Element.classes (element : Element) : List Text :=
  words (element.attribute "class".toList)

/-! ### Nodes of elements -/

/-- The start tag of an element: its first child, if it is a tag. -/
def startTag? (node : ParseTree) : Option ParseTree :=
  node.children.head?.filter fun child =>
    child.is "start_tag" || child.is "self_closing_tag"

/-- The tag of an element in lower case; empty if it has none. -/
def tagName (source : Bytes) (node : ParseTree) : Text :=
  let name? := (startTag? node).bind fun start =>
    start.children.find? fun child => child.is "tag_name"
  (name?.map fun name => lowerCase (name.text source)).getD []

/-- The attribute of a node, as far as the part `part` of it tells. -/
def readAttributePart (source : Bytes) (given : Attribute) (part : ParseTree) : Attribute :=
  let text := part.text source
  if part.is "attribute_name" then { given with name := lowerCase text }
  else if part.is "attribute_value" then { given with value := text }
  else if part.is "quoted_attribute_value" then
    { given with value := (text.drop 1).dropLast }
  else given

/-- Sets an attribute; a repeated one keeps its place and takes the new value. -/
def setAttribute (a : Attribute) : List Attribute → List Attribute
  | [] => [a]
  | b :: rest => if b.name = a.name then a :: rest else b :: setAttribute a rest

/-- The attributes in the start tag of an element; one without a name does not count. -/
def attributesOf (source : Bytes) (node : ParseTree) : List Attribute :=
  let parts := ((startTag? node).map Tree.children).getD []
  let written := (parts.filter fun part => part.is "attribute").map fun part =>
    part.children.foldl (readAttributePart source) ⟨[], []⟩
  (written.filter fun given => given.name ≠ []).foldl
    (fun found given => setAttribute given found) []

/-- The markup between the start tag and the end tag of an element, which may be left out. -/
def innerMarkup (source : Bytes) (node : ParseTree) : Text :=
  let start := ((startTag? node).map fun tag => tag.label.stop).getD node.label.start
  let closing? := node.children.getLast?.filter fun child => child.is "end_tag"
  let stop := (closing?.map fun tag => tag.label.start).getD node.label.stop
  source.textBetween start stop

def elementOf (source : Bytes) (node : ParseTree) : Element where
  tag := tagName source node
  attributes := attributesOf source node
  outer := node.text source
  inner := innerMarkup source node

mutual

/-- An element with its child elements, and so on down. -/
def elementTree (source : Bytes) : ParseTree → Tree Element
  | .node n children => .node (elementOf source (.node n children)) (elementTrees source children)

/-- The elements among some nodes, each with its child elements. -/
def elementTrees (source : Bytes) : List ParseTree → List (Tree Element)
  | [] => []
  | node :: rest =>
    if node.is "element" then elementTree source node :: elementTrees source rest
    else elementTrees source rest

end

/-! ### Pages -/

/-- A page that has been parsed. -/
structure ParsedPage where
  /-- The UTF-8 bytes of the page. -/
  source : Bytes
  root : ParseTree

def parse [Platform] (markup : Text) : ParsedPage :=
  ⟨Encoding.utf8.encode markup, Platform.html markup⟩

/-- The nodes of the elements whose tag is in `names`, in document order. -/
def elementNodes (names : List Text) (page : ParsedPage) : List ParseTree :=
  Tree.select
    (fun node => node.is "element" && decide (tagName page.source node ∈ names))
    (fun _ => true) [page.root]

/-- The elements whose tag is in `names`, in document order. -/
def elements (names : List Text) (page : ParsedPage) : List (Tree Element) :=
  (elementNodes names page).map (elementTree page.source)

end DocGraft.Markup
