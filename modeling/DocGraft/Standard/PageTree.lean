import DocGraft.ParseTree
import DocGraft.Standard.Tag

/-!
# Parse trees of pages

Many end tags may be left out of a page: a start tag closes the elements that cannot contain its
element, an end tag closes everything that is open inside its element, and the end of the page
closes the rest. Comments, declarations, scripts and style sheets are no elements and have no nodes.
A tag closes other elements only if its name stands right after its bracket, apart from elements
without content.
-/

namespace DocGraft.Standard

open Text

/-! ### Nodes by characters -/

/-- A node that stands between two characters of a text. -/
def nodeAt (type : String) (place : Stretch) (children : List ParseTree := []) : ParseTree :=
  .node { type := type.toList, start := place.start, stop := place.stop } children

/-- The numbers of UTF-8 bytes before the characters of a text and at its end, from `n` on. -/
def byteOffsets (n : Nat) : Text → List Nat
  | [] => [n]
  | c :: s => n :: byteOffsets (n + c.utf8Size) s

/-- The line and the column of the characters of a text and of its end, where columns count UTF-8
bytes. -/
def points (line column : Nat) : Text → List (Nat × Nat)
  | [] => [(line, column)]
  | c :: s =>
    (line, column) ::
      if c = '\n' then points (line + 1) 0 s else points line (column + c.utf8Size) s

mutual

/-- The tree with byte offsets in place of offsets, and with the points of its nodes. -/
def inBytes (bytes : Array Nat) (places : Array (Nat × Nat)) : ParseTree → ParseTree
  | .node n children =>
    let last := bytes.back?.getD 0
    .node { n with
      start := bytes.getD n.start last
      stop := bytes.getD n.stop last
      point := places.getD n.start (0, 0) } (allInBytes bytes places children)

def allInBytes (bytes : Array Nat) (places : Array (Nat × Nat)) : List ParseTree → List ParseTree
  | [] => []
  | t :: ts => inBytes bytes places t :: allInBytes bytes places ts

end

/-- The parse tree of a text whose nodes were found by characters. -/
def measured (text : Text) (tree : ParseTree) : ParseTree :=
  inBytes (byteOffsets 0 text).toArray (points 0 0 text).toArray tree

/-! ### Tags -/

def TagAttribute.node (given : TagAttribute) : ParseTree :=
  let value := given.value.map fun place =>
    nodeAt (if given.quoted then "quoted_attribute_value" else "attribute_value") place
  let stop := ((given.value.map Stretch.stop).getD given.name.stop)
  nodeAt "attribute" ⟨given.name.start, stop⟩
    (nodeAt "attribute_name" given.name :: value.toList)

/-- The node of a start tag. -/
def Tag.node (tag : Tag) : ParseTree :=
  nodeAt (if tag.kind = .empty then "self_closing_tag" else "start_tag") ⟨tag.start, tag.stop⟩
    (nodeAt "tag_name" tag.place :: tag.attributes.map TagAttribute.node)

/-! ### Elements -/

/-- An element that is open, with the children it has so far in reverse order. -/
structure Open where
  /-- The tag that opened it. -/
  tag : Tag
  /-- Its name as it is kept. -/
  name : TagName
  /-- The children so far, the last one first. -/
  children : List ParseTree

/-- The node of an element whose content ends at offset `innerStop` and which itself ends at offset
`stop`; an end tag stands between the two. -/
def Open.close (frame : Open) (innerStop stop : Nat) : ParseTree :=
  let closing := if innerStop < stop then [nodeAt "end_tag" ⟨innerStop, stop⟩] else []
  nodeAt "element" ⟨frame.tag.start, stop⟩ (frame.tag.node :: frame.children.reverse ++ closing)

/-- The open elements, innermost first, and the finished nodes outside them in reverse order. -/
structure Build where
  /-- The open elements, innermost first. -/
  stack : List Open := []
  /-- The finished nodes, the last one first. -/
  done : List ParseTree := []

namespace Build

def add (tree : ParseTree) (build : Build) : Build :=
  match build.stack with
  | [] => { build with done := tree :: build.done }
  | frame :: rest =>
    { build with stack := { frame with children := tree :: frame.children } :: rest }

def closeTop (innerStop stop : Nat) (build : Build) : Build :=
  match build.stack with
  | [] => build
  | frame :: rest => add (frame.close innerStop stop) { build with stack := rest }

/-- Closes the innermost `n` open elements at offset `pos`. -/
def closeMany (pos : Nat) : (n : Nat) → Build → Build
  | 0, build => build
  | n + 1, build => closeMany pos n (closeTop pos pos build)

/-- Closes the innermost open elements that cannot hold the element of a tag. -/
def makeRoom (tag : Tag) (build : Build) : Build :=
  let blocked := build.stack.takeWhile fun frame =>
    frame.name.isVoid || (tag.attached && !mayContain frame.name tag.name)
  closeMany tag.start blocked.length build

/-- The number of open elements that an end tag closes before its own: as long as the innermost one
has another name and one of the same kind is open. -/
def inside (name : TagName) : List Open → Nat
  | [] => 0
  | frame :: rest =>
    if frame.name = name then 0
    else if (frame :: rest).any fun other => other.name.sameKind name then inside name rest + 1
    else 0

/-- Takes an end tag into account. -/
def closeFor (tag : Tag) (build : Build) : Build :=
  let n := if tag.attached then inside tag.name build.stack else 0
  let build := closeMany tag.start n build
  if build.stack.head?.any fun frame => frame.name = tag.name then
    closeTop tag.start tag.stop build
  else build

def step (build : Build) (tag : Tag) : Build :=
  match tag.kind with
  | .closing => closeFor tag build
  | .opening =>
    let build := makeRoom tag build
    let name := tag.name.keptAfter (build.stack.map Open.name)
    { build with stack := ⟨tag, name, []⟩ :: build.stack }
  | .empty =>
    add (Open.close ⟨tag, tag.name, []⟩ tag.stop tag.stop) (makeRoom tag build)
  | .raw => makeRoom tag build

end Build

def pageTree (markup : Text) : ParseTree :=
  let build := (tags markup).foldl Build.step {}
  let children := (build.closeMany markup.length build.stack.length).done.reverse
  measured markup (nodeAt "document" ⟨0, markup.length⟩ children)

end DocGraft.Standard
