import DocGraft.Text.Basic
import DocGraft.Text.UpperCase

/-!
# Names of tags

The name of a tag stands for an element of the standard or for another one. Names are compared by
the lowest bytes of their capital letters. The names of the open elements are kept in a record of
limited size; an element for which the record has no room stays open, but its name is forgotten.
-/

namespace DocGraft.Standard

open Text

/-- The names of the elements that have no content. -/
def voidNames : List String :=
  ["area", "base", "basefont", "bgsound", "br", "col", "command", "embed", "frame", "hr", "image",
   "img", "input", "isindex", "keygen", "link", "menuitem", "meta", "nextid", "param", "source",
   "track", "wbr"]

/-- The names of the other elements of the standard. -/
def standardNames : List String :=
  ["a", "abbr", "address", "article", "aside", "audio", "b", "bdi", "bdo", "blockquote", "body",
   "button", "canvas", "caption", "cite", "code", "colgroup", "data", "datalist", "dd", "del",
   "details", "dfn", "dialog", "div", "dl", "dt", "em", "fieldset", "figcaption", "figure",
   "footer", "form", "h1", "h2", "h3", "h4", "h5", "h6", "head", "header", "hgroup", "html", "i",
   "iframe", "ins", "kbd", "label", "legend", "li", "main", "map", "mark", "math", "menu", "meter",
   "nav", "noscript", "object", "ol", "optgroup", "option", "output", "p", "picture", "pre",
   "progress", "q", "rb", "rp", "rt", "rtc", "ruby", "s", "samp", "script", "section", "select",
   "slot", "small", "span", "strong", "style", "sub", "summary", "sup", "svg", "table", "tbody",
   "td", "template", "textarea", "tfoot", "th", "thead", "time", "title", "tr", "u", "ul", "var",
   "video"]

/-- What the name of a tag stands for. -/
inductive TagName where
  /-- An element of the standard. -/
  | standard (name : String)
  /-- Another element, by the bytes of its name. -/
  | custom (bytes : List UInt8)
  /-- An element whose name has been forgotten. -/
  | forgotten
deriving DecidableEq, Repr

/-- The bytes by which names are compared: the lowest byte of the capital letter of each
character. -/
def nameBytes (written : Text) : List UInt8 :=
  written.map fun c => (upperChar c).toNat.toUInt8

namespace TagName

/-- What a name stands for as it is written in a tag. -/
def ofWritten (written : Text) : TagName :=
  let bytes := nameBytes written
  match (voidNames ++ standardNames).find? fun name => nameBytes name.toList = bytes with
  | some name => standard name
  | none => custom bytes

/-- Whether two names stand for elements of one kind; all elements that are not of the standard are
of one kind. -/
def sameKind : TagName → TagName → Bool
  | standard a, standard b => a = b
  | custom _, custom _ => true
  | _, _ => false

/-- The name as it is kept in the record: of a custom one no more than 255 bytes, and zeros from the
first zero on. -/
def kept : TagName → TagName
  | custom bytes =>
    let short := bytes.take 255
    let head := short.takeWhile (· ≠ 0)
    custom (head ++ List.replicate (short.length - head.length) 0)
  | name => name

/-- The number of bytes that a name takes in the record. -/
def cost : TagName → Nat
  | custom bytes => bytes.length + 2
  | _ => 1

/-- The number of bytes of the record of open elements. -/
def recordSize : Nat := 1024

/-- The number of bytes at the head of the record. -/
def recordHead : Nat := 4

/-- The name as it is kept after the names of the elements around it. -/
def keptAfter (name : TagName) (around : List TagName) : TagName :=
  if recordHead + (around.map cost).foldl (· + ·) 0 + name.kept.cost < recordSize then name.kept
  else forgotten

end TagName

/-! ### Containment -/

/-- The names of the elements before which a paragraph ends. -/
def paragraphEnders : List String :=
  ["address", "article", "aside", "blockquote", "details", "div", "dl", "fieldset", "figcaption",
   "figure", "footer", "form", "h1", "h2", "h3", "h4", "h5", "h6", "header", "hr", "main", "nav",
   "ol", "p", "pre", "section"]

def TagName.isVoid : TagName → Bool
  | .standard name => name ∈ voidNames
  | _ => false

/-- Whether an element has one of some names of the standard. -/
def TagName.isAny (names : List String) : TagName → Bool
  | .standard name => name ∈ names
  | _ => false

/-- Whether an element `outer` can hold an element `inner`. -/
def mayContain (outer inner : TagName) : Bool :=
  match outer with
  | .standard "p" => !inner.isAny paragraphEnders
  | .standard "li" => !inner.isAny ["li"]
  | .standard "dt" | .standard "dd" => !inner.isAny ["dt", "dd"]
  | .standard "tr" => !inner.isAny ["tr"]
  | .standard "td" | .standard "th" => !inner.isAny ["td", "th", "tr"]
  | .standard "optgroup" => !inner.isAny ["optgroup"]
  | .standard "rb" | .standard "rt" | .standard "rp" => !inner.isAny ["rb", "rt", "rp"]
  | .standard "colgroup" => inner.isAny ["col"]
  | _ => true

end DocGraft.Standard
