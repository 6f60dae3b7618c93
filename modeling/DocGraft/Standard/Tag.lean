import DocGraft.Standard.TagName
import DocGraft.Text.Alphanumeric

/-!
# Tags of page markup

A tag opens or closes an element, or is an element of its own. Comments may stand between its parts.
A script or a style sheet is read as one tag together with its content.
-/

namespace DocGraft.Standard

open Text

/-- A stretch of a text. -/
structure Stretch where
  /-- Its offset. -/
  start : Nat
  /-- The offset just past it. -/
  stop : Nat
deriving DecidableEq, Repr

/-- An attribute of a tag. -/
structure TagAttribute where
  name : Stretch
  /-- The value, with its quotes if it has two. -/
  value : Option Stretch := none
  quoted : Bool := false
deriving DecidableEq, Repr

/-- The kinds of tags. -/
inductive TagKind where
  /-- A tag that opens an element. -/
  | opening
  /-- A tag that is an element without content. -/
  | empty
  /-- A tag that closes an element. -/
  | closing
  /-- A script or a style sheet with its content. -/
  | raw
deriving DecidableEq, Repr

/-- A tag of a page with its place. -/
structure Tag where
  kind : TagKind
  /-- The tag name as it is written. -/
  written : Text
  /-- What the name stands for. -/
  name : TagName := .ofWritten written
  /-- Whether the name stands right after the bracket. -/
  attached : Bool := true
  /-- Where the name stands. -/
  place : Stretch
  attributes : List TagAttribute := []
  start : Nat
  stop : Nat
deriving DecidableEq, Repr

/-! ### White space and comments in tags -/

/-- Whether `c` separates the parts of a tag. -/
def isTagSpace (c : Char) : Bool :=
  c = ' ' || (0x9 ≤ c.toNat && c.toNat ≤ 0xd)

/-- The white space before tag names, comments and the ends of empty tags: no control characters
other than those of layout, and no no-break spaces. -/
def looseSpaceRanges : List (Nat × Nat) :=
  [(0x9, 0xd), (0x20, 0x20), (0x1680, 0x1680), (0x2000, 0x2006), (0x2008, 0x200a),
   (0x2028, 0x2029), (0x205f, 0x205f), (0x3000, 0x3000)]

/-- Whether `c` is passed over before tag names, comments and the ends of empty tags. -/
def isLooseSpace (c : Char) : Bool :=
  inRanges c.toNat looseSpaceRanges

/-- The length of the comment at the beginning of a text. -/
def commentLength? (s : Text) : Option Nat :=
  match after? "<!--".toList s with
  | some rest => (cut? "-->".toList rest).map fun p => p.1.length + 7
  | none => none

/-- The length of the comments at the beginning of a text, with the white space before each of them;
at most `fuel` comments are read. -/
def commentsLengthWithin : (fuel : Nat) → Text → Nat
  | 0, _ => 0
  | fuel + 1, s =>
    let space := run isLooseSpace s
    match commentLength? (s.drop space) with
    | some n => space + n + commentsLengthWithin fuel (s.drop (space + n))
    | none => 0

/-- The length of the comments at the beginning of a text, with the white space before each of them.
-/
def commentsLength (s : Text) : Nat :=
  commentsLengthWithin s.length s

/-- The length of what is passed over before a tag name or the end of an empty tag. -/
def looseGap (s : Text) : Nat :=
  let n := commentsLength s
  n + run isLooseSpace (s.drop n)

/-- The length of what is passed over before another part of a tag. -/
def gap (s : Text) : Nat :=
  let n := commentsLength s
  n + run isTagSpace (s.drop n)

/-! ### Reading tags -/

/-- Whether `c` can stand in a tag name. -/
def isTagChar (c : Char) : Bool :=
  c.isAlphanum || c = '-' || c = ':' || isAlphanumeric c

/-- Whether `c` can stand in an attribute name. -/
def isAttributeChar (c : Char) : Bool :=
  !isTagSpace c && c ∉ ['<', '>', '"', '\'', '/', '=']

/-- Whether `c` can stand in an attribute value without quotes. -/
def isValueChar (c : Char) : Bool :=
  !isTagSpace c && c ∉ ['<', '>', '"', '\'', '=']

/-- The value at the beginning of a text up to the quote `mark`; quotes in comments before the value
do not end it. -/
def quotedValue (mark : Char) (s : Text) : Text :=
  let n := commentsLength s
  s.take n ++ (s.drop n).takeWhile (· ≠ mark)

/-- The value of an attribute up to the quote `mark`, where its first quote is at offset `pos`, with
the number of characters that it takes; whether it has a second quote. -/
def quotedStretch (mark : Char) (pos : Nat) (s : Text) : Stretch × Nat × Bool :=
  let n := (quotedValue mark s).length
  if (s.drop n).head? = some mark then (⟨pos, pos + n + 2⟩, n + 2, true)
  else (⟨pos + 1, pos + 1 + n⟩, n + 1, false)

/-- The attribute whose name is `name`, given what follows the name, with the number of characters
up to the end of its value. -/
def attributeAt (name : Stretch) (s : Text) : TagAttribute × Nat :=
  let before := gap s
  match s.drop before with
  | '=' :: rest =>
    let after := gap rest
    let lead := before + 1 + after
    let pos := name.stop + lead
    match rest.drop after with
    | '"' :: t =>
      let (value, n, quoted) := quotedStretch '"' pos t
      (⟨name, some value, quoted⟩, lead + n)
    | '\'' :: t =>
      let (value, n, quoted) := quotedStretch '\'' pos t
      (⟨name, some value, quoted⟩, lead + n)
    | t =>
      let n := run isValueChar t
      (⟨name, some ⟨pos, pos + n⟩, false⟩, lead + n)
  | _ => ({ name }, 0)

/-- The attributes from offset `pos` up to the end of a start tag, whether it ends with a slash, and
the number of characters up to and including its end. At most `fuel` parts are read. -/
def readAttributes : (fuel pos : Nat) → Text → List TagAttribute × Bool × Nat
  | 0, _, _ => ([], false, 0)
  | fuel + 1, pos, s =>
    if startsWith "/>".toList (s.drop (looseGap s)) then ([], true, looseGap s + 2)
    else
      let before := gap s
      match s.drop before with
      | [] => ([], false, before)
      | '>' :: _ => ([], false, before + 1)
      | c :: t =>
        let length := run isAttributeChar (c :: t)
        if length = 0 then
          let (found, slash, k) := readAttributes fuel (pos + before + 1) t
          (found, slash, before + 1 + k)
        else
          let start := pos + before
          let (given, n) := attributeAt ⟨start, start + length⟩ ((c :: t).drop length)
          let taken := length + n
          let (found, slash, k) := readAttributes fuel (start + taken) ((c :: t).drop taken)
          (given :: found, slash, before + taken + k)

/-- The offset just past the first occurrence of `closing`, which is in capitals, in any case, read
from left to right:
`left` is what is still to come of it, and a character that is not the next one is passed over. -/
def rawStop? (closing : Text) : (left : Text) → (pos : Nat) → Text → Option Nat
  | [], pos, _ => some pos
  | _ :: _, _, [] => none
  | a :: left, pos, c :: s =>
    if upperChar c = a then rawStop? closing left (pos + 1) s
    else rawStop? closing closing (pos + 1) s

/-- The number of characters up to and including the end of a tag whose name has been read. -/
def tagEnd (s : Text) : Nat :=
  let n := commentsLength s
  n + lengthThrough ['>'] (s.drop n)

/-- The number of characters of the content and the end tag of a script or a style sheet; `closing`
begins its end tag. -/
def rawLength (closing s : Text) : Nat :=
  match rawStop? closing closing 0 s with
  | some n => n + tagEnd (s.drop n)
  | none => s.length

/-- The tag that begins here, at offset `pos`, if there is one; comments and declarations give no
tag. The number tells how many characters were read. -/
def tagAt (pos : Nat) (s : Text) : Option Tag × Nat :=
  match s with
  | '<' :: '!' :: rest => (none, (commentLength? s).getD (2 + lengthThrough ['>'] rest))
  | '<' :: '/' :: rest =>
    let before := looseGap rest
    let written := (rest.drop before).takeWhile isTagChar
    let lead := before + written.length
    let n := 2 + lead + tagEnd (rest.drop lead)
    if written = [] then (none, 1)
    else
      let attached := before = 0
      let place : Stretch := ⟨pos + 2 + before, pos + 2 + lead⟩
      (some { kind := .closing, written, attached, place, start := pos, stop := pos + n }, n)
  | '<' :: rest =>
    let before := looseGap rest
    let written := (rest.drop before).takeWhile isTagChar
    let tail := rest.drop (before + written.length)
    if written = [] then (none, 1)
    else
      let lead := 1 + before + written.length
      let (attributes, slash, k) := readAttributes (tail.length + 1) (pos + lead) tail
      let n := lead + k
      let tag (kind : TagKind) (n : Nat) : Option Tag × Nat :=
        let attached := before = 0
        let place : Stretch := ⟨pos + 1 + before, pos + lead⟩
        (some { kind, written, attached, place, attributes, start := pos, stop := pos + n }, n)
      if slash then tag .empty n
      else
        match TagName.ofWritten written with
        | .standard "script" => tag .raw (n + rawLength "</SCRIPT".toList (s.drop n))
        | .standard "style" => tag .raw (n + rawLength "</STYLE".toList (s.drop n))
        | _ => tag .opening n
  | _ => (none, 1)

/-- The tags of a text from offset `pos` on, once `skip` more characters have been passed over. -/
def tagsFrom : (pos skip : Nat) → Text → List Tag
  | _, _, [] => []
  | pos, skip + 1, _ :: s => tagsFrom (pos + 1) skip s
  | pos, 0, c :: s =>
    let (tag, n) := tagAt pos (c :: s)
    match tag with
    | some tag => tag :: tagsFrom (pos + 1) (n - 1) s
    | none => tagsFrom (pos + 1) (n - 1) s

def tags (markup : Text) : List Tag :=
  tagsFrom 0 0 markup

end DocGraft.Standard
