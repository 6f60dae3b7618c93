import DocGraft.Docs.CrossReference
import DocGraft.Docs.Labels
import DocGraft.Markup.CommentText
import DocGraft.Markup.Element
import DocGraft.Markup.PlainText
import DocGraft.Notice

/-!
# Documentation pages

A page has a block for each documented declaration. A block holds the signature, the description and
the entries of the block tags, from which the localized comment of the declaration is read.
-/

namespace DocGraft

open Text Markup

/-- The documentation of one declaration together with its key. -/
structure DocEntry where
  key : SignatureKey
  comment : LocalizedComment
deriving DecidableEq, Repr

namespace Docs

def childElements (tree : Tree Element) : List Element :=
  tree.children.map Tree.label

/-- Whether an element is the block of a declaration: a list item of older pages or a section of
later ones. -/
def isBlock (element : Element) : Bool :=
  let marks : List String :=
    if element.tag = "li".toList then ["blockList"]
    else if element.tag = "section".toList then ["class-description", "description", "detail"]
    else []
  marks.any fun mark => mark.toList ∈ element.classes

/-- Whether an element holds the signature of a block. -/
def isSignature (element : Element) : Bool :=
  element.tag = "pre".toList ||
    (element.tag = "div".toList && ["member-signature", "type-signature"].any fun mark =>
      mark.toList ∈ element.classes)

/-- A clause `throws`, up to the end of the text, goes away. -/
def throwsClauseRule : Rule := fun _ s =>
  match s with
  | [] => none
  | c :: rest =>
    match after? "throws".toList rest with
    | some (d :: _) => if isBlank c && isBlank d then some ([], s.length) else none
    | _ => none

/-- The declaration text in the markup of a signature. -/
def declarationText (markup : Text) : Except NumeralError Text :=
  (readPlainText markup [' ']).map (substituteFirst throwsClauseRule)

/-- A tag of a span or a division goes away. -/
def labelTagRule : Rule := fun _ s =>
  match s with
  | '<' :: rest =>
    let name := (after? ['/'] rest).getD rest
    let tail := (afterAnyCase? "span".toList name).or (afterAnyCase? "div".toList name)
    match tail with
    | some ('>' :: after) => some ([], s.length - after.length)
    | some (c :: after) =>
      if isBlank c then (afterTagEnd? after).map fun rest => ([], s.length - rest.length) else none
    | _ => none
  | _ => none

/-- The text of a deprecation notice without its marker. -/
def dropMarker (markup marker : Text) : Text :=
  let text := trim (replace "&nbsp;".toList [' '] (substitute labelTagRule markup))
  trim ((after? marker text).getD text)

/-- The name of a named entry, up to the end of its code element with a dash after it, and what
follows the dash. -/
def nameThrough? : Text → Option (Text × Text)
  | [] => none
  | c :: s =>
    match (afterAnyCase? "</code>".toList (c :: s)).map trimStart with
    | some ('-' :: rest) => some ([], rest)
    | _ => (nameThrough? s).map fun p => (c :: p.1, p.2)

/-- The name and the description of a named entry. -/
def namedItem? (markup : Text) : Option (Text × Text) :=
  match afterAnyCase? "<code>".toList (trimStart markup) with
  | some (c :: rest) => (nameThrough? rest).map fun p => (c :: p.1, trim p.2)
  | _ => none

/-- Markup of a page as it goes into a comment. -/
def commentMarkup (page : PageContext) (markup : Text) : Text :=
  commentText (page.linkTags markup)

/-- The references in an entry of `@see`. -/
def seeEntries (page : PageContext) (markup : Text) : Except NumeralError (List Text) :=
  match anchors markup with
  | [] => (readPlainText markup).map fun text => [squash text].filter (· ≠ [])
  | found => .ok (found.map fun anchor =>
    ((wholeCodeLink? anchor).bind fun link => page.reference? link.address).getD anchor)

/-- The named entry in the markup of a parameter or an exception, if it is one. -/
def namedTag? (page : PageContext) (markup : Text) : Except NumeralError (Option NamedTag) :=
  match namedItem? markup with
  | none => .ok none
  | some (name, description) =>
    (readPlainText name).map fun name => some ⟨trim name, commentMarkup page description⟩

def addEntry (page : PageContext) (category : TagCategory) (markup : Text)
    (comment : LocalizedComment) : Except NumeralError LocalizedComment :=
  match category with
  | .params => (namedTag? page markup).map fun tag =>
    { comment with params := comment.params ++ tag.toList }
  | .throws => (namedTag? page markup).map fun tag =>
    { comment with throws := comment.throws ++ tag.toList }
  | .returns => .ok { comment with returns := comment.returns ++ [commentMarkup page markup] }
  | .since => (readPlainText markup).map fun text =>
    { comment with sinces := comment.sinces ++ [trim text] }
  | .see => (seeEntries page markup).map fun entries =>
    { comment with sees := comment.sees ++ entries }

/-- Reads the items of a definition list; `category` is that of the last label. -/
def readItems (vocabulary : LabelVocabulary) (page : PageContext) :
    (category : Option TagCategory) → List Element → LocalizedComment →
      Except NumeralError LocalizedComment
  | _, [], comment => .ok comment
  | category, item :: rest, comment =>
    if item.tag = "dt".toList then
      (readPlainText item.outer).bind fun label =>
        readItems vocabulary page (vocabulary.category? label) rest comment
    else
      match category with
      | some c =>
        if item.tag = "dd".toList then
          (addEntry page c (trim item.inner) comment).bind (readItems vocabulary page category rest)
        else readItems vocabulary page category rest comment
      | none => readItems vocabulary page category rest comment

/-- Takes a division of a block into account: the first deprecation notice, or the first
description. -/
def readDivision (vocabulary : LabelVocabulary) (page : PageContext) (division : Element)
    (comment : LocalizedComment) : Except NumeralError LocalizedComment :=
  (readPlainText division.inner).map fun text =>
    match vocabulary.deprecationMarker? text with
    | some marker =>
      if comment.deprecated.isSome then comment
      else
        let notice := commentMarkup page (dropMarker division.inner marker)
        { comment with deprecated := some notice }
    | none =>
      if comment.body.isNone && "block".toList ∈ division.classes then
        { comment with body := some (commentMarkup page (trim division.inner)) }
      else comment

def readParts (vocabulary : LabelVocabulary) (page : PageContext) :
    List (Tree Element) → LocalizedComment → Except NumeralError LocalizedComment
  | [], comment => .ok comment
  | part :: rest, comment =>
    if part.label.tag = "div".toList then
      (readDivision vocabulary page part.label comment).bind (readParts vocabulary page rest)
    else if part.label.tag = "dl".toList then
      (readItems vocabulary page none (childElements part) comment).bind
        (readParts vocabulary page rest)
    else readParts vocabulary page rest comment

/-- The localized comment in the block of a declaration. -/
def readBlock (vocabulary : LabelVocabulary) (page : PageContext) (block : Tree Element) :
    Except NumeralError LocalizedComment :=
  readParts vocabulary page block.children {}

/-- The entry of a block with a signature, or the notice that the signature is none of a
declaration. -/
def readDeclaration (vocabulary : LabelVocabulary) (page : PageContext) (block : Tree Element)
    (signature : Element) : Except NumeralError (Except Notice DocEntry) :=
  (declarationText signature.inner).bind fun declaration =>
    match SignatureKey.ofDeclaration page.owner declaration with
    | .ok key => (readBlock vocabulary page block).map fun comment => .ok ⟨key, comment⟩
    | .error e => .ok (.error (.badPageEntry e page.path))

def blocksOf [Platform] (markup : Text) : List (Tree Element) :=
  (elements ["li".toList, "section".toList] (parse markup)).filter fun tree => isBlock tree.label

structure PageReading where
  /-- The entries, and the notices of blocks that were passed over, in document order. -/
  entries : List (Except Notice DocEntry) := []
  failure : Option NumeralError := none

/-- Reads blocks up to the first one with a number that is too long; a block without signature gives
nothing. -/
def readBlocks (vocabulary : LabelVocabulary) (page : PageContext) :
    List (Tree Element) → PageReading
  | [] => {}
  | block :: rest =>
    match (childElements block).find? isSignature with
    | none => readBlocks vocabulary page rest
    | some signature =>
      match readDeclaration vocabulary page block signature with
      | .error e => { failure := some e }
      | .ok entry =>
        let others := readBlocks vocabulary page rest
        { others with entries := entry :: others.entries }

def readPage [Platform] (vocabulary : LabelVocabulary) (page : PageContext) (markup : Text) :
    PageReading :=
  readBlocks vocabulary page (blocksOf markup)

end Docs

end DocGraft
