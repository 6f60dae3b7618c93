import DocGraft.Text.Blank
import DocGraft.Text.Rule

/-!
# Preformatted blocks

A preformatted block is what stands between a line `<pre>` and a line `</pre>`. Pages often lose the
line breaks of their blocks, so the blocks of a localized description are filled from those of the
comment in the source. A description can also be joined into one line outside its blocks.
-/

namespace DocGraft.Comment

open Text

/-- A text as a sequence of single characters and preformatted blocks. -/
inductive BlockPart where
  /-- A character outside the blocks. -/
  | outside (c : Char)
  /-- A block with its content. -/
  | block (content : Text)
deriving DecidableEq, Repr

def BlockPart.text : BlockPart → Text
  | outside c => [c]
  | block content => "<pre>\n".toList ++ content ++ "\n</pre>".toList

/-- The content of the block that begins here, which is not empty. -/
def blockAt? (s : Text) : Option Text :=
  match after? "<pre>\n".toList s with
  | some (c :: rest) => (cut? "\n</pre>".toList rest).map fun p => c :: p.1
  | _ => none

/-- The parts of a text once `skip` more characters have been passed over. -/
def blockPartsFrom : (skip : Nat) → Text → List BlockPart
  | _, [] => []
  | skip + 1, _ :: s => blockPartsFrom skip s
  | 0, c :: s =>
    match blockAt? (c :: s) with
    | some content => .block content :: blockPartsFrom (content.length + 12) s
    | none => .outside c :: blockPartsFrom 0 s

def blockParts (s : Text) : List BlockPart :=
  blockPartsFrom 0 s

def blocksOf (parts : List BlockPart) : List Text :=
  parts.filterMap fun
    | .outside _ => none
    | .block content => some content

def blocks (s : Text) : List Text :=
  blocksOf (blockParts s)

/-- The parts with the contents of their blocks taken from a list. -/
def refill : List Text → List BlockPart → List BlockPart
  | content :: contents, .block _ :: parts => .block content :: refill contents parts
  | contents, part :: parts => part :: refill contents parts
  | _, [] => []

/-- A star at the beginning of a line goes away with the white space before it and a space after
it. -/
def starRule : Rule := fun before s =>
  if before.all (· = '\n') then
    let gap := run isBlank s
    match s.drop gap with
    | '*' :: ' ' :: _ => some ([], gap + 2)
    | '*' :: _ => some ([], gap + 1)
    | _ => none
  else none

/-- The description `body` with its preformatted blocks taken from the comment `source`, if both
have equally many. -/
def fillBlocks (source body : Text) : Text :=
  let contents := blocks (substitute starRule source)
  let parts := blockParts body
  if contents ≠ [] ∧ (blocksOf parts).length = contents.length then
    (refill contents parts).flatMap BlockPart.text
  else body

/-- Joins the rest of a description into one line outside preformatted blocks; `done` is the
reversed result so far, and `inside` tells whether a block is open. -/
def joinOutsideFrom : (done : Text) → (inside : Bool) → Text → Text
  | done, _, [] => done.reverse
  | done, inside, c :: s =>
    let next := c :: done
    if startsWith "<pre>".toList.reverse next then
      joinOutsideFrom ("\n<pre>".toList.reverse ++ next.drop 5) true s
    else if startsWith "</pre>".toList.reverse next then joinOutsideFrom ('\n' :: next) false s
    else if c = '\n' ∧ !inside then joinOutsideFrom done inside s
    else joinOutsideFrom next inside s

/-- Removes the line ends outside preformatted blocks; each block gets lines of its own. -/
def joinOutside (body : Text) : Text :=
  joinOutsideFrom [] false body

end DocGraft.Comment
