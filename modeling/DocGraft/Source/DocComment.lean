import DocGraft.Source.Segment
import DocGraft.Text.Blank

/-!
# Documentation comments in a source

A documentation comment is a block comment that begins with two stars and has only spaces before
it on its line. A banner is such a comment made of stars only.
-/

namespace DocGraft.Source

open Text

/-- The characters between the beginning of its line and an offset, the last one first. -/
def lineLead (text : Text) (offset : Nat) : Text :=
  (text.take offset).reverse.takeWhile (· ≠ '\n')

/-- The offset of the beginning of the line of an offset. -/
def lineStart (text : Text) (offset : Nat) : Nat :=
  offset - (lineLead text offset).length

/-- Whether a segment of the text is a documentation comment. -/
def isDocComment (text : Text) (segment : Segment) : Bool :=
  segment.region = .blockComment && startsWith "/**".toList segment.text
    && (lineLead text segment.start).all (· = ' ')

/-- Whether a comment with white space around it is made of stars only. -/
def isBanner (comment : Text) : Bool :=
  match trim comment with
  | '/' :: '*' :: rest => rest.dropWhile (· = '*') = ['/']
  | _ => false

end DocGraft.Source
