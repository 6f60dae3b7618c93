import DocGraft.Source.Segment

/-!
# Masked source text

In the masked text the inside of every comment and literal is blank, while line ends and the
delimiters stay. It has the length of the text, and what it shows of braces, separators and words is
code.
-/

namespace DocGraft

open Text

/-- Spaces for everything but line ends. -/
def Source.blankOut (s : Text) : Text :=
  s.map fun c => if c = '\n' then '\n' else ' '

/-- The text with its inside blank: `head` stays in front, and `tail` at the end if the text ends
with it and both find room. -/
def Source.blankBetween (head tail s : Text) : Text :=
  let kept := if endsWith tail s && head.length + tail.length ≤ s.length then tail else []
  head ++ (Source.blankOut (slice s head.length (s.length - kept.length)) ++ kept)

/-- The text of a segment with its inside blank, unless it is code. -/
def Segment.masked (segment : Segment) : Text :=
  match segment.region with
  | .code => segment.text
  | .lineComment => Source.blankBetween ['/', '/'] [] segment.text
  | .blockComment => Source.blankBetween ['/', '*'] ['*', '/'] segment.text
  | .stringLiteral => Source.blankBetween ['"'] ['"'] segment.text
  | .charLiteral => Source.blankBetween ['\''] ['\''] segment.text
  | .textBlock => Source.blankBetween ['"', '"', '"'] ['"', '"', '"'] segment.text

/-- The text with the inside of its comments and literals blank. -/
def Source.mask (text : Text) : Text :=
  (Source.segments text).flatMap Segment.masked

end DocGraft
