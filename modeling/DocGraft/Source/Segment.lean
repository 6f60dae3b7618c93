import DocGraft.Text.Basic

/-!
# Segments of a source text

A Java text is cut into code, comments and literals without a grammar: a segment is a run of text
read in one way. A window of a text is read on its own, except that three double quotes open a text
block even where the window ends between them.
-/

namespace DocGraft

/-- The ways in which source text is read. -/
inductive Region where
  /-- Anything that is neither comment nor literal. -/
  | code
  /-- From `//` up to the end of the line. -/
  | lineComment
  /-- From `/*` to the next `*/`. -/
  | blockComment
  /-- A string in double quotes. -/
  | stringLiteral
  /-- A character in apostrophes. -/
  | charLiteral
  /-- A string in three double quotes on either side. -/
  | textBlock
deriving DecidableEq, Repr

/-- Whether text read in this way is a comment. -/
def Region.isComment : Region → Bool
  | lineComment | blockComment => true
  | _ => false

/-- A run of text read in one way. -/
structure Segment where
  region : Region
  /-- The offset of its first character. -/
  start : Nat
  text : Text
deriving DecidableEq, Repr

def Segment.stop (segment : Segment) : Nat :=
  segment.start + segment.text.length

namespace Source

open Text

/-- How the text at the beginning of a window is read; `beyond` is the text after the window. -/
def regionAt (beyond : Text) : Text → Region
  | '/' :: '*' :: _ => .blockComment
  | '/' :: '/' :: _ => .lineComment
  | '"' :: s => if startsWith ['"', '"'] (s.take 2 ++ beyond) then .textBlock else .stringLiteral
  | '\'' :: _ => .charLiteral
  | _ => .code

/-- The length of the code up to the next comment or literal. -/
def codeLength : Text → Nat
  | [] => 0
  | '/' :: '*' :: _ => 0
  | '/' :: '/' :: _ => 0
  | '"' :: _ => 0
  | '\'' :: _ => 0
  | _ :: s => codeLength s + 1

/-- The length of a block comment from inside its opening to its end. -/
def blockLength : Text → Nat
  | [] => 0
  | '*' :: '/' :: _ => 2
  | _ :: s => blockLength s + 1

/-- The length of a literal from inside its opening `quote` to its end. A backslash takes the next
character with it, and a literal that is not closed ends with its line. -/
def quotedLength (quote : Char) : Text → Nat
  | [] => 0
  | ['\\'] => 1
  | '\\' :: _ :: s => quotedLength quote s + 2
  | c :: s => if c = quote then 1 else if c = '\n' then 0 else quotedLength quote s + 1

/-- The length of a text block from inside its opening quotes to its end. A backslash takes the next
character with it. -/
def blockLiteralLength : Text → Nat
  | [] => 0
  | ['\\'] => 1
  | '\\' :: _ :: s => blockLiteralLength s + 2
  | '"' :: '"' :: '"' :: _ => 3
  | _ :: s => blockLiteralLength s + 1

/-- The length of the segment at the beginning of a window that is read as `region`. -/
def regionLength (region : Region) (s : Text) : Nat :=
  match region with
  | .code => codeLength s
  | .lineComment => run (· ≠ '\n') s
  | .blockComment => (s.take 2).length + blockLength (s.drop 2)
  | .stringLiteral => (s.take 1).length + quotedLength '"' (s.drop 1)
  | .charLiteral => (s.take 1).length + quotedLength '\'' (s.drop 1)
  | .textBlock => (s.take 3).length + blockLiteralLength (s.drop 3)

/-- The segments of a window from the place on where `skip` more characters have been passed over;
`pos` is the offset of the first character and `beyond` the text after the window. -/
def segmentsFrom (beyond : Text) : (pos skip : Nat) → Text → List Segment
  | _, _, [] => []
  | pos, skip + 1, _ :: s => segmentsFrom beyond (pos + 1) skip s
  | pos, 0, c :: s =>
    let region := regionAt beyond (c :: s)
    let n := regionLength region (c :: s)
    ⟨region, pos, (c :: s).take n⟩ :: segmentsFrom beyond (pos + 1) (n - 1) s

/-- The segments of the window of `text` from offset `start` up to offset `stop`. -/
def tokenize (text : Text) (start stop : Nat) : List Segment :=
  segmentsFrom (text.drop stop) start 0 (slice text start stop)

/-- The segments of all of the text. -/
def segments (text : Text) : List Segment :=
  tokenize text 0 text.length

end Source

end DocGraft
