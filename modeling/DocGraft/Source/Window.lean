import DocGraft.Source.Brace
import DocGraft.Source.Segment

/-!
# Windows by integer offsets

A window of a text can be given by integers. An offset below zero counts from the end of the text,
and reading goes on at the beginning of the text when it has come to the end that way. A window may
also go beyond the text; then reading fails where it looks at a character that is not there.
-/

namespace DocGraft.Source

open Text

/-- A character was looked for at an offset at which the text has none. -/
structure OutOfText where
  offset : Int
deriving DecidableEq, Repr

/-- A run of text read in one way, by integer offsets. -/
structure WindowSegment where
  region : Region
  /-- The offset of its first character. -/
  start : Int
  /-- The offset just past it. -/
  stop : Int
  text : Text
deriving DecidableEq, Repr

/-- The place in a text for an offset; one that lies outside is moved to the nearer end. -/
def placeOf (text : Text) (offset : Int) : Nat :=
  min text.length (if offset < 0 then (text.length + offset).toNat else offset.toNat)

def sliceAt (text : Text) (start stop : Int) : Text :=
  slice text (placeOf text start) (placeOf text stop)

/-- The character at an offset of a window that ends at `stop`; there is none at its end or
beyond. -/
def charAt (text : Text) (stop offset : Int) : Except OutOfText (Option Char) :=
  if stop ≤ offset then .ok none
  else if offset < -text.length ∨ text.length ≤ offset then .error ⟨offset⟩
  else .ok (text.drop (placeOf text offset)).head?

def regionOf (text : Text) (stop pos : Int) : Except OutOfText Region := do
  let c ← charAt text stop pos
  let next ← charAt text stop (pos + 1)
  if c = some '/' ∧ next = some '*' then return .blockComment
  else if c = some '/' ∧ next = some '/' then return .lineComment
  else if c = some '"' then
    return if startsWith ['"', '"', '"'] (text.drop (placeOf text pos)) then .textBlock
      else .stringLiteral
  else if c = some '\'' then return .charLiteral
  else return .code

/-- The offset of the first place between two offsets at which `p` holds of the text. -/
def firstAt? (p : Text → Bool) (text : Text) (start stop : Nat) : Option Nat :=
  let window := slice text start stop
  ((List.range window.length).find? fun n => p (window.drop n)).map (start + ·)

/-- The end of code: the next comment or literal at or after the offset, which is not below zero. -/
def codeEnd (text : Text) (stop pos : Int) : Int :=
  let opens (s : Text) : Bool :=
    startsWith ['/', '*'] s || startsWith ['/', '/'] s || s.head? = some '"' || s.head? = some '\''
  ((firstAt? opens text pos.toNat (min text.length stop.toNat)).map Int.ofNat).getD stop

/-- The end of a comment whose closing text is looked for two characters after its offset. -/
def commentEnd (closing : Text) (through : Nat) (text : Text) (stop pos : Int) : Int :=
  ((firstAt? (startsWith closing) text (placeOf text (pos + 2)) (placeOf text stop)).map fun n =>
    Int.ofNat (n + through)).getD stop

/-- The end of a literal that closes with `quote`, read from inside it; at most `fuel` steps are
made. -/
def literalEnd (quote : Text) (text : Text) (stop : Int) :
    (fuel : Nat) → (pos : Int) → Except OutOfText Int
  | 0, pos => .ok pos
  | fuel + 1, pos =>
    if stop ≤ pos then .ok pos
    else
      (charAt text stop pos).bind fun c =>
        if c = some '\\' then literalEnd quote text stop fuel (min (pos + 2) stop)
        else if startsWith quote (text.drop (placeOf text pos)) then
          .ok (min (pos + quote.length) stop)
        else if c = some '\n' ∧ quote.length = 1 then .ok pos
        else literalEnd quote text stop fuel (min (pos + 1) stop)

def regionEnd (region : Region) (text : Text) (stop pos : Int) : Except OutOfText Int :=
  let literal (quote : Text) : Except OutOfText Int :=
    literalEnd quote text stop (stop - pos).toNat (min (pos + quote.length) stop)
  match region with
  | .code => .ok (codeEnd text stop pos)
  | .blockComment => .ok (commentEnd ['*', '/'] 2 text stop pos)
  | .lineComment => .ok (commentEnd ['\n'] 0 text stop pos)
  | .stringLiteral => literal ['"']
  | .charLiteral => literal ['\'']
  | .textBlock => literal ['"', '"', '"']

/-- At most `fuel` segments of a window, from an offset on. -/
def windowFrom (text : Text) (stop : Int) :
    (fuel : Nat) → (pos : Int) → Except OutOfText (List WindowSegment)
  | 0, _ => .ok []
  | fuel + 1, pos =>
    if stop ≤ pos then .ok []
    else do
      let region ← regionOf text stop pos
      let next ← regionEnd region text stop pos
      let rest ← windowFrom text stop fuel next
      return ⟨region, pos, next, sliceAt text pos next⟩ :: rest

/-- The segments of the window of a text from `start` up to `stop`. A window inside the text is cut
as `tokenize` cuts it. -/
def readWindow (text : Text) (start stop : Int) : Except OutOfText (List WindowSegment) :=
  if 0 ≤ start ∧ stop ≤ text.length then
    .ok ((tokenize text start.toNat stop.toNat).map fun segment =>
      ⟨segment.region, segment.start, segment.stop, segment.text⟩)
  else windowFrom text stop (stop - start).toNat start

/-- The offset just past the closing brace of the body that opens at or after an offset. -/
def braceEndAt (masked : Text) (start : Int) : Except OutOfText (Option Int) :=
  if 0 ≤ start then .ok ((braceEnd? masked start.toNat).map Int.ofNat)
  else if start < -masked.length then .error ⟨start⟩
  else
    let turned := masked.drop (placeOf masked start) ++ masked
    .ok ((braceEnd? turned 0).map fun n => start + n)

end DocGraft.Source
