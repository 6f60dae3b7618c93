import DocGraft.Source.DocComment
import DocGraft.Source.Mask
import DocGraft.Text.Word

/-!
# Placeholders

A type declaration without a documentation comment gets a placeholder comment, so that a scan from
comment to comment comes by every type. The placeholder stands at the beginning of the line after
the code that precedes the declaration. A declaration on the same line as that code gets an inline
placeholder right before its modifiers.
-/

namespace DocGraft.Source

open Text

/-- The kinds of placeholder comments. -/
inductive Placeholder where
  /-- A placeholder on a line of its own. -/
  | line
  /-- A placeholder that breaks a line. -/
  | inline
deriving DecidableEq, Repr

def Placeholder.comment : Placeholder → Text
  | line => "/** javadoc-merge placeholder */\n".toList
  | inline => "/** javadoc-merge inline placeholder */\n".toList

/-- The text of a placeholder, which begins with a line end if it breaks a line. -/
def Placeholder.text : Placeholder → Text
  | line => line.comment
  | inline => '\n' :: inline.comment

/-! ### Keywords -/

def declaringKeywords : List String :=
  ["@interface", "class", "interface", "enum"]

/-- The keyword that declares a type and begins here, with white space after it. -/
def typeKeyword? (before : Option Char) (s : Text) : Option String :=
  if before.any fun c => isWord c || c = '$' || c = '.' || c = '@' then none
  else
    declaringKeywords.find? fun keyword =>
      (after? keyword.toList s).any fun rest => rest.head?.any isBlank

/-- The offsets of the keywords that declare a type once `skip` more characters have been passed
over. -/
def typeKeywordsFrom : (pos skip : Nat) → (before : Option Char) → Text → List Nat
  | _, _, _, [] => []
  | pos, skip + 1, _, c :: s => typeKeywordsFrom (pos + 1) skip (some c) s
  | pos, 0, before, c :: s =>
    match typeKeyword? before (c :: s) with
    | some keyword => pos :: typeKeywordsFrom (pos + 1) (keyword.length - 1) (some c) s
    | none => typeKeywordsFrom (pos + 1) 0 (some c) s

def typeKeywords (masked : Text) : List Nat :=
  typeKeywordsFrom 0 0 none masked

/-! ### What precedes a declaration -/

/-- What counts on the way back from a declaration. -/
inductive Mark where
  /-- A character of code with its offset. -/
  | code (offset : Nat) (c : Char)
  /-- A block comment with its offset, and whether it documents what follows. -/
  | comment (offset : Nat) (documents : Bool)
deriving DecidableEq, Repr

def Mark.offset : Mark → Nat
  | code offset _ => offset
  | comment offset _ => offset

/-- The marks of the characters of code from offset `pos` on. -/
def codeMarks (pos : Nat) : Text → List Mark
  | [] => []
  | c :: s => .code pos c :: codeMarks (pos + 1) s

/-- The marks of a segment of the text. -/
def marksOf (text : Text) (segment : Segment) : List Mark :=
  match segment.region with
  | .code => codeMarks segment.start segment.text
  | .blockComment =>
    if endsWith "*/".toList segment.text && 4 ≤ segment.text.length then
      [.comment segment.start (isDocComment text segment && !isBanner segment.text)]
    else []
  | _ => []

/-- What is met first on the way back from a declaration. -/
inductive Precedent where
  /-- A comment that documents the declaration. -/
  | documentation
  /-- The code that ends at an offset. -/
  | code (offset : Nat)
  /-- The beginning of the text. -/
  | beginning
deriving DecidableEq, Repr

/-- What is met first among marks in reverse order; code ends with a separator outside
parentheses, of which `depth` pairs are open. -/
def precedentFrom : (depth : Nat) → List Mark → Precedent
  | _, [] => .beginning
  | depth, .comment _ documents :: rest =>
    if documents then .documentation else precedentFrom depth rest
  | depth, .code offset c :: rest =>
    if c = ')' then precedentFrom (depth + 1) rest
    else if c = '(' then precedentFrom (depth - 1) rest
    else if (c = ';' ∨ c = '{' ∨ c = '}') ∧ depth = 0 then .code offset
    else precedentFrom depth rest

/-- What follows the last occurrence of `needle`, or all of the text. -/
def afterLastOf (needle : Text) : Text → Text
  | [] => []
  | c :: s =>
    let rest := afterLastOf needle s
    if rest.length < s.length then rest
    else
      match after? needle (c :: s) with
      | some tail => tail
      | none => c :: s

/-- The place of the placeholder after the code that ends at `offset`, for the keyword at
`keyword`. -/
def placeAfter (text masked : Text) (offset keyword : Nat) : Nat × Placeholder :=
  match offset? (· = '\n') (slice text (offset + 1) keyword) with
  | some n => (offset + n + 2, .line)
  | none =>
    let tail := afterLastOf "*/".toList (slice masked (offset + 1) keyword)
    let start := keyword - tail.length
    (start + run isBlank (slice text start keyword), .inline)

/-- The placeholder that the type declared by the keyword at an offset needs, with its place;
`marks` are those of the text. -/
def placeholderFor? (text masked : Text) (marks : List Mark) (keyword : Nat) :
    Option (Nat × Placeholder) :=
  match precedentFrom 0 (marks.takeWhile fun mark => mark.offset < keyword).reverse with
  | .documentation => none
  | .beginning => some (0, .line)
  | .code offset => some (placeAfter text masked offset keyword)

/-! ### Insertion -/

/-- Sets the placeholder at a place among placeholders in the order of their places. -/
def setPlaceholder (place : Nat × Placeholder) :
    List (Nat × Placeholder) → List (Nat × Placeholder)
  | [] => [place]
  | p :: rest =>
    if place.1 < p.1 then place :: p :: rest
    else if place.1 = p.1 then place :: rest
    else p :: setPlaceholder place rest

/-- The placeholders of a text in the order of their places; of several at one place the last
stays. -/
def placeholders (text : Text) : List (Nat × Placeholder) :=
  let masked := mask text
  let marks := (segments text).flatMap (marksOf text)
  let found := (typeKeywords masked).filterMap (placeholderFor? text masked marks)
  found.foldl (fun places place => setPlaceholder place places) []

/-- Inserts placeholders into the text from offset `pos` on. -/
def insertFrom : (pos : Nat) → List (Nat × Placeholder) → Text → Text
  | _, [], s => s
  | pos, (place, placeholder) :: rest, s =>
    s.take (place - pos) ++ placeholder.text ++ insertFrom place rest (s.drop (place - pos))

def insertPlaceholders (text : Text) : Text :=
  insertFrom 0 (placeholders text) text

end DocGraft.Source
