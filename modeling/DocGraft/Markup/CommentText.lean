import DocGraft.Text.Blank
import DocGraft.Text.LowerCase
import DocGraft.Text.Rule
import DocGraft.Text.Word

/-!
# Page markup as comment text

Markup that goes into a source comment is brought to one form: tag names in lower case, nothing that
ends the comment or starts a Unicode escape, and block markup laid out one construct a line.
-/

namespace DocGraft.Markup

open Text

/-- The name of a tag is written in lower case. -/
def tagNameRule : Rule := fun _ s =>
  match s with
  | '<' :: rest =>
    let slash := if rest.head? = some '/' then 1 else 0
    let name := (rest.drop slash).takeWhile isWord
    if name = [] then none
    else some ('<' :: (rest.take slash ++ lowerCase name), 1 + slash + name.length)
  | _ => none

/-- A space at the beginning of a line goes away. -/
def leadingSpaceRule : Rule := fun before s =>
  if before.all (· = '\n') ∧ s.head? = some ' ' then some ([], 1) else none

/-- One of the texts `marks` with the white space before it, and after it if `both`, becomes `lead`,
the mark and `trail`. -/
def blockRule (lead trail : String) (both : Bool) (marks : List String) : Rule := fun _ s =>
  let gap := run isBlank s
  let rest := s.drop gap
  (marks.find? fun mark => startsWith mark.toList rest).map fun mark =>
    let n := gap + mark.length
    (lead.toList ++ mark.toList ++ trail.toList, n + if both then run isBlank (s.drop n) else 0)

/-- Empty paragraphs at the end go away. -/
def trailingParagraphsFrom : (n : Nat) → (taken : Nat) → Text → Option Nat
  | 0, _, _ => none
  | n + 1, taken, s =>
    let gap := run isBlank s
    match after? "<p>".toList (s.drop gap) with
    | none => none
    | some rest =>
      let taken := taken + gap + 3
      if rest = [] ∨ rest = ['\n'] then some taken else trailingParagraphsFrom n taken rest

/-- The number of characters of the empty paragraphs that begin here and end the text. -/
def trailingParagraphs? (s : Text) : Option Nat :=
  trailingParagraphsFrom s.length 0 s

/-- Empty paragraphs at the end go away. -/
def trailingParagraphsRule : Rule := fun _ s =>
  (trailingParagraphs? s).map ([], ·)

/-- A line break in the form of an empty element becomes a plain tag. -/
def lineBreakRule : Rule := fun _ s =>
  (after? "<br".toList s).bind fun rest =>
    let gap := run isBlank rest
    if startsWith "/>".toList (rest.drop gap) then some ("<br>".toList, gap + 5) else none

/-- Applies `f` if `mark` occurs in the text. -/
def ifContains (mark : String) (f : Text → Text) (s : Text) : Text :=
  if contains mark.toList s then f s else s

def layOutPre (s : Text) : Text :=
  replace "</pre>\n</blockquote>".toList "</pre></blockquote>".toList
    (replace "<blockquote>\n<pre>".toList "<blockquote><pre>".toList
      (substitute (blockRule "\n" "\n" true ["<pre>", "</pre>"]) s))

def layOutTable (s : Text) : Text :=
  let rows := substitute (blockRule "\n" "" false ["<table", "</table", "<tr>", "</tr>"]) s
  let cells := substitute (blockRule "\n  " "" false ["<th", "<td"]) rows
  let quotes := substitute (fun _ s =>
    let gap := run isBlank s
    if startsWith "<blockquote>\n<table".toList (s.drop gap) then
      some ("\n\n<blockquote><table".toList, gap + 19)
    else none) cells
  replace "</table>\n</blockquote>".toList "</table></blockquote>".toList quotes

def layOutParagraphs (s : Text) : Text :=
  substitute trailingParagraphsRule (substitute (blockRule "\n\n" "" true ["<p>"]) s)

/-- Lays out the block markup of a text. -/
def layOutBlocks (s : Text) : Text :=
  let s := replace "</p>".toList [] s
  let s := substitute (blockRule "\n" "\n" true ["<blockquote>", "</blockquote>"]) s
  let s := ifContains "<pre>" layOutPre s
  let s := ifContains "<table" layOutTable s
  let s := substitute (blockRule "\n" "" false
    ["<ol>", "</ol>", "<ul>", "</ul>", "<li>", "</li>"]) s
  let s := ifContains "<p>" layOutParagraphs s
  ifContains "<br" (substitute lineBreakRule) s

/-- Writes the end of a comment and the start of a Unicode escape by references. -/
def defuse (s : Text) : Text :=
  replace "\\u".toList "&#92;u".toList (replace "*/".toList "*&#47;".toList s)

/-- Page markup in the form that it has in a source comment. -/
def commentText (markup : Text) : Text :=
  let tagged := '<' ∈ markup
  let named := if tagged then substitute tagNameRule markup else markup
  let plain := substitute leadingSpaceRule (defuse named)
  trim (if tagged then layOutBlocks plain else plain)

end DocGraft.Markup
