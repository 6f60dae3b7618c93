import DocGraft.Text.Basic

/-!
# Lines

A line ends with a line feed. The last line of a text need not have one.
-/

namespace DocGraft.Text

/-- The lines of the text; a line feed at its end does not open another line. -/
def lines (s : Text) : List Text :=
  let parts := fields '\n' s
  if parts.getLast? = some [] then parts.dropLast else parts

/-- The number of physical lines; a last line without line feed counts too. -/
def height (s : Text) : Nat :=
  s.count '\n' + if s = [] ∨ s.getLast? = some '\n' then 0 else 1

/-- Puts `lead` in front of every line that follows; `fresh` tells whether a line begins here. -/
def leadLinesFrom (lead : Text) : (fresh : Bool) → Text → Text
  | _, [] => []
  | true, c :: s => lead ++ c :: leadLinesFrom lead (c = '\n') s
  | false, c :: s => c :: leadLinesFrom lead (c = '\n') s

/-- Puts `lead` in front of every line, empty lines included. -/
def leadLines (lead s : Text) : Text :=
  leadLinesFrom lead true s

/-- Applies `f` to each line; the line feeds stay. -/
def mapLines (f : Text → Text) (s : Text) : Text :=
  joinWith ['\n'] ((fields '\n' s).map f)

/-- Writes a line feed for a carriage return, and one for a carriage return with a line feed. -/
def unifyBreaks : Text → Text
  | [] => []
  | '\r' :: '\n' :: s => '\n' :: unifyBreaks s
  | '\r' :: s => '\n' :: unifyBreaks s
  | c :: s => c :: unifyBreaks s

/-- Writes spaces for tabs, of which there is one at every eighth column; `column` is the column of
the first character. -/
def expandTabsFrom (column : Nat) : Text → Text
  | [] => []
  | c :: s =>
    if c = '\t' then
      let gap := 8 - column % 8
      List.replicate gap ' ' ++ expandTabsFrom (column + gap) s
    else if c = '\n' ∨ c = '\r' then c :: expandTabsFrom 0 s
    else c :: expandTabsFrom (column + 1) s

/-- Writes spaces for tabs, of which there is one at every eighth column. -/
def expandTabs (s : Text) : Text :=
  expandTabsFrom 0 s

end DocGraft.Text
