import DocGraft.Text.Basic

/-!
# Matching braces

The end of a body is where the count of braces, taken from a starting offset on, comes back to zero
after an opening one.
-/

namespace DocGraft.Source

/-- The offset just past the closing brace that brings the count back to zero; `pos` is the offset
of the first character, `depth` the count so far, and `opened` tells whether an opening brace was
met. -/
def braceEndFrom (pos : Nat) (depth : Int) (opened : Bool) : Text → Option Nat
  | [] => none
  | c :: s =>
    if c = '{' then braceEndFrom (pos + 1) (depth + 1) true s
    else if c = '}' then
      if opened && depth - 1 = 0 then some (pos + 1)
      else braceEndFrom (pos + 1) (depth - 1) opened s
    else braceEndFrom (pos + 1) depth opened s

/-- The offset just past the closing brace of the body that opens at or after offset `start`,
counting every brace from there on. -/
def braceEnd? (masked : Text) (start : Nat) : Option Nat :=
  braceEndFrom start 0 false (masked.drop start)

end DocGraft.Source
