/-!
# Ranges of code points

A property of characters is stored as the list of ranges of code points that have it, in ascending
order. A property that many scripts have a part in is stored as the lengths of its runs: how many
code points do not have it, how many have it, and so on by turns. A mapping of characters is stored
as a list of runs of code points in which the code point and its image go up by the same step.
-/

namespace DocGraft.Text

/-- Whether `n` lies in one of the ranges, which are given by their two ends in ascending order. -/
def inRanges (n : Nat) : List (Nat × Nat) → Bool
  | [] => false
  | (lo, hi) :: rest => if n < lo then false else if n ≤ hi then true else inRanges n rest

/-- Whether `n` lies in an inner run, where the runs, which are given by their lengths, are outer
and inner ones by turns, and the first one is as `inner` says. -/
def inRuns : (inner : Bool) → (n : Nat) → List Nat → Bool
  | _, _, [] => false
  | inner, n, length :: rest => if n < length then inner else inRuns (!inner) (n - length) rest

/-- The image of `n` under the runs, which are given by their first and last code point, their step
and the image of the first one, in ascending order. Other code points are their own image. -/
def mapRuns (n : Nat) : List (Nat × Nat × Nat × Nat) → Nat
  | [] => n
  | (first, last, step, image) :: rest =>
    if n < first then n
    else if n ≤ last then if (n - first) % step = 0 then image + (n - first) else n
    else mapRuns n rest

end DocGraft.Text
