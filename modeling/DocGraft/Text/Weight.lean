import DocGraft.Text.Basic
import DocGraft.Text.Unassigned

/-!
# Display weight

Comment text is laid out on a grid where a character of East Asian width *wide* or *fullwidth*
takes two cells and every other character takes one. Code points that version 14 of the Unicode
character database leaves unassigned count as wide.
-/

namespace DocGraft.Text

/-- The runs of assigned characters that are wide. -/
def wideRuns : List Nat :=
  [4352,96,4538,2,13,2,190,4,3,1,2,1,521,2,21,2,50,12,43,1,19,1,13,1,8,2,17,2,5,2,8,1,5,1,21,1,7,2,
   1,1,4,1,2,1,7,1,4,2,28,1,35,1,1,1,4,3,1,1,61,3,24,1,14,1,859,2,51,1,4,1,810,26,1,89,12,214,26,12,
   4,63,2,86,2,103,5,43,1,94,1,84,12,47,1,40,8,7024,64,22157,3,55,1177,29,643,11172,8540,366,2,106,
   822,10,22,35,1,19,1,4,149,96,127,7,28665,5,11,2,14,6136,8,1238,42,9,8935,4,1,7,1,2,1,291,45,3,17,
   4,8,396,15624,1,202,1,190,1,2,10,101,3,13,44,4,9,7,2,14,6,154,33,12,9,1,70,1,22,12,43,4,5,12,17,
   3,1,3,71,1,1,1,187,2,63,13,4,1,24,18,1,26,2,13,1,86,85,48,70,6,1,3,3,2,3,5,3,11,2,7,9,227,12,4,1,
   283,47,1,10,1,185,112,5,3,5,3,7,9,29,3,11,5,6,10,10,6,8,8,7,1289,42720,32,4153,7,222,2,5762,14,
   7473,3103,542,1506,4939]

/-- Whether `c` takes two cells. -/
def isWide (c : Char) : Bool :=
  isUnassigned c || inRuns false c.toNat wideRuns

def charWeight (c : Char) : Nat :=
  if isWide c then 2 else 1

def weight : Text → Nat
  | [] => 0
  | c :: s => charWeight c + weight s

end DocGraft.Text
