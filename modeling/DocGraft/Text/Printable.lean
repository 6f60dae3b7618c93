import DocGraft.Text.Unassigned

/-!
# Printable characters

A character is printable unless it is a control, format, private or unassigned character, or a
separator other than the ASCII space. Quoted texts in messages show printable characters as they
are. The tables follow version 14 of the Unicode character database.
-/

namespace DocGraft.Text

/-- The runs of assigned characters that are not printable. -/
def unprintableRuns : List Nat :=
  [0,32,95,34,12,1,1362,6,22,1,192,1,49,1,384,2,80,1,3485,1,397,1,2033,16,24,8,47,6,1,10,3984,1,
   45055,6400,1535,1,249,3,4289,1,15,1,9058,9,34919,4,5327,8,798342,1,30,96,65408,65534,2,65534]

def isPrintable (c : Char) : Bool :=
  !(isUnassigned c || inRuns false c.toNat unprintableRuns)

end DocGraft.Text
