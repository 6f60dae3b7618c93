import DocGraft.Text.Word

/-!
# Letters and digits

The names of tags are made of letters and digits of any script. Vowel signs and other marks that
make up letters count as letters, and numbers that are no digits do not count.
-/

namespace DocGraft.Text

/-- The runs of characters that are not both word characters and letters or digits: the marks that
make up letters on the one hand, the underscore and the other numbers on the other. -/
def unlikeWordRuns : List Nat :=
  [95,1,82,2,5,1,2,3,646,1,618,14,1,1,1,2,1,2,1,1,72,11,48,13,1,7,16,1,101,7,4,4,2,2,4,1,35,1,30,16,
   102,11,101,2,3,9,1,3,1,4,167,12,3,7,6,20,54,2,2,15,1,2,5,3,10,2,29,3,58,7,2,2,2,2,10,1,10,2,16,6,
   7,3,58,5,4,2,2,2,4,1,30,2,3,1,11,3,58,8,1,3,1,2,21,2,22,3,4,3,58,7,2,2,2,2,9,2,10,2,14,6,10,1,59,
   5,3,3,1,3,10,1,24,3,13,4,58,7,1,3,1,3,8,2,11,2,20,7,2,3,58,7,1,3,1,3,8,2,11,2,28,4,58,7,1,3,1,3,
   10,8,3,2,12,9,8,3,75,6,1,1,1,8,18,2,61,1,2,7,18,1,99,1,2,6,1,2,16,1,92,10,61,17,11,11,1,36,110,
   12,1,1,2,4,23,4,4,3,1,3,2,7,3,4,13,12,1,1,10,4,715,20,917,2,30,2,30,2,30,2,66,19,39,10,139,2,34,
   1,118,12,4,9,161,1,60,5,57,10,2,20,74,2,11,3,49,5,48,15,60,3,30,9,2,2,57,11,50,19,432,14,635,1,3,
   6,6,10,198,16,41,1,726,60,26,74,630,30,1385,1,226,32,914,4,138,10,30,8,1,15,32,10,39,15,29620,8,
   34,2,354,1,8,1,23,5,8,6,74,2,50,16,1,1,57,1,38,5,28,12,45,4,48,12,37,1,67,14,12,1,8,2,45,3,50,1,
   1,3,2,2,5,1,44,5,5,1,237,8,20275,1,1512,45,65,4,17,2,341,27,36,4,82,5,1245,8,25,7,39,9,75,5,22,6,
   160,2,2,16,2,46,1,3,1,2,5,4,48,9,52,2,30,3,75,5,104,8,24,8,41,7,330,6,36,4,312,31,44,2,112,10,42,
   4,112,7,52,3,53,14,12,20,13,2,13,1,45,9,9,1,61,3,36,12,18,2,57,3,48,13,14,2,17,20,55,9,2,1,6,1,
   160,10,23,4,58,7,2,2,2,2,10,1,10,2,209,13,1,3,106,18,237,7,2,7,29,2,82,15,1,1,106,11,103,14,15,2,
   240,13,177,9,61,6,1,2,2,2,3,1,1,1,142,7,2,6,4,1,28,10,42,5,1,4,18,11,46,14,407,8,1,7,27,19,37,22,
   1,14,122,6,3,1,1,2,1,3,1,1,3,1,66,5,1,2,1,4,348,4,201,21,19334,7,798,23,184,1,1,55,7,4,93,2,
   19628,1,5697,20,108,25,3207,7,1,17,2,7,1,2,1,5,2204,9,119,1,809,59,1,3,1,4,76,45,1,15,962,13,35,
   26,6,26,6,26]

/-- Whether `c` is a letter or a digit. -/
def isAlphanumeric (c : Char) : Bool :=
  isWord c != inRuns false c.toNat unlikeWordRuns

end DocGraft.Text
