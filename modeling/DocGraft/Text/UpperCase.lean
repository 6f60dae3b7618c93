import DocGraft.Text.LowerCase

/-!
# Capital letters

The capital letter of a character by itself. A character whose capital form is written with several
characters has none, and the forms of a letter that share a capital, such as the two small sigmas
or the long s, are brought together. Every other character that is the small letter of a capital
has the first such capital.
-/

namespace DocGraft.Text

/-- The further forms of letters with their capitals; the small sharp s has none. -/
def sharedCapitals : List (Nat × Nat) :=
  [(181,924),(223,223),(305,73),(383,83),(453,452),(456,455),(459,458),(498,497),(837,921),
   (962,931),(976,914),(977,920),(981,934),(982,928),(1008,922),(1009,929),(1013,917),(7296,1042),
   (7297,1044),(7298,1054),(7299,1057),(7300,1058),(7301,1058),(7302,1066),(7303,1122),
   (7304,42570),(7835,7776),(8126,921)]

/-- The first code point that runs map to `n`. -/
def firstCapital (n : Nat) : List (Nat × Nat × Nat × Nat) → Nat
  | [] => n
  | (first, last, step, image) :: rest =>
    if image ≤ n ∧ n ≤ image + (last - first) ∧ (n - image) % step = 0 then first + (n - image)
    else firstCapital n rest

def upperChar (c : Char) : Char :=
  if c < 'a' then c
  else if c ≤ 'z' then Char.ofNat (c.toNat - 32)
  else Char.ofNat ((sharedCapitals.lookup c.toNat).getD (firstCapital c.toNat lowerRuns))

end DocGraft.Text
