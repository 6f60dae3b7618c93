import DocGraft.Text.Weight

/-!
# Breaking a line

A line is broken from left to right. Past a lower bound of weight it is broken at a space or after
punctuation and particles, past the width before a tag or a wide character, and past an upper
bound at the last possible place behind. ASCII words stay whole. What is left of a line stays
whole once it is short enough.
-/

namespace DocGraft

/-- How lines are broken. -/
structure WrapSettings where
  /-- A break is looked for from the width less this margin on. -/
  minMargin : Int := 10
  /-- A break is forced past the width and this margin. -/
  maxMargin : Int := 10
  /-- The rest of a line is kept whole if it fits in the width and this margin. -/
  skipMargin : Int := 4
  /-- ASCII runs as long as the width less this margin get a line of their own. -/
  longWordMargin : Int := 20
  /-- A line may end after these characters, and none of them begins a line. -/
  punctuation : Text := "。、」・)\x7d".toList
  /-- A line may end after these characters. -/
  particles : Text := "はがのをにへとらてるや".toList
deriving DecidableEq, Repr

namespace Comment

open Text

/-- What to do at a character of a line. -/
inductive Break where
  /-- The character stays on the line. -/
  | none
  /-- A line end stands in place of the character. -/
  | instead
  /-- The line ends after the character. -/
  | after
  /-- The line ends before the character. -/
  | before
  /-- The line ends at the last possible place behind. -/
  | behind
deriving DecidableEq, Repr

/-- What to do at the character `c`, which `next` follows, when the line has the weight `w` with
it. -/
def breakAt (settings : WrapSettings) (width w : Int) (c next : Char) : Break :=
  if w ≤ width - settings.minMargin then .none
  else if c = ' ' then .instead
  else if c ∈ settings.punctuation ++ settings.particles then
    if next ∈ settings.punctuation ∨ next = ' ' ∨ next = '.' then .none else .after
  else if w ≤ width then .none
  else if c = '<' ∨ 1 < charWeight c then .before
  else if width + settings.maxMargin < w then .behind
  else .none

/-- Looks in the reversed line `rest ++ …` for the last space or wide character that is not the
first character of the line; `tail` is what follows in the line. Gives the reversed line with the
break and the weight after it. -/
def breakBehindFrom (tail : Text) : Text → Option (Text × Nat)
  | c :: d :: rest =>
    if c = ' ' then some (tail.reverse ++ '\n' :: d :: rest, weight tail)
    else if 1 < charWeight c then some (tail.reverse ++ '\n' :: c :: d :: rest, weight tail)
    else breakBehindFrom (c :: tail) (d :: rest)
  | _ => none

/-- Breaks the reversed line `line` of weight `w` at the last possible place, if there is one. -/
def breakBehind (line : Text) (w : Int) : Text × Int :=
  match breakBehindFrom [] line with
  | some (broken, n) => (broken, n)
  | none => (line, w)

/-- Breaks the rest of a line; `line` is the reversed text since the last break, and `w` its
weight. -/
def wrapFrom (settings : WrapSettings) (width : Int) : (line : Text) → (w : Int) → Text → Text
  | line, _, [] => line.reverse
  | line, _, [c] => (c :: line).reverse
  | line, w, c :: d :: s =>
    if w = 0 ∧ weight (c :: d :: s).dropLast ≤ width + settings.skipMargin then
      line.reverse ++ c :: d :: s
    else
      let w' := w + charWeight c
      match breakAt settings width w' c d with
      | .none => wrapFrom settings width (c :: line) w' (d :: s)
      | .instead => line.reverse ++ '\n' :: wrapFrom settings width [] 0 (d :: s)
      | .after => line.reverse ++ c :: '\n' :: wrapFrom settings width [] 0 (d :: s)
      | .before => line.reverse ++ '\n' :: c :: wrapFrom settings width [] 0 (d :: s)
      | .behind =>
        let broken := breakBehind line w'
        wrapFrom settings width (c :: broken.1) broken.2 (d :: s)

/-- The line with its breaks and a line end. -/
def wrapLine (settings : WrapSettings) (width : Int) (line : Text) : Text :=
  wrapFrom settings width [] 0 line ++ ['\n']

end Comment

end DocGraft
