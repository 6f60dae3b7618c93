import DocGraft.Text.Basic
import DocGraft.Text.Ranges

/-!
# White space

White space is taken in the wide sense of the Unicode character database: it includes the no-break
and the ideographic space, the separators U+001C to U+001F and U+0085, but not U+200B.
-/

namespace DocGraft.Text

def blankRanges : List (Nat × Nat) :=
  [(0x9, 0xd), (0x1c, 0x20), (0x85, 0x85), (0xa0, 0xa0), (0x1680, 0x1680), (0x2000, 0x200a),
   (0x2028, 0x2029), (0x202f, 0x202f), (0x205f, 0x205f), (0x3000, 0x3000)]

def isBlank (c : Char) : Bool :=
  inRanges c.toNat blankRanges

def trim (s : Text) : Text :=
  trimBoth isBlank s

def trimStart (s : Text) : Text :=
  s.dropWhile isBlank

def allBlank (s : Text) : Bool :=
  s.all isBlank

/-- The maximal runs of characters that are not white space. -/
def words : Text → List Text
  | [] => []
  | c :: s =>
    if isBlank c then words s
    else
      match s with
      | [] => [[c]]
      | d :: _ =>
        if isBlank d then [c] :: words s
        else
          match words s with
          | [] => [[c]]
          | w :: ws => (c :: w) :: ws

/-- The words of the text with one space between any two of them. -/
def squash (s : Text) : Text :=
  joinWith [' '] (words s)

/-- The first word of the text, or nothing if there is none. -/
def firstWord (s : Text) : Text :=
  (words s).headD []

end DocGraft.Text
