import DocGraft.Markup.NamedCharacter
import DocGraft.Text.Ranges
import DocGraft.Text.Rule

/-!
# Character references

Page text writes characters by number or by name. Numbers in the range of the control characters
U+0080 to U+009F stand for the characters that old pages mean by them, numbers that are no
characters for the replacement character, and numbers of other invalid code points for nothing.
Names that do not need a semicolon are understood even with more text right after them.
-/

namespace DocGraft.Markup

open Text

/-- The code points meant by the numbers from 0x80 to 0x9f. -/
def controlMeanings : List Nat :=
  [0x20ac, 0x81, 0x201a, 0x192, 0x201e, 0x2026, 0x2020, 0x2021, 0x2c6, 0x2030, 0x160, 0x2039, 0x152,
   0x8d, 0x17d, 0x8f, 0x90, 0x2018, 0x2019, 0x201c, 0x201d, 0x2022, 0x2013, 0x2014, 0x2dc, 0x2122,
   0x161, 0x203a, 0x153, 0x9d, 0x17e, 0x178]

/-- The code points for which a number stands for nothing. -/
def invalidRanges : List (Nat × Nat) :=
  [(0x1, 0x8), (0xb, 0xb), (0xe, 0x1f), (0x7f, 0x7f), (0xfdd0, 0xfdef)]

/-- The text for which the number `n` stands. -/
def numberMeaning (n : Nat) : Text :=
  if n = 0 then ['\ufffd']
  else if 0x80 ≤ n ∧ n ≤ 0x9f then [Char.ofNat (controlMeanings.getD (n - 0x80) 0)]
  else if (0xd800 ≤ n ∧ n ≤ 0xdfff) ∨ 0x10ffff < n then ['\ufffd']
  else if inRanges n invalidRanges ∨ 0xfffe ≤ n % 0x10000 then []
  else [Char.ofNat n]

def hexValue? (c : Char) : Option Nat :=
  if '0' ≤ c ∧ c ≤ '9' then some (c.toNat - '0'.toNat)
  else if 'a' ≤ c ∧ c ≤ 'f' then some (c.toNat - 'a'.toNat + 10)
  else if 'A' ≤ c ∧ c ≤ 'F' then some (c.toNat - 'A'.toNat + 10)
  else none

/-- The number that digits of a base denote. -/
def numberOf (base : Nat) (digits : Text) : Nat :=
  digits.foldl (fun n c => base * n + (hexValue? c).getD 0) 0

/-- The reference by number after `&#`, with the number of characters that it takes there. -/
def numberReference? (s : Text) : Option (Text × Nat) :=
  let semicolon (rest : Text) : Nat := if rest.head? = some ';' then 1 else 0
  let decimal := s.takeWhile Char.isDigit
  match s with
  | c :: rest =>
    let hex := rest.takeWhile fun d => (hexValue? d).isSome
    if decimal ≠ [] then
      let n := decimal.length
      some (numberMeaning (numberOf 10 decimal), n + semicolon (s.drop n))
    else if (c = 'x' ∨ c = 'X') ∧ hex ≠ [] then
      let n := hex.length
      some (numberMeaning (numberOf 16 hex), n + 1 + semicolon (rest.drop n))
    else none
  | [] => none

/-- Whether `c` can stand in the name of a reference. -/
def isNameChar (c : Char) : Bool :=
  c ∉ ['\t', '\n', '\x0c', ' ', '<', '&', '#', ';']

/-- The text for the longest head of `name`, of at most `n` and at least two characters, that is
understood without a semicolon, with what follows it. -/
def longestBare? (name : Text) : (n : Nat) → Option Text
  | 0 | 1 => none
  | n + 2 =>
    ((bareName? (name.take (n + 2))).map (· ++ name.drop (n + 2))).or
      (longestBare? name (n + 1))

/-- The meaning of the name of a reference, which may or may not end with a semicolon. -/
def nameMeaning (name : Text) (semicolon : Bool) : Text :=
  let whole := if semicolon then name ++ [';'] else name
  let exact := if semicolon then closedName? name else bareName? name
  (exact.or (longestBare? whole (whole.length - 1))).getD ('&' :: whole)

/-- The reference after `&`, with the number of characters that it takes there. -/
def reference? (s : Text) : Option (Text × Nat) :=
  match s with
  | '#' :: rest => (numberReference? rest).map fun p => (p.1, p.2 + 1)
  | _ =>
    let name := (s.takeWhile isNameChar).take 32
    if name = [] then none
    else
      let semicolon := (s.drop name.length).head? = some ';'
      some (nameMeaning name semicolon, name.length + if semicolon then 1 else 0)

/-- A reference becomes the text for which it stands. -/
def referenceRule : Rule := fun _ s =>
  match s with
  | '&' :: rest => (reference? rest).map fun p => (p.1, p.2 + 1)
  | _ => none

def unescape (s : Text) : Text :=
  substitute referenceRule s

end DocGraft.Markup
