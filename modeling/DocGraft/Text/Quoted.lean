import DocGraft.Text.Basic
import DocGraft.Text.Printable

/-!
# Quoted text

Messages quote the texts they speak of. The quote is the apostrophe, unless the text has apostrophes
and no double quotes. A backslash stands before the quote and the backslash; line feed, carriage
return and tab have letters of their own, and every other character that is not printable is written
by its code point in lower-case hexadecimal digits.
-/

namespace DocGraft.Text

/-- The last `n` hexadecimal digits of `k`. -/
def hexDigits : (n k : Nat) → Text
  | 0, _ => []
  | n + 1, k => hexDigits n (k / 16) ++ [Nat.digitChar (k % 16)]

/-- How `c` is written between two quotes `mark`. -/
def quotedChar (mark c : Char) : Text :=
  if c = mark ∨ c = '\\' then ['\\', c]
  else if c = '\n' then ['\\', 'n']
  else if c = '\r' then ['\\', 'r']
  else if c = '\t' then ['\\', 't']
  else if isPrintable c then [c]
  else if c.toNat < 0x100 then '\\' :: 'x' :: hexDigits 2 c.toNat
  else if c.toNat < 0x10000 then '\\' :: 'u' :: hexDigits 4 c.toNat
  else '\\' :: 'U' :: hexDigits 8 c.toNat

def quoted (s : Text) : Text :=
  let mark := if '\'' ∈ s ∧ '"' ∉ s then '"' else '\''
  mark :: (s.flatMap (quotedChar mark) ++ [mark])

end DocGraft.Text
