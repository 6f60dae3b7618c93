import DocGraft.Text.Blank
import DocGraft.Text.Quoted

/-!
# Integers in text

Settings given as text are decimal integers: digits of any script, with single underscores between
them, an optional sign in front and white space around. There is a limit to the number of digits.
-/

namespace DocGraft.Text

/-- The zeros of the decimal digits; the nine other digits follow each of them. -/
def zeroDigits : List Nat :=
  [0x30, 0x660, 0x6f0, 0x7c0, 0x966, 0x9e6, 0xa66, 0xae6, 0xb66, 0xbe6, 0xc66, 0xce6, 0xd66, 0xde6,
   0xe50, 0xed0, 0xf20, 0x1040, 0x1090, 0x17e0, 0x1810, 0x1946, 0x19d0, 0x1a80, 0x1a90, 0x1b50,
   0x1bb0, 0x1c40, 0x1c50, 0xa620, 0xa8d0, 0xa900, 0xa9d0, 0xa9f0, 0xaa50, 0xabf0, 0xff10, 0x104a0,
   0x10d30, 0x11066, 0x110f0, 0x11136, 0x111d0, 0x112f0, 0x11450, 0x114d0, 0x11650, 0x116c0,
   0x11730, 0x118e0, 0x11950, 0x11c50, 0x11d50, 0x11da0, 0x16a60, 0x16ac0, 0x16b50, 0x1d7ce,
   0x1d7d8, 0x1d7e2, 0x1d7ec, 0x1d7f6, 0x1e140, 0x1e2f0, 0x1e950, 0x1fbf0]

def digitValue? (c : Char) : Option Nat :=
  (zeroDigits.find? fun z => z ≤ c.toNat ∧ c.toNat ≤ z + 9).map (c.toNat - ·)

/-- Why a text denotes no integer. -/
inductive NumeralError where
  /-- The text does not have the form of an integer. -/
  | malformed (text : Text)
  /-- There are more digits than are read. -/
  | tooLong (digits : Nat)
deriving DecidableEq, Repr

/-- The number of digits that an integer may have. -/
def digitLimit : Nat :=
  4300

/-- The wording for a text that denotes no integer; of a long text only the beginning is shown. -/
def NumeralError.message : NumeralError → Text
  | malformed text =>
    "invalid literal for int() with base 10: ".toList ++ (quoted text).take 200
  | tooLong digits =>
    "Exceeds the limit (".toList ++ ofNat digitLimit
      ++ " digits) for integer string conversion: value has ".toList ++ ofNat digits
      ++ " digits; use sys.set_int_max_str_digits() to increase the limit".toList

/-- Whether `c` may stand around an integer: white space, apart from the separators U+001C to
U+001F. -/
def isPadding (c : Char) : Bool :=
  isBlank c && !(0x1c ≤ c.toNat && c.toNat ≤ 0x1f)

/-- The values of the digits at the beginning of a text, among which single underscores may stand,
and what follows them; `fresh` tells that a digit must come next. -/
def leadingDigits? : (fresh : Bool) → Text → Option (List Nat × Text)
  | fresh, [] => if fresh then none else some ([], [])
  | fresh, c :: s =>
    if c = '_' then if fresh then none else leadingDigits? true s
    else
      match digitValue? c with
      | some d => (leadingDigits? false s).map fun p => (d :: p.1, p.2)
      | none => if fresh then none else some ([], c :: s)

/-- The number with the given decimal digits, unless there are too many. -/
def ofDigits (digits : List Nat) : Except NumeralError Nat :=
  if digitLimit < digits.length then .error (.tooLong digits.length)
  else .ok (digits.foldl (fun n d => 10 * n + d) 0)

/-- The number that the text denotes without white space before it, as part of the text `whole`. -/
def toNat (whole s : Text) : Except NumeralError Nat :=
  match leadingDigits? true s with
  | none => .error (.malformed whole)
  | some (digits, rest) =>
    (ofDigits digits).bind fun n => if rest.all isPadding then .ok n else .error (.malformed whole)

def toInt (s : Text) : Except NumeralError Int :=
  match s.dropWhile isPadding with
  | '-' :: r => (toNat s r).map fun n => -(n : Int)
  | '+' :: r => (toNat s r).map Int.ofNat
  | r => (toNat s r).map Int.ofNat

end DocGraft.Text
