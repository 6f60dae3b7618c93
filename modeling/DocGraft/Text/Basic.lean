/-!
# Text

Sources, comments and pages are handled as lists of characters. This module has the operations on
them that know nothing of character classes: looking for a literal text, cutting, joining and
trimming.
-/

namespace DocGraft

/-- A text is the list of its characters, and offsets count characters. -/
abbrev Text := List Char

namespace Text

instance : LawfulBEq Text :=
  List.instLawfulBEq

/-- What follows `lead`, if the text begins with it. -/
def after? : (lead s : Text) → Option Text
  | [], s => some s
  | _ :: _, [] => none
  | a :: lead, c :: s => if a = c then after? lead s else none

def startsWith (lead s : Text) : Bool :=
  (after? lead s).isSome

def endsWith (tail s : Text) : Bool :=
  startsWith tail.reverse s.reverse

/-- The texts before and after the first occurrence of `needle`. -/
def cut? (needle : Text) : Text → Option (Text × Text)
  | [] => if needle = [] then some ([], []) else none
  | c :: s =>
    match after? needle (c :: s) with
    | some rest => some ([], rest)
    | none => (cut? needle s).map fun p => (c :: p.1, p.2)

/-- Whether `needle` occurs in the text. -/
def contains (needle s : Text) : Bool :=
  (cut? needle s).isSome

/-- The number of characters up to and including the first occurrence of `needle`, or all of them.
-/
def lengthThrough (needle s : Text) : Nat :=
  match cut? needle s with
  | some (head, _) => head.length + needle.length
  | none => s.length

/-- The pieces of the text between the occurrences of `sep`; there is always at least one. -/
def fields (sep : Char) : Text → List Text
  | [] => [[]]
  | c :: s =>
    if c = sep then [] :: fields sep s
    else
      match fields sep s with
      | [] => [[c]]
      | f :: fs => (c :: f) :: fs

/-- The pieces with `sep` between any two of them. -/
def joinWith (sep : Text) : List Text → Text
  | [] => []
  | [t] => t
  | t :: ts => t ++ sep ++ joinWith sep ts

/-- The text without its longest tail of characters satisfying `p`. -/
def trimEnd (p : Char → Bool) (s : Text) : Text :=
  (s.reverse.dropWhile p).reverse

/-- The text without its longest head and tail of characters satisfying `p`. -/
def trimBoth (p : Char → Bool) (s : Text) : Text :=
  trimEnd p (s.dropWhile p)

/-- The texts before and after the last occurrence of `sep`; without one, all of it comes after. -/
def cutLast (sep : Char) (s : Text) : Text × Text :=
  let tail := s.reverse.takeWhile (· ≠ sep)
  ((s.reverse.drop (tail.length + 1)).reverse, tail.reverse)

/-- What follows the last occurrence of `sep`, or all of the text. -/
def afterLast (sep : Char) (s : Text) : Text :=
  (cutLast sep s).2

/-- The characters from offset `start` up to offset `stop`. -/
def slice (s : Text) (start stop : Nat) : Text :=
  (s.drop start).take (stop - start)

/-- The length of the longest head of characters satisfying `p`. -/
def run (p : Char → Bool) (s : Text) : Nat :=
  (s.takeWhile p).length

/-- The offset of the first character satisfying `p`. -/
def offset? (p : Char → Bool) : Text → Option Nat
  | [] => none
  | c :: s => if p c then some 0 else (offset? p s).map (· + 1)

def ofNat (n : Nat) : Text :=
  n.repr.toList

/-- The number whose decimal digits go on with a digit. -/
def pushDigit (n : Nat) (c : Char) : Nat :=
  10 * n + (c.toNat - 48)

theorem pushDigit_digitChar (n k : Nat) (h : k < 10) :
    pushDigit n (Nat.digitChar k) = 10 * n + k := by
  have hdigit : ∀ k < 10, (Nat.digitChar k).toNat - 48 = k := by decide
  rw [pushDigit, hdigit k h]

theorem foldl_pushDigit_toDigitsCore (fuel : Nat) {n : Nat} (h : n < fuel) (digits : Text) :
    (Nat.toDigitsCore 10 fuel n digits).foldl pushDigit 0 = digits.foldl pushDigit n := by
  induction fuel generalizing n digits with
  | zero => exact absurd h (Nat.not_lt_zero n)
  | succ fuel ih =>
    have hmod : n % 10 < 10 := Nat.mod_lt n (by decide)
    rw [Nat.toDigitsCore]
    split
    · next hzero =>
      rw [List.foldl_cons, pushDigit_digitChar _ _ hmod]
      exact congrArg (List.foldl pushDigit · digits) (by omega)
    · rw [ih (by omega), List.foldl_cons, pushDigit_digitChar _ _ hmod]
      exact congrArg (List.foldl pushDigit · digits) (by omega)

/-- A number can be told from its numeral. -/
theorem ofNat_inj {m n : Nat} (h : ofNat m = ofNat n) : m = n := by
  have hread : ∀ k, (ofNat k).foldl pushDigit 0 = k := fun k => by
    rw [ofNat, Nat.repr, String.toList_ofList, Nat.toDigits,
      foldl_pushDigit_toDigitsCore (k + 1) (Nat.lt_succ_self k)]
    rfl
  rw [← hread m, h, hread n]

/-- The decimal numeral of an integer, with a minus sign if it is negative. -/
def ofInt : Int → Text
  | .ofNat n => ofNat n
  | .negSucc n => '-' :: ofNat (n + 1)

end Text

end DocGraft
