import DocGraft.Text.Blank
import DocGraft.Text.Word

/-!
# Annotations in declarations

An annotation is `@` with a dotted name and an optional argument list whose parentheses nest at most
two deep. `@interface` is a keyword and not an annotation.
-/

namespace DocGraft.Signature

open Text

/-- Whether `c` can stand in the dotted name of an annotation. -/
def isAnnotationChar (c : Char) : Bool :=
  isWord c || c = '$' || c = '.'

def startsWithInterface (s : Text) : Bool :=
  match after? "interface".toList s with
  | none => false
  | some [] => true
  | some (c :: _) => !isWord c

/-- The length of an argument list from inside its opening parenthesis to the end of its closing
one; `inner` tells whether an inner pair is open. -/
def argumentsTail? : (inner : Bool) → Text → Option Nat
  | _, [] => none
  | true, c :: s =>
    if c = '(' then none else (argumentsTail? (c ≠ ')') s).map (· + 1)
  | false, c :: s =>
    if c = ')' then some 1 else (argumentsTail? (c = '(') s).map (· + 1)

/-- The length of the argument list at the beginning of the text. -/
def argumentsLength? : Text → Option Nat
  | '(' :: s => (argumentsTail? false s).map (· + 1)
  | _ => none

/-- The length of `@` and the dotted name at the beginning of the text. -/
def annotationName? : Text → Option Nat
  | '@' :: s =>
    let n := run isAnnotationChar s
    if n = 0 ∨ startsWithInterface s then none else some (n + 1)
  | _ => none

/-- The length of the annotation at the beginning of the text; white space may stand before the
argument list. -/
def annotationLength? (s : Text) : Option Nat :=
  (annotationName? s).map fun n =>
    let rest := s.drop n
    let gap := run isBlank rest
    match argumentsLength? (rest.drop gap) with
    | some k => n + gap + k
    | none => n

/-- The number of characters that annotations and white space take at the beginning of the text. -/
def annotationsLengthFrom : (fuel : Nat) → Text → Nat
  | 0, _ => 0
  | fuel + 1, s =>
    let gap := run isBlank s
    match annotationName? (s.drop gap) with
    | none => gap
    | some n =>
      let rest := s.drop (gap + n)
      let space := run isBlank rest
      let taken := gap + n + space + (argumentsLength? (rest.drop space)).getD 0
      taken + annotationsLengthFrom fuel (s.drop taken)

/-- The number of characters that annotations and white space take at the beginning of the text. -/
def annotationsLength (s : Text) : Nat :=
  annotationsLengthFrom s.length s

end DocGraft.Signature
