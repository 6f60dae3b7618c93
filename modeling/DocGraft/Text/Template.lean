import DocGraft.Text.Numeral
import DocGraft.Text.Word

/-!
# Replacement templates

What is written for each place of a text can be given by a template. In a template a backslash
stands before the letter of a control character, before the octal number of a character, or before
the name of what is replaced; before another mark it stands for itself.
-/

namespace DocGraft.Text

/-- A piece of a template. -/
inductive TemplatePiece where
  | literal (s : Text)
  /-- The text that is replaced. -/
  | replaced
deriving DecidableEq, Repr

/-- A template is a list of pieces. -/
abbrev Template := List TemplatePiece

/-- What is wrong with a template. -/
inductive TemplateError where
  /-- A backslash stands before something that has no meaning. -/
  | badEscape
  /-- There is nothing with the name. -/
  | unknownName (name : Text)
deriving DecidableEq, Repr

namespace Template

/-- The control characters by their letters, and the backslash. -/
def letterEscapes : List (Char × Nat) :=
  [('a', 7), ('b', 8), ('f', 12), ('n', 10), ('r', 13), ('t', 9), ('v', 11), ('\\', 92)]

/-- Whether `c` is an octal digit. -/
def isOctal (c : Char) : Bool :=
  '0' ≤ c ∧ c ≤ '7'

/-- The character with an octal number, of which the lowest byte counts. -/
def octalChar (digits : Text) : Char :=
  Char.ofNat (digits.foldl (fun n c => 8 * n + (c.toNat - '0'.toNat)) 0 % 256)

/-- Whether a text is a name. -/
def isName : Text → Bool
  | [] => false
  | c :: s => isWord c && (digitValue? c).isNone && s.all isWord

/-- The piece for a name or a number; the only number is zero. -/
def namedPiece (name : Text) : Except TemplateError TemplatePiece :=
  if isName name then .error (.unknownName name)
  else
    match toInt name with
    | .ok 0 => .ok .replaced
    | _ => .error .badEscape

/-- The piece after a backslash, with the number of characters that it takes there. -/
def escaped : Text → Except TemplateError (TemplatePiece × Nat)
  | [] => .error .badEscape
  | 'g' :: '<' :: s =>
    let name := s.takeWhile (· ≠ '>')
    if name = [] ∨ name.length = s.length then .error .badEscape
    else (namedPiece name).map (·, name.length + 3)
  | '0' :: s =>
    let digits := (s.take 2).takeWhile isOctal
    .ok (.literal [octalChar digits], digits.length + 1)
  | c :: s =>
    match letterEscapes.lookup c with
    | some n => .ok (.literal [Char.ofNat n], 1)
    | none =>
      if c.isDigit then
        let digits := c :: s.take 2
        if digits.length = 3 ∧ digits.all isOctal ∧ c < '4' then
          .ok (.literal [octalChar digits], 3)
        else .error .badEscape
      else if c.isAlpha then .error .badEscape
      else .ok (.literal ['\\', c], 1)

/-- Reads a template once `skip` more characters have been passed over. -/
def readFrom : (skip : Nat) → Text → Except TemplateError Template
  | _, [] => .ok []
  | skip + 1, _ :: s => readFrom skip s
  | 0, c :: s =>
    if c = '\\' then
      (escaped s).bind fun (piece, n) => (readFrom n s).map (piece :: ·)
    else (readFrom 0 s).map (.literal [c] :: ·)

def read (s : Text) : Except TemplateError Template :=
  readFrom 0 s

/-- What a template writes for a text that it replaces. -/
def fill (template : Template) (s : Text) : Text :=
  template.flatMap fun
    | .literal t => t
    | .replaced => s

end Template

end DocGraft.Text
