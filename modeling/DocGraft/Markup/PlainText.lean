import DocGraft.Markup.Reference
import DocGraft.Text.Template

/-!
# Plain text of markup

The plain text of markup has no tags, its references are resolved, no-break spaces are spaces, and
zero-width spaces are gone. It cannot be read if it has a reference by a number of too many decimal
digits.
-/

namespace DocGraft.Markup

open Text

/-- A tag becomes what `write` gives for it. -/
def tagRule (write : Text → Text) : Rule := fun _ s =>
  match s with
  | '<' :: rest =>
    let n := run (· ≠ '>') rest
    if n < rest.length then some (write (s.take (n + 2)), n + 2) else none
  | _ => none

/-- The plain text of markup in which tags have been replaced. -/
def plainOf (untagged : Text) : Text :=
  ((unescape untagged).map fun c => if c = '\u00a0' then ' ' else c).filter (· ≠ '\u200b')

/-- The plain text of markup, with `replacement` in the place of each tag. -/
def plainText (markup : Text) (replacement : Text := []) : Text :=
  plainOf (substitute (tagRule fun _ => replacement) markup)

/-- The number of digits of the first reference by a decimal number that is too long. -/
def overlong? : Text → Option Nat
  | [] => none
  | c :: s =>
    match after? ['&', '#'] (c :: s) with
    | some rest =>
      let n := run Char.isDigit rest
      if digitLimit < n then some n else overlong? s
    | none => overlong? s

/-- The plain text of markup in which tags have been replaced, unless a number in it is too long. -/
def readPlainOf (untagged : Text) : Except NumeralError Text :=
  match overlong? untagged with
  | some n => .error (.tooLong n)
  | none => .ok (plainOf untagged)

/-- The plain text of markup, unless a number in it is too long. -/
def readPlainText (markup : Text) (replacement : Text := []) : Except NumeralError Text :=
  readPlainOf (substitute (tagRule fun _ => replacement) markup)

/-- Why markup gives no plain text under a template. -/
inductive PlainTextError where
  | template (e : TemplateError)
  | number (e : NumeralError)
deriving DecidableEq, Repr

/-- The plain text of markup, with what a template writes in the place of each tag. -/
def readTemplated (markup template : Text) : Except PlainTextError Text :=
  match Template.read template with
  | .error e => .error (.template e)
  | .ok template =>
    match readPlainOf (substitute (tagRule template.fill) markup) with
    | .error e => .error (.number e)
    | .ok text => .ok text

end DocGraft.Markup
