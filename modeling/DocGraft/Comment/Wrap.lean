import DocGraft.Comment.WrapLine
import DocGraft.Pattern
import DocGraft.Text.Lines
import DocGraft.Text.LowerCase

/-!
# Wrapping a text

A text of several lines is wrapped line by line. Lines between `<pre>` and `</pre>` pass unchanged,
where the tags count at the beginning and the end of a line only. The start of a table is broken
before its summary, and long ASCII words get lines of their own.
-/

namespace DocGraft.Comment

open Text

/-- Where the patterns for long words are taken from. -/
class LongWords where
  rule : Nat → Rule
  rule_eq : ∀ least, rule least = longWordRule least

attribute [simp] LongWords.rule_eq

/-- Without a table, patterns are made each time. -/
instance madeLongWords : LongWords where
  rule := longWordRule
  rule_eq _ := rfl

/-- The patterns for long words in a table. -/
@[reducible]
def LongWords.ofTable (patterns : PatternCache) : LongWords where
  rule least := patterns.value (.longWord least)
  rule_eq least := patterns.value_eq (.longWord least)

/-- The least length of a word that gets a line of its own. -/
def longWordLength (settings : WrapSettings) (width : Int) : Nat :=
  (max (width - settings.longWordMargin) 1).toNat

/-- The summary of a table begins a line, in place of the white space before it. -/
def tableSummaryRule : Rule := fun _ s =>
  match s with
  | [] => none
  | c :: rest =>
    if isBlank c && (afterAnyCase? "summary=".toList rest).isSome then some (['\n'], 1) else none

section

variable [LongWords]

/-- Wraps a line outside preformatted text. -/
def wrapPlain (settings : WrapSettings) (width : Int) (line : Text) : Text :=
  if weight line < width then line ++ ['\n']
  else if contains "<table".toList line then substituteFirst tableSummaryRule line ++ ['\n']
  else
    let longWord := LongWords.rule (longWordLength settings width)
    let parts := fields '\n' (substitute longWord line)
    (parts.filter (· ≠ [])).flatMap (wrapLine settings width)

/-- Wraps lines; `preformatted` tells whether the first of them follows an open `<pre>`. -/
def wrapLines (settings : WrapSettings) (width : Int) : (preformatted : Bool) → List Text → Text
  | _, [] => []
  | preformatted, line :: rest =>
    if line = [] then '\n' :: wrapLines settings width preformatted rest
    else
      let inside :=
        if startsWith "</pre>".toList line then false
        else if startsWith "<pre>".toList line then true
        else preformatted
      if inside then
        line ++ '\n' :: wrapLines settings width (!endsWith "</pre>".toList line) rest
      else
        wrapPlain settings width line
          ++ wrapLines settings width (endsWith "<pre>".toList line) rest

/-- The text wrapped to the width, with a line end; without a width it is not wrapped. -/
def wrap (settings : WrapSettings) (width : Option Int) (value : Text) : Text :=
  match width with
  | none => value ++ ['\n']
  | some width =>
    if weight value < width then value ++ ['\n']
    else wrapLines settings width false (lines value)

end

/-- The patterns that wrapping a text asks for. -/
def wrapAsks (settings : WrapSettings) (width : Option Int) (value : Text) : List Pattern :=
  match width with
  | none => []
  | some width =>
    if weight value < width then [] else [.longWord (longWordLength settings width)]

end DocGraft.Comment
