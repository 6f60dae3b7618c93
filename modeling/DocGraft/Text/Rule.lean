import DocGraft.Text.Basic

/-!
# Substitution rules

Most normalizations of source text and page markup replace every place of a certain shape, from left
to right and without overlap. A `Rule` recognizes the shape at one place; `substitute` applies it
everywhere and `substituteFirst?` at its first place only.
-/

namespace DocGraft.Text

/-- A rule sees the character before a place, if any, and the text from there on. Where it applies
it gives the text to write and the number of characters, at least one, for which that text stands.
-/
abbrev Rule := Option Char → Text → Option (Text × Nat)

/-- Applies `rule` from left to right once `skip` more characters have been passed over. -/
def substituteFrom (rule : Rule) : (skip : Nat) → (before : Option Char) → Text → Text
  | _, _, [] => []
  | skip + 1, _, c :: s => substituteFrom rule skip (some c) s
  | 0, before, c :: s =>
    match rule before (c :: s) with
    | some (out, n) => out ++ substituteFrom rule (n - 1) (some c) s
    | none => c :: substituteFrom rule 0 (some c) s

/-- Applies `rule` at every place from left to right; replaced places do not overlap. -/
def substitute (rule : Rule) (s : Text) : Text :=
  substituteFrom rule 0 none s

/-- Applies `rule` at the first place where it holds, of a text that follows `before`. -/
def substituteFirstFrom? (rule : Rule) : (before : Option Char) → Text → Option Text
  | _, [] => none
  | before, c :: s =>
    match rule before (c :: s) with
    | some (out, n) => some (out ++ (c :: s).drop n)
    | none => (substituteFirstFrom? rule (some c) s).map (c :: ·)

/-- Applies `rule` at the first place where it holds, if there is one. -/
def substituteFirst? (rule : Rule) (s : Text) : Option Text :=
  substituteFirstFrom? rule none s

/-- Applies `rule` at the first place where it holds. -/
def substituteFirst (rule : Rule) (s : Text) : Text :=
  (substituteFirst? rule s).getD s

/-- The rule that writes `new` for `old`, which is not empty. -/
def literalRule (old new : Text) : Rule := fun _ s =>
  if startsWith old s then some (new, old.length) else none

/-- Writes `new` for every occurrence of `old`, which is not empty. -/
def replace (old new s : Text) : Text :=
  substitute (literalRule old new) s

end DocGraft.Text
