import DocGraft.Signature.AnnotationUse
import DocGraft.Signature.Key
import DocGraft.Text.Quoted
import DocGraft.Text.Rule

/-!
# From declaration text to signature key

Declaration text such as `public final <T> T[] toArray(T[] a)` is reduced in steps: annotations,
type arguments and the supertypes of a class go away, variable arity becomes an array, the text is
cut into tokens with one space between them, and package names, `final` and parameter names are
dropped. What is left is the name with the parameter types at the end of the text.
-/

namespace DocGraft

/-- A declaration text that does not reduce to a name with or without parameter types. -/
structure SignatureError where
  /-- The declaration text as it was given. -/
  raw : Text
deriving DecidableEq, Repr

def SignatureError.message (e : SignatureError) : Text :=
  "Cannot normalize signature: ".toList ++ Text.quoted e.raw

namespace Signature

open Text

/-- Replaces the first line that has a dot after its first character by what follows its last dot.
-/
def dropQualifier : List Text → List Text
  | [] => []
  | line :: rest =>
    if '.' ∈ line.tail then afterLast '.' line :: rest else line :: dropQualifier rest

def simpleName (name : Text) : Text :=
  joinWith ['\n'] (dropQualifier (fields '\n' name))

def flatten (s : Text) : Text :=
  s.map fun c => if c = '\r' ∨ c = '\n' ∨ c = '\t' then ' ' else c

/-- An annotation becomes a space. -/
def annotationRule : Rule := fun _ s =>
  (annotationLength? s).map fun n => ([' '], n)

/-- Three dots, with the white space before them, become an array dimension. -/
def varargsRule : Rule := fun _ s =>
  let gap := run isBlank s
  if startsWith ['.', '.', '.'] (s.drop gap) then some (['[', ']'], gap + 3) else none

/-- The pending texts of brackets that were never closed, outermost first; texts are reversed. -/
def unwind (current : Text) : List Text → Text
  | [] => current.reverse
  | outer :: rest => unwind outer rest ++ '<' :: current.reverse

/-- Writes one space for every outermost pair of angle brackets with what it holds; `current` and
`outers` are the reversed texts since the brackets that are open, innermost first. -/
def dropTypeArgumentsFrom (current : Text) (outers : List Text) : Text → Text
  | [] => unwind current outers
  | c :: s =>
    if c = '<' then dropTypeArgumentsFrom [] (current :: outers) s
    else if c = '>' then
      match outers with
      | [] => dropTypeArgumentsFrom ('>' :: current) [] s
      | outer :: rest => dropTypeArgumentsFrom (' ' :: outer) rest s
    else dropTypeArgumentsFrom (c :: current) outers s

/-- Writes one space for every outermost pair of angle brackets with what it holds. -/
def dropTypeArguments (s : Text) : Text :=
  dropTypeArgumentsFrom [] [] s

/-- The supertypes of a class, up to the end of the text, become a space. -/
def supertypesRule : Rule := fun _ s =>
  match s with
  | [] => none
  | c :: rest =>
    let after := (after? "extends".toList rest).or (after? "implements".toList rest)
    match after with
    | some (d :: _) => if isBlank c && isBlank d then some ([' '], s.length) else none
    | _ => none

/-- Parentheses and commas stand between spaces. -/
def spaceDelimiters (s : Text) : Text :=
  s.flatMap fun c => if c = '(' ∨ c = ')' ∨ c = ',' then [' ', c, ' '] else [c]

/-- Writes one space for each run of spaces; `spaced` tells whether a space has just been written.
-/
def squeezeSpacesFrom : (spaced : Bool) → Text → Text
  | _, [] => []
  | spaced, c :: s =>
    if c = ' ' then if spaced then squeezeSpacesFrom true s else ' ' :: squeezeSpacesFrom true s
    else c :: squeezeSpacesFrom false s

def squeezeSpaces (s : Text) : Text :=
  squeezeSpacesFrom false s

/-- The length of the longest head made of names with a dot after each; `n` characters have been
read, the last `best` of them good, and `named` tells whether a name is being read. -/
def qualifierLengthFrom (n best : Nat) (named : Bool) : Text → Nat
  | [] => best
  | c :: s =>
    if isWord c then qualifierLengthFrom (n + 1) best true s
    else if c = '.' && named then qualifierLengthFrom (n + 1) (n + 1) false s
    else best

/-- The length of the longest head made of names with a dot after each. -/
def qualifierLength (s : Text) : Nat :=
  qualifierLengthFrom 0 0 false s

/-- The package of a type name after a space goes away. -/
def qualifierRule : Rule := fun _ s =>
  match s with
  | ' ' :: rest =>
    let n := qualifierLength rest
    if n = 0 then none else some ([' '], n + 1)
  | _ => none

/-- The last name before a comma or the closing parenthesis is that of the parameter and goes away;
an array dimension after it stays. -/
def parameterNameRule : Rule := fun _ s =>
  match s with
  | ' ' :: rest =>
    let n := run isWord rest
    if n = 0 then none
    else
      match rest.drop n with
      | ' ' :: c :: _ => if c = ',' ∨ c = ')' then some ([' ', c], n + 3) else none
      | '[' :: ']' :: ' ' :: c :: _ =>
        if c = ',' ∨ c = ')' then some (['[', ']', ' ', c], n + 5) else none
      | _ => none
  | _ => none

/-- Reduces the parameters of a token text to their types. -/
def reduceParameters (s : Text) : Text :=
  if '(' ∈ s then
    substitute parameterNameRule
      (replace " []".toList "[]".toList (replace " final ".toList [' '] s))
  else s

/-- The reduced token text of a declaration: tokens between single spaces, a space at either end. -/
def reduce (raw : Text) : Text :=
  let plain := substitute varargsRule (substitute annotationRule (flatten raw))
  let bare := substituteFirst supertypesRule (dropTypeArguments plain)
  let tokens := squeezeSpaces (spaceDelimiters (' ' :: (bare ++ [' '])))
  reduceParameters (substitute qualifierRule tokens)

/-- What follows a keyword that opens the declaration of a type. -/
def afterTypeKeyword? (s : Text) : Option Text :=
  ["class", "interface", "@interface", "enum"].findSome? fun keyword =>
    after? (keyword.toList ++ [' ']) s

/-- The name in the first type declaration of a token text. -/
def declaredType? : Text → Option Text
  | [] => none
  | c :: s =>
    let name :=
      if c = ' ' then
        (afterTypeKeyword? s).bind fun rest =>
          let name := rest.takeWhile isWord
          if name ≠ [] ∧ (rest.drop name.length).head? = some ' ' then some name else none
      else none
    name.or (declaredType? s)

/-- The member that makes up all of a token text: a name, optional parameters in parentheses, an
optional array dimension, which is left out, and a space. -/
def wholeMember? (s : Text) : Option Text :=
  let name := s.takeWhile isWord
  let rest := s.drop name.length
  if name = [] then none
  else if rest = [' '] ∨ rest = "[] ".toList then some name
  else if startsWith " (".toList rest then
    if endsWith ") ".toList rest then some (name ++ rest.dropLast)
    else if endsWith ")[] ".toList rest then some (name ++ rest.take (rest.length - 3))
    else none
  else none

/-- The member with which a token text ends: the one after the last space where there is one. -/
def lastMember? : Text → Option Text
  | [] => none
  | c :: s => (lastMember? s).or (if c = ' ' then wholeMember? s else none)

end Signature

open Signature in
/-- The key of the declaration `raw` met in the class `ownerName`, which may be qualified. The
declaration of a type with another name than that class belongs to the type itself. -/
def SignatureKey.ofDeclaration (ownerName raw : Text) : Except SignatureError SignatureKey :=
  let tokens := reduce raw
  let owner := simpleName ownerName
  let declared := declaredType? tokens
  let inner := declared.isSome && declared ≠ some owner
  match lastMember? tokens with
  | none => .error ⟨raw⟩
  | some text =>
    let compact := text.filter (· ≠ ' ')
    .ok {
      owner := declared.getD owner
      member := compact.takeWhile (· ≠ '(')
      arguments := compact.dropWhile (· ≠ '(')
      declaresInner := inner }

end DocGraft
