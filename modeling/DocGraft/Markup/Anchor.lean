import DocGraft.Text.Blank
import DocGraft.Text.LowerCase
import DocGraft.Text.Rule

/-!
# Anchors

An anchor links to another page. A code link is an anchor whose only content is a code label.
Names of tags and attributes may be in any case.
-/

namespace DocGraft.Markup

open Text

/-- What follows the end of a tag, which is looked for from inside the tag. -/
def afterTagEnd? (s : Text) : Option Text :=
  match s.dropWhile (· ≠ '>') with
  | _ :: rest => some rest
  | [] => none

structure CodeLink where
  address : Text
  label : Text
deriving DecidableEq, Repr

/-- The label up to the end of the code element, which no other one opens in, and what follows. -/
def labelThrough? : Text → Option (Text × Text)
  | [] => none
  | c :: s =>
    match afterAnyCase? "</code>".toList (c :: s) with
    | some rest => some ([], rest)
    | none =>
      if (afterAnyCase? "<code>".toList (c :: s)).isSome then none
      else (labelThrough? s).map fun p => (c :: p.1, p.2)

/-- The address and what follows the start tag of an anchor whose first attribute is the address. -/
def linkStart? (s : Text) : Option (Text × Text) := do
  let rest ← afterAnyCase? "<a".toList s
  let attributes := trimStart rest
  if attributes.length = rest.length then none
  else
    let quoted ← afterAnyCase? "href=\"".toList attributes
    let address := quoted.takeWhile (· ≠ '"')
    match quoted.drop address.length with
    | _ :: tail => if address = [] then none else (afterTagEnd? tail).map (address, ·)
    | [] => none

def codeLink? (s : Text) : Option (CodeLink × Text) := do
  let (address, content) ← linkStart? s
  let labelled ← afterAnyCase? "<code>".toList (trimStart content)
  let (label, tail) ← labelThrough? labelled
  let rest ← afterAnyCase? "</a>".toList (trimStart tail)
  if label = [] then none else some (⟨address, label⟩, rest)

def anchorAt? (s : Text) : Option Text := do
  let attributes ← afterAnyCase? "<a".toList s
  if !attributes.head?.any isBlank then none
  else
    let content ← afterTagEnd? (attributes.drop 1)
    let (_, rest) ← cutAnyCase? "</a>".toList content
    some (s.take (s.length - rest.length))

/-- The anchors once `skip` more characters have been passed over. -/
def anchorsFrom : (skip : Nat) → Text → List Text
  | _, [] => []
  | skip + 1, _ :: s => anchorsFrom skip s
  | 0, c :: s =>
    match anchorAt? (c :: s) with
    | some anchor => anchor :: anchorsFrom (anchor.length - 1) s
    | none => anchorsFrom 0 s

def anchors (markup : Text) : List Text :=
  anchorsFrom 0 markup

/-- The code link that makes up all of an anchor. -/
def wholeCodeLink? (anchor : Text) : Option CodeLink :=
  match codeLink? anchor with
  | some (link, []) => some link
  | _ => none

/-- A code link becomes the text that `tag` gives for it, if any. -/
def codeLinkRule (tag : CodeLink → Option Text) : Rule := fun _ s =>
  (codeLink? s).map fun (link, rest) =>
    let n := s.length - rest.length
    ((tag link).getD (s.take n), n)

end DocGraft.Markup
