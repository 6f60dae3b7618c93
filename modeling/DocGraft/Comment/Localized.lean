import DocGraft.Signature.Key

/-!
# Localized comments

A localized comment is the documentation of one declaration as a page gives it: a description,
a deprecation notice and the entries of the block tags.
-/

namespace DocGraft

/-- An entry of a tag that documents something by name. -/
structure NamedTag where
  /-- The name, such as that of a parameter or an exception. -/
  name : Text
  /-- What the entry says of it. -/
  description : Text
deriving DecidableEq, Repr

def NamedTag.entry (tag : NamedTag) : Text :=
  tag.name ++ ' ' :: tag.description

/-- The documentation of one declaration. -/
structure LocalizedComment where
  body : Option Text := none
  deprecated : Option Text := none
  sees : List Text := []
  sinces : List Text := []
  params : List NamedTag := []
  /-- The entries of `@return`, of which one is meaningful. -/
  returns : List Text := []
  throws : List NamedTag := []
deriving DecidableEq, Repr

/-- A documentation comment as it stands in a source, with its indentation and the line end after
it. -/
structure CommentSpan where
  text : Text
  /-- The offset of its first character. -/
  start : Nat := 0
  /-- The offset just past it. -/
  stop : Nat := 0
  /-- The key of the declaration that it documents. -/
  key : Option SignatureKey := none
deriving DecidableEq, Repr

/-- The spaces with which the span begins. -/
def CommentSpan.indent (span : CommentSpan) : Text :=
  span.text.takeWhile (· = ' ')

/-- A localized comment that did not fit into the height of the comment in the source. -/
structure LayoutWarning where
  key : Option SignatureKey
  source : Text
  /-- The localized comment that was given up. -/
  rejected : Text
deriving DecidableEq, Repr

namespace LayoutWarning

/-- The key as reports show it. -/
def keyText (warning : LayoutWarning) : Text :=
  (warning.key.map SignatureKey.canonical).getD "None".toList

def describe (warning : LayoutWarning) : Text :=
  let rule := List.replicate 49 '-'
  warning.keyText ++ ": line count could not be matched, original kept.\n".toList
    ++ rule ++ "\nOriginal comment:\n".toList ++ warning.source
    ++ "\nLocalized comment:\n".toList ++ warning.rejected ++ rule

end LayoutWarning

end DocGraft
