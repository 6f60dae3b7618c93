import DocGraft.Comment.Localized
import DocGraft.Comment.Preformatted
import DocGraft.Comment.SourceTags

/-!
# Drafts

A draft holds what the replacement of a comment may show: the content of the localized comment,
trimmed to what the comment in the source documents, and the tags that only the source has.
-/

namespace DocGraft

/-- The content from which a comment is laid out. -/
structure Draft where
  /-- The comment in the source, with `@throws` for `@exception`. -/
  source : Text
  body : Option Text := none
  deprecated : Option Text := none
  sees : List Text := []
  sinces : List Text := []
  params : List NamedTag := []
  returns : List Text := []
  throws : List Text := []
  authors : List Text := []
  versions : List Text := []
  serials : List Text := []
  serialFields : List Text := []
  serialDatas : List Text := []
  specs : List Text := []
deriving DecidableEq, Repr

namespace Draft

open Text Comment

/-- The simple name of the exception in a `@throws` value of the source that inherits its text. -/
def inheritedException? (value : Text) : Option Text :=
  let name := value.takeWhile fun c => !isBlank c
  let rest := value.drop name.length
  if name ≠ [] ∧ rest ≠ [] ∧ contains "@inheritDoc".toList (trimStart rest) then
    some (afterLast '.' name)
  else none

/-- The `@throws` entries, with the text of the exceptions that inherit it in the source taken from
there. -/
def inheritThrows (values entries : List Text) : List Text :=
  (values.filterMap inheritedException?).foldl
    (fun entries exception => entries.map fun entry =>
      if afterLast '.' (firstWord entry) = exception then
        exception ++ " \x7b@inheritDoc\x7d".toList
      else entry)
    entries

/-- The entries of a tag that the source documents by name; all of them if the source has at least
as many values, and none if it has no value. -/
def documented {α : Type} (name : α → Text) (values : List Text) (entries : List α) : List α :=
  if values = [] then []
  else if entries.length ≤ values.length then entries
  else entries.filter fun entry => name entry ∈ values.map firstWord

/-- The draft of a comment with block tags only: no description, and the entries trimmed to what the
source documents. -/
def trimToTags (draft : Draft) : Draft :=
  { draft with
    body := none
    params := documented NamedTag.name (wrappedTagValues "@param".toList draft.source) draft.params
    returns := if wrappedTagValues "@return".toList draft.source = [] then [] else draft.returns
    throws := documented firstWord (wrappedTagValues "@throws".toList draft.source) draft.throws
    sees := documented firstWord (wrappedTagValues "@see".toList draft.source) draft.sees }

/-- The draft for the comment `sourceText` with the content of `doc`. A deprecation notice stays
only if the source has one, since pages mark every member of a deprecated class. -/
def prepare (sourceText : Text) (doc : LocalizedComment) : Draft :=
  let source := substitute exceptionTagRule sourceText
  let draft : Draft := {
    source := source
    body := doc.body
    deprecated := if contains "@deprecated".toList source then doc.deprecated else none
    sees := doc.sees
    sinces := doc.sinces
    params := doc.params
    returns := doc.returns
    throws :=
      inheritThrows (wrappedTagValues "@throws".toList source) (doc.throws.map NamedTag.entry)
    authors := wrappedTagValues "@author".toList source
    versions := lineTagValues "@version".toList source
    serials := lineTagValues "@serial".toList source
    serialFields := lineTagValues "@serialField".toList source
    serialDatas := lineTagValues "@serialData".toList source
    specs := lineTagValues "@spec".toList source }
  if isTagsOnly source then draft.trimToTags else draft

def description? (draft : Draft) : Option Text :=
  draft.body.filter (· ≠ [])

end Draft

end DocGraft
