import DocGraft.Text.Blank

/-!
# Labels of documentation pages

Pages announce the entries of a block tag by a label and a deprecation by a marker. Both depend on
the language and on the generator of the pages, and so they are settings.
-/

namespace DocGraft

/-- The block tags whose entries pages list under a label. -/
inductive TagCategory where
  | params
  | returns
  | throws
  | see
  /-- The version since which the declaration exists. -/
  | since
deriving DecidableEq, Repr

/-- The labels and markers of a set of pages. -/
structure LabelVocabulary where
  params : List Text := ["Parameters:".toList, "パラメータ:".toList]
  returns : List Text := ["Returns:".toList, "戻り値:".toList]
  throws : List Text := ["Throws:".toList, "例外:".toList]
  see : List Text := ["See Also:".toList, "関連項目:".toList]
  since : List Text := ["Since:".toList, "導入されたバージョン:".toList]
  deprecated : List Text :=
    ["Deprecated, for removal: This API element is subject to removal in a future version.".toList,
     "Deprecated.".toList,
     "非推奨、削除用: このAPI要素は、将来のバージョンで削除される可能性があります。".toList,
     "非推奨。".toList,
     "推奨されていません。".toList]
deriving DecidableEq, Repr

namespace LabelVocabulary

open Text

def labels (vocabulary : LabelVocabulary) : TagCategory → List Text
  | .params => vocabulary.params
  | .returns => vocabulary.returns
  | .throws => vocabulary.throws
  | .see => vocabulary.see
  | .since => vocabulary.since

/-- The first category that has a label, up to white space. -/
def category? (vocabulary : LabelVocabulary) (label : Text) : Option TagCategory :=
  [.params, .returns, .throws, .see, .since].find? fun category =>
    squash label ∈ vocabulary.labels category

/-- The longest deprecation marker with which a text begins, up to white space. -/
def deprecationMarker? (vocabulary : LabelVocabulary) (text : Text) : Option Text :=
  (vocabulary.deprecated.mergeSort fun a b => b.length ≤ a.length).find? fun marker =>
    startsWith marker (squash text)

end LabelVocabulary

end DocGraft
