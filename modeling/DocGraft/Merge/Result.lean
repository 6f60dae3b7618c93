import DocGraft.Comment.Localized

/-!
# Merge results
-/

namespace DocGraft

/-- The outcome of merging a source. -/
structure MergeResult where
  text : Text
  /-- The name of the class with its package. -/
  className : Option Text := none
  /-- The keyword that declares the class. -/
  kind : Option Text := none
  /-- Whether there is documentation for the class. -/
  documented : Bool := false
  replaced : Int := 0
  warnings : List LayoutWarning := []
  path : Option Text := none
deriving DecidableEq, Repr

end DocGraft
