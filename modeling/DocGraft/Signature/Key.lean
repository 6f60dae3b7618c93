import DocGraft.Text.Basic

/-!
# Signature keys

A declaration in a source and its entry on a documentation page are joined on a key
`Owner#member(type,type)`. Two keys are the same when their canonical texts are.
-/

namespace DocGraft

/-- The key of a declaration. -/
structure SignatureKey where
  /-- The simple name of the class that the declaration belongs to. -/
  owner : Text
  /-- The name of the method, field, constructor or class. -/
  member : Text
  /-- The parameter types in parentheses, or nothing if there is no parameter list. -/
  arguments : Text := []
  /-- Whether the declaration is that of another class than the one it was met in. -/
  declaresInner : Bool := false
deriving DecidableEq, Repr

namespace SignatureKey

/-- The text on which keys are compared. -/
def canonical (key : SignatureKey) : Text :=
  key.owner ++ '#' :: (key.member ++ key.arguments)

/-- Whether two keys stand for the same declaration. -/
def same (a b : SignatureKey) : Bool :=
  a.canonical = b.canonical

/-- The parameter types in order, or `none` for a declaration without a parameter list. -/
def parameterTypes (key : SignatureKey) : Option (List Text) :=
  if key.arguments = [] then none
  else
    let inner := (key.arguments.drop 1).dropLast
    some (if inner = [] then [] else Text.fields ',' inner)

end SignatureKey

end DocGraft
