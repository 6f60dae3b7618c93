import DocGraft.Text.Basic

/-!
# Grammars

The languages of the two inputs, by the names under which their grammars are asked for.
-/

namespace DocGraft

/-- A language that can be read. -/
inductive Grammar where
  | java
  | html
deriving DecidableEq, Repr

/-- The name of a grammar that does not exist. -/
structure UnknownGrammar where
  name : Text
deriving DecidableEq, Repr

def UnknownGrammar.message (e : UnknownGrammar) : Text :=
  let package := "tree-sitter-".toList ++ e.name.map fun c => if c = '_' then '-' else c
  "Could not load the ".toList ++ e.name ++ " grammar.\n- Install it with `pip install ".toList
    ++ package ++ "`.".toList

def Grammar.ofName (name : Text) : Except UnknownGrammar Grammar :=
  if name = "java".toList then .ok .java
  else if name = "html".toList then .ok .html
  else .error ⟨name⟩

end DocGraft
