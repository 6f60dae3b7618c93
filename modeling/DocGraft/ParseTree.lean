import DocGraft.Text.Encoding
import DocGraft.Tree

/-!
# Parse trees

Sources and pages are parsed by grammars that are not part of this library. A parse tree names the
rule of each node and tells where the node stands in the UTF-8 bytes of the text that was parsed.
-/

namespace DocGraft

/-- A node of a parse tree. -/
structure Node where
  /-- The name of its rule, such as `class_declaration`. -/
  type : Text
  /-- What it is to its parent, such as `name`. -/
  field : Option Text := none
  /-- The offset of its first byte. -/
  start : Nat
  /-- The offset just past its last byte. -/
  stop : Nat
  /-- The line in which it begins, counted from zero, and the number of bytes before it there. -/
  point : Nat × Nat := (0, 0)
deriving DecidableEq, Repr

abbrev ParseTree := Tree Node

/-- The text between two offsets of some bytes, with U+FFFD for each invalid sequence. -/
def Bytes.textBetween (source : Bytes) (start stop : Nat) : Text :=
  Encoding.utf8.decodeLossy ((source.take stop).drop start)

namespace Tree

/-- Whether a node is one of a rule. -/
def is (node : Tree Node) (type : String) : Bool :=
  node.label.type = type.toList

/-- The text of a node in the bytes that were parsed. -/
def text (node : Tree Node) (source : Bytes) : Text :=
  source.textBetween node.label.start node.label.stop

end Tree

end DocGraft
