import DocGraft.ParseTree

/-!
# Platforms

A merge rests on what it is given: a parser of Java sources, a parser of pages, and the encodings
of files by name. Nothing is assumed of them here; where a result needs more, it says so.
-/

namespace DocGraft

/-- An encoding of texts. -/
structure Codec where
  /-- The text of some bytes, if they are valid. -/
  decode? : Bytes → Option Text
  /-- The text of some bytes, in which what is not valid is replaced. -/
  decodeLossy : Bytes → Text
  /-- The bytes of a text, in which what has no bytes is replaced. -/
  encode : Text → Bytes

/-- What a merge is given. -/
class Platform where
  /-- The parse tree of a Java source. -/
  java : Text → ParseTree
  /-- The parse tree of a page. -/
  html : Text → ParseTree
  /-- The encoding with a name, if there is one. -/
  codec? : Text → Option Codec

end DocGraft
