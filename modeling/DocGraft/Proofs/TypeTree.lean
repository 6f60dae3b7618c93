import DocGraft.Proofs.CodeText
import DocGraft.Proofs.TextClosing

/-!
# Trees of types and their sources

A type has fields, methods and further types as members, to any depth. Its source has a line for
every member, one for the header of each type and one for its closing brace, with any number of
spaces in front. A type or a member may have a documentation comment on the line before it. Methods
have bodies with string literals, whose texts may look like code or comments.

The lines of a tree do not show how it is nested, and much can be said of each of them alone: how it
is read, where it declares a type, and where its declaration ends.
-/

namespace DocGraft

open Text Source Signature Declaration

namespace TypeTree

/-! ### Types and members -/

/-- A documentation comment on a line of its own. -/
structure DocLine where
  indent : Nat
  text : Text
  unbroken : '\n' ∉ text
  unclosed : ¬ HasClosing text
  unmarked : ¬ Placeholder.word <:+: text

/-- The comment that says `v` behind `n` spaces. -/
def DocLine.ofText (n : Nat) (v : Text)
    (plain : ('\n' ∉ v ∧ contains ['*', '/'] v = false ∧ contains Placeholder.word v = false)) :
    DocLine where
  indent := n
  text := v
  unbroken := plain.1
  unclosed := by
    rw [HasClosing, ← contains_iff, plain.2.1]
    simp
  unmarked := by
    rw [← contains_iff, plain.2.2]
    simp

/-- The comment that says `d` behind `n` spaces. -/
def DocLine.sample (n : Nat) : DocLine :=
  .ofText n "d".toList (by decide)

/-- A member that is not a type. -/
inductive Leaf where
  | field (f : Field) (header : Header (.field f)) (value : Option (CodeBlock '=' ';'))
  | method (m : Method) (header : Header (.method m)) (body : CodeBlock '{' '}')

/-- The members of the type `owner`, with the comment and the number of spaces before each. -/
inductive Members : (owner : Text) → Type where
  | nil {owner : Text} : Members owner
  | leaf {owner : Text} (doc : Option DocLine) (indent : Nat) (member : Leaf)
      (rest : Members owner) : Members owner
  | type {owner : Text} (doc : Option DocLine) (indent : Nat) (h : TypeHeader)
      (header : Header (.type h)) (distinct : h.name.text ≠ owner) (body : Members h.name.text)
      (closing : Nat) (rest : Members owner) : Members owner

end TypeTree

open TypeTree in
/-- A type on the outermost level of a source. -/
structure TypeTree where
  /-- The package that it belongs to. -/
  package : Option QualifiedName
  /-- The comment before it. -/
  doc : Option DocLine
  /-- The number of spaces before it. -/
  indent : Nat
  type : TypeHeader
  header : Header (.type type)
  body : Members type.name.text
  /-- The number of spaces before its closing brace. -/
  closing : Nat
  /-- Whether the last line ends with a line feed. -/
  lastBreak : Bool

namespace TypeTree

/-! ### Lines -/

/-- A number of spaces. -/
def spaces (n : Nat) : Text :=
  List.replicate n ' '

/-- The documentation comment that says `v`. -/
def docComment (v : Text) : Text :=
  "/** ".toList ++ (v ++ " */".toList)

/-- The line of a documentation comment that says `v` behind `n` spaces. -/
def commentLine (n : Nat) (v : Text) : Text :=
  spaces n ++ (docComment v ++ ['\n'])

def DocLine.line (doc : DocLine) : Text :=
  commentLine doc.indent doc.text

/-- What a member declares. -/
def Leaf.declaration : Leaf → Declaration
  | field f _ _ => .field f
  | method m _ _ => .method m

def Leaf.header : (member : Leaf) → Header member.declaration
  | field _ header _ => header
  | method _ header _ => header

/-- The text of the declaration of a member, up to its end, its value or its body. -/
def Leaf.head (member : Leaf) : Text :=
  member.header.text

/-- What follows the declaration of a member. -/
def Leaf.tail : Leaf → Text
  | field _ _ none => [';']
  | field _ _ (some value) => '=' :: (grainText value.grains ++ [';'])
  | method _ _ body => '{' :: (grainText body.grains ++ ['}'])

/-- A line of a source, with the comment before it. -/
inductive Line where
  | package (q : QualifiedName)
  | leaf (doc : Option DocLine) (indent : Nat) (member : Leaf)
  | opening (doc : Option DocLine) (indent : Nat) {h : TypeHeader} (header : Header (.type h))
  | closing (indent : Nat)

def Line.doc? : Line → Option DocLine
  | leaf doc _ _ | opening doc _ _ => doc
  | package _ | closing _ => none

def Line.indent : Line → Nat
  | leaf _ indent _ | opening _ indent _ | closing indent => indent
  | package _ => 0

/-- The declaration of the package `q`, up to its end. -/
def packageHead (q : QualifiedName) : Text :=
  "package ".toList ++ q.text

/-- What stands on a line, without spaces at its beginning. -/
def Line.item : Line → Text
  | package q => packageHead q ++ [';']
  | leaf _ _ member => member.head ++ member.tail
  | opening _ _ header => header.text ++ ['{']
  | closing _ => ['}']

def Line.text (line : Line) : Text :=
  (line.doc?.elim [] DocLine.line) ++ (spaces line.indent ++ (line.item ++ ['\n']))

/-- The lines of members. -/
def Members.lines : {owner : Text} → Members owner → List Line
  | _, nil => []
  | _, leaf doc indent member rest => .leaf doc indent member :: rest.lines
  | _, type doc indent _ header _ body closing rest =>
    .opening doc indent header :: (body.lines ++ .closing closing :: rest.lines)

def lines (tree : TypeTree) : List Line :=
  tree.package.toList.map .package ++
    .opening tree.doc tree.indent tree.header :: tree.body.lines

/-- The last line of a type. -/
def ending (tree : TypeTree) : Text :=
  spaces tree.closing ++ '}' :: (if tree.lastBreak then ['\n'] else [])

def text (tree : TypeTree) : Text :=
  tree.lines.flatMap Line.text ++ tree.ending

/-! ### Keys -/

/-- The documented members of the type `owner` with their keys and comments, in order. -/
def Members.documented : {owner : Text} → Members owner → List (SignatureKey × Text)
  | _, nil => []
  | owner, leaf doc _ member rest =>
    doc.toList.map (fun doc => (member.declaration.key owner, doc.line)) ++ rest.documented
  | owner, type doc _ h _ _ body _ rest =>
    doc.toList.map (fun doc => ((Declaration.type h).key owner, doc.line)) ++
      (body.documented ++ rest.documented)

/-- The documented types and members with their keys and comments, in order. -/
def documented (tree : TypeTree) : List (SignatureKey × Text) :=
  tree.doc.toList.map (fun doc =>
    ((Declaration.type tree.type).key tree.type.name.text, doc.line)) ++
    tree.body.documented

theorem bare_spaces (n : Nat) : Bare (spaces n) := by
  intro c hc
  rw [List.eq_of_mem_replicate hc]
  decide

/-! ### The grains of a line -/

/-- The grains of the line of a comment, if there is one. -/
def commentGrains : Option (Nat × Text) → List Grain
  | none => []
  | some (n, v) => codeGrains (spaces n) ++ [(.blockComment, docComment v), (.code, ['\n'])]

/-- The grains of what follows the declaration of a member. -/
def Leaf.tailGrains : Leaf → List Grain
  | field _ _ none => codeGrains [';']
  | field _ _ (some value) => codeGrains ['='] ++ (value.grains ++ codeGrains [';'])
  | method _ _ body => codeGrains ['{'] ++ (body.grains ++ codeGrains ['}'])

/-- The grains of what stands on a line. -/
def Line.itemGrains : Line → List Grain
  | package q => codeGrains (packageHead q ++ [';'])
  | leaf _ _ member => codeGrains member.head ++ member.tailGrains
  | opening _ _ header => codeGrains (header.text ++ ['{'])
  | closing _ => codeGrains ['}']

/-- Whether a line needs a placeholder. -/
def Line.needsMark : Line → Bool
  | opening none _ _ => true
  | _ => false

/-- What the comment before a line says and the number of spaces before it; with `marked`, a
placeholder stands for the comment of a type that has none. -/
def Line.comment? (marked : Bool) (line : Line) : Option (Nat × Text) :=
  if marked && line.needsMark then some (0, "javadoc-merge placeholder".toList)
  else line.doc?.map fun doc => (doc.indent, doc.text)

/-- The grains of a line, with the line of the comment before it. -/
def Line.grains (marked : Bool) (line : Line) : List Grain :=
  commentGrains (line.comment? marked) ++
    (codeGrains (spaces line.indent) ++ (line.itemGrains ++ codeGrains ['\n']))

theorem grainText_commentGrains (comment : Option (Nat × Text)) :
    grainText (commentGrains comment) = comment.elim [] fun c => commentLine c.1 c.2 := by
  cases comment with
  | none => rfl
  | some c => simp [commentGrains, commentLine]

theorem grainText_tailGrains (member : Leaf) : grainText member.tailGrains = member.tail := by
  match member with
  | .field _ _ none => rfl
  | .field _ _ (some value) => simp [Leaf.tailGrains, Leaf.tail]
  | .method _ _ body => simp [Leaf.tailGrains, Leaf.tail]

theorem grainText_itemGrains (line : Line) : grainText line.itemGrains = line.item := by
  cases line with
  | package q => exact grainText_codeGrains _
  | leaf doc indent member => simp [Line.itemGrains, Line.item, grainText_tailGrains]
  | opening doc indent header => exact grainText_codeGrains _
  | closing indent => rfl

/-- The grains of a line are those of its text. -/
theorem grainText_grains_line (line : Line) : grainText (line.grains false) = line.text := by
  rw [Line.grains, grainText_append, grainText_append, grainText_append, grainText_commentGrains,
    grainText_itemGrains, grainText_codeGrains, grainText_codeGrains, Line.text, Line.comment?]
  cases line.doc? with
  | none => rfl
  | some doc => rfl

/-! ### Lines are read as such -/

theorem stands_docComment {v : Text} (hv : ¬ HasClosing v) (t : Text) :
    Stands (.blockComment, docComment v) t := by
  have hshape : docComment v = '/' :: '*' :: (('*' :: ' ' :: (v ++ [' '])) ++ ['*', '/']) := by
    simp [docComment]
  have hclosing : ¬ HasClosing (('*' :: ' ' :: (v ++ [' '])) ++ ['*']) := by
    rw [hasClosing_concat (by decide), hasClosing_cons_cons, hasClosing_cons (by decide),
      hasClosing_concat (by decide)]
    simpa using hv
  rw [hshape]
  exact stands_block_of_closed hclosing t

/-- A comment before a line has no closing in what it says. -/
theorem not_hasClosing_comment {marked : Bool} {line : Line} {n : Nat} {v : Text}
    (h : line.comment? marked = some (n, v)) : ¬ HasClosing v := by
  rw [Line.comment?] at h
  split_ifs at h
  · obtain ⟨-, rfl⟩ := Prod.mk.inj (Option.some.inj h)
    rw [HasClosing, ← contains_iff]
    decide
  · obtain ⟨doc, -, hdoc⟩ := Option.map_eq_some_iff.mp h
    obtain ⟨-, rfl⟩ := Prod.mk.inj hdoc
    exact doc.unclosed

theorem standing_commentGrains {marked : Bool} {line : Line} (t : Text) :
    Standing (commentGrains (line.comment? marked)) t := by
  cases hcomment : line.comment? marked with
  | none => trivial
  | some comment =>
    obtain ⟨n, v⟩ := comment
    have hv := not_hasClosing_comment hcomment
    exact standing_append.mpr ⟨(bare_spaces n).standing _, stands_docComment hv _, stands_newline _,
      trivial⟩

theorem bare_header {d : Declaration} (header : Header d) : Bare header.text :=
  header.codeText.bare (by decide)

theorem codeText_package (q : QualifiedName) :
    CodeText headerMarks ["class".toList, "interface".toList, "enum".toList] (packageHead q) := by
  have hname : CodeText headerMarks ["class".toList, "interface".toList, "enum".toList] q.text :=
    q.codeText.mono (fun _ hc => hc) (by decide)
  exact .word (w := "package".toList) (.of_all (by decide)) (by decide) (ends_word (by decide) _)
    (.mark (by decide) hname)

theorem Leaf.inert_tailGrains (member : Leaf) : Inert member.tailGrains := by
  match member with
  | .field _ _ none => exact inert_marks (by simpa using by decide)
  | .field _ _ (some value) => exact value.inert
  | .method _ _ body => exact body.inert

theorem standing_itemGrains (line : Line) (t : Text) : Standing line.itemGrains t := by
  cases line with
  | package q =>
    exact (((codeText_package q).bare (by decide)).append (bare_singleton (by decide))).standing t
  | leaf doc indent member =>
    exact standing_append.mpr ⟨(bare_header member.header).standing _,
      member.inert_tailGrains.standing t⟩
  | opening doc indent header =>
    exact ((bare_header header).append (bare_singleton (by decide))).standing t
  | closing indent => exact (bare_singleton (by decide)).standing t

theorem standing_grains_line (marked : Bool) (line : Line) (t : Text) :
    Standing (line.grains marked) t :=
  standing_append.mpr ⟨standing_commentGrains _, standing_append.mpr
    ⟨(bare_spaces _).standing _, standing_append.mpr
      ⟨standing_itemGrains line _, (bare_singleton (by decide)).standing t⟩⟩⟩

end TypeTree

end DocGraft
