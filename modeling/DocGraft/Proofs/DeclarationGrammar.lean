import Mathlib
import DocGraft.Proofs.DeclarationWords

/-!
# The grammar of declarations

A declaration is that of a method or a constructor, of a field, or of a type. It is made of
annotations and tokens; a dotted name is one token, and so is a pair of brackets. Its spellings have
any white space between the tokens, and none where two tokens can be told apart without.

## Main definitions

* `Declaration` : a method, a field or a type.
* `Declaration.items` : its annotations and tokens in order.
* `Declaration.key` : its key in a class.
* `Declaration.Spells` : a text, with its white space, spells a list of items.
* `Declaration.Unclung` : no two tokens stand side by side that are not told apart.
-/

namespace DocGraft

open Text Signature

namespace Declaration

/-! ### Names and annotations -/

/-- A name of a type, of a member or of a parameter. -/
structure Name where
  text : Text
  isName : IsName text

/-- Whether a text can be a name. -/
def canBeName (s : Text) : Bool :=
  !s.isEmpty && s.all isWord && !reservedWords.contains s

/-- The name with a text that can be one. -/
def Name.ofText (s : Text) (h : canBeName s) : Name where
  text := s
  isName := by
    simp only [canBeName, Bool.and_eq_true, Bool.not_eq_true', List.isEmpty_eq_false_iff,
      List.all_eq_true, List.contains_eq_mem, decide_eq_false_iff_not] at h
    exact ⟨⟨h.1.1, h.1.2⟩, h.2⟩

/-- A name behind the names of the packages and types that it belongs to. -/
structure QualifiedName where
  qualifiers : List Name
  name : Name

def QualifiedName.text (q : QualifiedName) : Text :=
  q.qualifiers.flatMap (fun n => n.text ++ ['.']) ++ q.name.text

def Name.unqualified (name : Name) : QualifiedName :=
  ⟨[], name⟩

/-- The white space between the tokens of a declaration. -/
def gapCharacters : List Char :=
  [' ', '\t', '\r', '\n']

theorem space_mem_gapCharacters : ' ' ∈ gapCharacters := by
  decide

theorem newline_mem_gapCharacters : '\n' ∈ gapCharacters := by
  decide

theorem nil_subset_gapCharacters : ∀ c ∈ ([] : Text), c ∈ gapCharacters :=
  List.nil_subset _

/-- A text without parentheses. -/
structure Flat where
  text : Text
  unopened : '(' ∉ text
  unclosed : ')' ∉ text

/-- An argument list, in which parentheses nest at most two deep: its text up to the first inner
pair, and each inner pair with the text behind it. -/
structure ArgumentList where
  head : Flat
  inner : List (Flat × Flat)

def ArgumentList.text (arguments : ArgumentList) : Text :=
  '(' :: (arguments.head.text ++ (arguments.inner.flatMap fun p =>
    '(' :: (p.1.text ++ ')' :: p.2.text)) ++ [')'])

/-- An annotation. -/
structure AnnotationUse where
  name : QualifiedName
  gap : Text
  blank : ∀ c ∈ gap, c ∈ gapCharacters
  arguments : Option ArgumentList
  gap_eq_nil : arguments = none → gap = []

def AnnotationUse.text (a : AnnotationUse) : Text :=
  '@' :: (a.name.text ++ (a.gap ++ (a.arguments.map ArgumentList.text).getD []))

/-! ### Tokens -/

/-- The marks in declarations. -/
inductive Mark where
  | openParen
  | closeParen
  | comma
  | openAngle
  | closeAngle
  | wildcard
  | ampersand
  | dimension
  | ellipsis
deriving DecidableEq

def Mark.text : Mark → Text
  | openParen => ['(']
  | closeParen => [')']
  | comma => [',']
  | openAngle => ['<']
  | closeAngle => ['>']
  | wildcard => ['?']
  | ampersand => ['&']
  | dimension => ['[', ']']
  | ellipsis => ['.', '.', '.']

/-- The words that modify a declaration. -/
def modifierWords : List Text :=
  ["public", "protected", "private", "static", "abstract", "final", "default", "native",
    "synchronized", "strictfp", "transient", "volatile", "sealed", "non-sealed"].map String.toList

/-- The words before the bounds of type parameters and before supertypes. -/
def boundWords : List Text :=
  ["extends", "implements", "super"].map String.toList

/-- The words with a meaning in declarations that stand as tokens of their own. -/
def keywords : List Text :=
  modifierWords ++ typeWords ++ boundWords

theorem mem_keywords_of_modifier {w : Text} (mem : w ∈ modifierWords) : w ∈ keywords :=
  List.mem_append_left _ (List.mem_append_left _ mem)

/-- A token of a declaration. -/
inductive Token where
  | name (q : QualifiedName)
  | arrayName (n : Name)
  | keyword (word : Text) (mem : word ∈ keywords)
  | mark (m : Mark)

def Token.text : Token → Text
  | name q => q.text
  | arrayName n => n.text ++ ['[', ']']
  | keyword word _ => word
  | mark m => m.text

/-- Whether a token begins with a character of a word. -/
def Token.beginsWord : Token → Bool
  | name _ | arrayName _ => true
  | keyword word _ => word ≠ "@interface".toList
  | mark _ => false

/-- Whether a token ends with a character of a word. -/
def Token.endsWord : Token → Bool
  | name _ | keyword _ _ => true
  | arrayName _ | mark _ => false

/-- Whether a token ends with an array dimension or with variable arity. -/
def Token.endsDimension : Token → Bool
  | name _ | keyword _ _ => false
  | arrayName _ => true
  | mark m => m = .dimension ∨ m = .ellipsis

/-- Whether a token is `@interface`. -/
def Token.opensAnnotationType : Token → Bool
  | keyword word _ => word = "@interface".toList
  | _ => false

/-- An annotation or a token. -/
inductive Item where
  | annotationUse (a : AnnotationUse)
  | token (t : Token)

def Item.text : Item → Text
  | annotationUse a => a.text
  | token t => t.text

/-- Whether an item begins with a character of a word. -/
def Item.beginsWord : Item → Bool
  | annotationUse _ => false
  | token t => t.beginsWord

/-- Whether an item ends with a character of a word. -/
def Item.endsWord : Item → Bool
  | annotationUse a => a.arguments.isNone
  | token t => t.endsWord

/-! ### Types -/

/-- Whether a token can stand between angle brackets, or in a list of supertypes. -/
def Token.isInner : Token → Bool
  | name _ => true
  | arrayName _ => false
  | keyword word _ => word ∈ boundWords
  | mark m => m ∈ [.comma, .wildcard, .ampersand, .dimension]

/-- What stands between angle brackets: names, wildcards, bounds, commas and array dimensions, and
further angle brackets to any depth. -/
inductive Enclosed where
  | nil
  | cons (t : Token) (inner : t.isInner) (rest : Enclosed)
  | group (inside rest : Enclosed)

def Enclosed.tokens : Enclosed → List Token
  | nil => []
  | cons t _ rest => t :: rest.tokens
  | group inside rest =>
    .mark .openAngle :: (inside.tokens ++ .mark .closeAngle :: rest.tokens)

/-- The tokens of type parameters or type arguments with their brackets. -/
def bracketed : Option Enclosed → List Token
  | none => []
  | some e => .mark .openAngle :: (e.tokens ++ [.mark .closeAngle])

/-- A type as it is used. -/
structure TypeUse where
  name : QualifiedName
  arguments : Option Enclosed := none
  dimensions : Nat := 0

def TypeUse.tokens (type : TypeUse) : List Token :=
  .name type.name :: (bracketed type.arguments ++ List.replicate type.dimensions (.mark .dimension))

/-! ### Members -/

/-- A modifier of a declaration. -/
inductive Modifier where
  | word (w : Text) (mem : w ∈ modifierWords)
  | annotationUse (a : AnnotationUse)

def Modifier.item : Modifier → Item
  | word w mem => .token (.keyword w (mem_keywords_of_modifier mem))
  | annotationUse a => .annotationUse a

/-- The keyword of parameters and variables that do not change. -/
def finalToken : Token :=
  .keyword "final".toList (by decide)

/-- A parameter of a method. -/
structure Parameter where
  annotations : List AnnotationUse := []
  /-- Whether it does not change. -/
  isFinal : Bool := false
  type : TypeUse
  /-- Whether there can be any number of arguments. -/
  variadic : Bool := false
  name : Name

def Parameter.tokens (p : Parameter) : List Token :=
  (if p.isFinal then [finalToken] else []) ++ (p.type.tokens ++
    ((if p.variadic then [.mark .ellipsis] else []) ++ [.name p.name.unqualified]))

def Parameter.items (p : Parameter) : List Item :=
  p.annotations.map .annotationUse ++ p.tokens.map .token

/-- Array dimensions. -/
def dimensionText (n : Nat) : Text :=
  (List.replicate n ['[', ']']).flatten

/-- The type of a parameter in a key: the last segment of the name and the array dimensions; there
is one more for variable arity. -/
def Parameter.typeText (p : Parameter) : Text :=
  p.type.name.name.text ++ dimensionText (p.type.dimensions + p.variadic.toNat)

/-- Lists with a separator between any two of them. -/
def separated {α β : Type} (separator : α) (f : β → List α) : List β → List α
  | [] => []
  | [b] => f b
  | b :: bs => f b ++ separator :: separated separator f bs

def parameterItems (ps : List Parameter) : List Item :=
  separated (.token (.mark .comma)) Parameter.items ps

/-- A method, or a constructor if there is no return type. -/
structure Method where
  modifiers : List Modifier := []
  typeParameters : Option Enclosed := none
  returnType : Option TypeUse := none
  name : Name
  parameters : List Parameter := []

def Method.tokens (m : Method) : List Token :=
  bracketed m.typeParameters ++ ((m.returnType.map TypeUse.tokens).getD [] ++
    [.name m.name.unqualified, .mark .openParen])

def Method.items (m : Method) : List Item :=
  m.modifiers.map Modifier.item ++ (m.tokens.map .token ++
    (parameterItems m.parameters ++ [.token (.mark .closeParen)]))

/-- A parameter with array dimensions behind its name. -/
structure ArrayParameter where
  base : Parameter
  trailing : Nat := 0

def ArrayParameter.tokens (p : ArrayParameter) : List Token :=
  p.base.tokens ++ List.replicate p.trailing (.mark .dimension)

def ArrayParameter.items (p : ArrayParameter) : List Item :=
  p.base.annotations.map .annotationUse ++ p.tokens.map .token

/-- The parameter with all its dimensions behind its type. -/
def ArrayParameter.leading (p : ArrayParameter) : Parameter :=
  { p.base with type := { p.base.type with dimensions := p.base.type.dimensions + p.trailing } }

/-- The items of a method with other parameters. -/
def Method.itemsWith (m : Method) (ps : List ArrayParameter) : List Item :=
  m.modifiers.map Modifier.item ++ (m.tokens.map .token ++
    (separated (.token (.mark .comma)) ArrayParameter.items ps ++ [.token (.mark .closeParen)]))

/-- A field. -/
structure Field where
  modifiers : List Modifier := []
  type : TypeUse
  name : Name
  /-- Whether an array dimension is attached to the name. -/
  isArray : Bool := false

def Field.tokens (f : Field) : List Token :=
  f.type.tokens ++ [if f.isArray then .arrayName f.name else .name f.name.unqualified]

def Field.items (f : Field) : List Item :=
  f.modifiers.map Modifier.item ++ f.tokens.map .token

/-- The supertypes of a type, from the keyword before them on. -/
structure Supertypes where
  /-- Whether they begin with `extends`, and not with `implements`. -/
  extending : Bool
  first : QualifiedName
  /-- What follows it. -/
  rest : Enclosed

theorem extends_mem_keywords : "extends".toList ∈ keywords := by
  decide

/-- The token before supertypes. -/
def Supertypes.opening (s : Supertypes) : Token :=
  if s.extending then .keyword "extends".toList extends_mem_keywords
  else .keyword "implements".toList (by decide)

def Supertypes.tokens (s : Supertypes) : List Token :=
  s.opening :: .name s.first :: s.rest.tokens

/-- The declaration of a type, up to its body. -/
structure TypeHeader where
  modifiers : List Modifier := []
  keyword : Text
  mem : keyword ∈ typeWords
  name : Name
  typeParameters : Option Enclosed := none
  supertypes : Option Supertypes := none

/-- The token that says what kind of type it is. -/
def TypeHeader.opening (h : TypeHeader) : Token :=
  .keyword h.keyword (by simp [keywords, h.mem])

def TypeHeader.tokens (h : TypeHeader) : List Token :=
  h.opening :: .name h.name.unqualified ::
    (bracketed h.typeParameters ++ (h.supertypes.map Supertypes.tokens).getD [])

def TypeHeader.items (h : TypeHeader) : List Item :=
  h.modifiers.map Modifier.item ++ h.tokens.map .token

/-- The declaration of a class by its name alone. -/
def TypeHeader.ofClass (name : Name) : TypeHeader where
  keyword := "class".toList
  mem := by decide
  name := name

end Declaration

open Declaration in
/-- A declaration. -/
inductive Declaration where
  | method (m : Method)
  | field (f : Field)
  | type (h : TypeHeader)

namespace Declaration

def items : Declaration → List Item
  | method m => m.items
  | field f => f.items
  | type h => h.items

/-- The key of a declaration in the class `owner`. -/
def key (owner : Text) : Declaration → SignatureKey
  | method m => {
      owner, member := m.name.text
      arguments := '(' :: (joinWith [','] (m.parameters.map Parameter.typeText) ++ [')']) }
  | field f => { owner, member := f.name.text }
  | type h => { owner := h.name.text, member := h.name.text, declaresInner := h.name.text ≠ owner }

/-- A method without its annotations. -/
def Method.unannotated (m : Method) : Method :=
  { m with
    modifiers := m.modifiers.filter fun
      | .word _ _ => true
      | .annotationUse _ => false
    parameters := m.parameters.map fun p => { p with annotations := [] } }

theorem key_unannotated (m : Method) (owner : Text) :
    (method m.unannotated).key owner = (method m).key owner := by
  have htypes : m.unannotated.parameters.map Parameter.typeText =
      m.parameters.map Parameter.typeText := by
    rw [Method.unannotated, List.map_map]
    rfl
  rw [key, key, htypes]
  rfl

/-- The parameter types of a declaration, if it has parameters. -/
def parameterTypes : Declaration → Option (List Text)
  | method m => some (m.parameters.map Parameter.typeText)
  | field _ | type _ => none

/-! ### Spellings -/

/-- A piece of a spelling. -/
inductive Piece where
  | gap (c : Char) (mem : c ∈ gapCharacters)
  | item (i : Item)

namespace Piece

def space : Piece :=
  .gap ' ' space_mem_gapCharacters

def text : Piece → Text
  | gap c _ => [c]
  | item i => i.text

def item? : Piece → Option Item
  | gap _ _ => none
  | item i => some i

/-- Whether two pieces side by side are not one word. -/
def apart : Piece → Piece → Bool
  | item i, item j => !(i.endsWord && j.beginsWord)
  | _, _ => true

/-- Whether two pieces side by side are two tokens that are not told apart without white space: a
word right behind an array dimension or variable arity, or `@interface` right behind either or
behind a word. -/
def clings : Piece → Piece → Bool
  | item (.token t), item (.token u) =>
    (t.endsDimension && u.beginsWord) ||
      ((t.endsDimension || t.endsWord) && u.opensAnnotationType)
  | _, _ => false

end Piece

def spelling (pieces : List Piece) : Text :=
  pieces.flatMap Piece.text

/-- Pieces spell items: they hold them in order, and no two words run together. -/
structure Spells (pieces : List Piece) (items : List Item) : Prop where
  items_eq : pieces.filterMap Piece.item? = items
  apart : pieces.IsChain fun p q => p.apart q

/-- No two pieces side by side cling to each other. -/
def Unclung (pieces : List Piece) : Prop :=
  pieces.IsChain fun p q => p.clings q = false

end Declaration

end DocGraft
