import DocGraft.Standard.JavaToken
import DocGraft.Standard.PageTree

/-!
# Parse trees of sources

Only what a merge looks at has nodes: the declaration of the package, and the braces and
parentheses, in which the declarations of types stand out. They are read from the words and marks of
the code alone. The bodies of types, enumerations and anonymous classes are bodies; the body of a
method does not hide the types in it.
-/

namespace DocGraft.Standard

open Text

/-! ### The tree -/

/-- The beginning of the declaration of a type. -/
structure Declared where
  /-- The name of its rule. -/
  type : String
  name : Token
  /-- The offset at which the declaration begins, modifiers and annotations included. -/
  start : Nat
deriving DecidableEq, Repr

/-- A place in which annotations may stand. -/
inductive Site where
  /-- Modifiers that began at an offset, when a number of parts stood before them. -/
  | modifiers (start parts : Nat)
  /-- The type of a creation, with a number of angle brackets open. -/
  | creation (angles : Nat)
  /-- The end of a method reference, with a number of angle brackets open. -/
  | reference (angles : Nat)
deriving DecidableEq, Repr

/-- What was opened and is not finished. -/
inductive Bracket where
  /-- The declaration of a type, up to the end of its body. -/
  | declaration (declaration : Declared)
  /-- The body of a declared type. -/
  | typeBody
  /-- The body of an anonymous class. -/
  | classBody
  /-- Another text in braces. -/
  | block
  /-- The arguments of a creation, after which a body may follow. -/
  | creation
  /-- The arguments of an annotation. -/
  | annotationArguments (site : Site)
  /-- Other parentheses. -/
  | parentheses
deriving DecidableEq, Repr

/-- Whether statements or members stand right inside. -/
def Bracket.holdsStatements : Bracket → Bool
  | typeBody | classBody | block => true
  | _ => false

/-- Something that is open, with its parts so far in reverse order. -/
structure OpenBracket where
  bracket : Bracket
  /-- The parts so far, the last one first. -/
  parts : List ParseTree

/-- What the last token leaves open. -/
inductive Expectation where
  | nothing
  /-- More of what stands in a place. -/
  | more (site : Site)
  /-- The name of an annotation. -/
  | annotationName (site : Site)
  /-- More of an annotation after its name, or of what stands in its place. -/
  | annotationRest (site : Site)
  /-- The name of a type that is being declared. -/
  | typeName
  /-- A body after the arguments of a creation. -/
  | creationBody
deriving DecidableEq, Repr

/-- The place that has been begun. -/
def Expectation.site? : Expectation → Option Site
  | more site | annotationRest site => some site
  | _ => none

/-- The state of reading an outline. -/
structure OutlineBuild where
  /-- What is open, innermost first. -/
  stack : List OpenBracket := []
  /-- The finished parts outside everything, the last one first. -/
  done : List ParseTree := []
  /-- What the last token leaves open. -/
  expects : Expectation := .nothing
  /-- The last token. -/
  last : Option Token := none

namespace OutlineBuild

/-- The parts at the innermost level, the last one first. -/
def parts (build : OutlineBuild) : List ParseTree :=
  match build.stack with
  | [] => build.done
  | top :: _ => top.parts

def setParts (parts : List ParseTree) (build : OutlineBuild) : OutlineBuild :=
  match build.stack with
  | [] => { build with done := parts }
  | top :: rest => { build with stack := { top with parts := parts } :: rest }

/-- Opens a bracket that has some parts already. -/
def pushWith (bracket : Bracket) (parts : List ParseTree) (build : OutlineBuild) :
    OutlineBuild :=
  { build with stack := ⟨bracket, parts⟩ :: build.stack, expects := .nothing }

def push (bracket : Bracket) (build : OutlineBuild) : OutlineBuild :=
  build.pushWith bracket []

def top? (build : OutlineBuild) : Option Bracket :=
  build.stack.head?.map OpenBracket.bracket

/-- The node of what has been finished. The end of a declaration is left open. -/
def finished (frame : OpenBracket) : ParseTree :=
  match frame.bracket with
  | .declaration declaration =>
    let name := declaration.name
    let place : Stretch := ⟨name.start, name.start + name.text.length⟩
    nodeAt declaration.type ⟨declaration.start, place.stop⟩
      (.node ⟨"identifier".toList, some "name".toList, place.start, place.stop, (0, 0)⟩ [] ::
        frame.parts.reverse)
  | .typeBody | .classBody => nodeAt "class_body" ⟨0, 0⟩ frame.parts.reverse
  | _ => nodeAt "block" ⟨0, 0⟩ frame.parts.reverse

def closeTop (build : OutlineBuild) : OutlineBuild :=
  match build.stack with
  | [] => build
  | top :: rest =>
    let outer := { build with stack := rest, expects := .nothing }
    outer.setParts (finished top :: outer.parts)

/-- Closes what is open innermost, `n` times. -/
def closeMany : (n : Nat) → OutlineBuild → OutlineBuild
  | 0, build => build
  | n + 1, build => closeMany n build.closeTop

/-- Closes a declaration that is open innermost. -/
def closeDeclaration (build : OutlineBuild) : OutlineBuild :=
  match build.top? with
  | some (.declaration _) => build.closeTop
  | _ => build

/-- The modifiers in front of a token: those that have been begun, or none yet. -/
def modifiersAt (token : Token) (build : OutlineBuild) : Site :=
  match build.expects.site? with
  | some (.modifiers start parts) => .modifiers start parts
  | _ => .modifiers token.start build.parts.length

end OutlineBuild

/-! ### Words -/

def modifierWords : List String :=
  ["public", "protected", "private", "abstract", "static", "final", "strictfp", "default",
   "synchronized", "native", "transient", "volatile", "sealed"]

/-- Whether a word is a modifier, given the tokens after it; one of them has a dash in it. -/
def isModifier (token : Token) (rest : List Token) : Bool :=
  modifierWords.any token.is ||
    match rest with
    | dash :: word :: _ =>
      token.is "non" && dash.is "-" && word.is "sealed" && word.start = token.start + 4
    | _ => false

/-- The words after which an expression may begin. -/
def leadingWords : List String :=
  ["return", "throw", "yield", "case", "assert", "else", "do", "when"]

/-- The tokens after the closing parenthesis, with `depth` parentheses open. -/
def afterParentheses : (depth : Nat) → List Token → List Token
  | _, [] => []
  | depth, token :: rest =>
    if token.is "(" then afterParentheses (depth + 1) rest
    else if token.is ")" then if depth ≤ 1 then rest else afterParentheses (depth - 1) rest
    else afterParentheses depth rest

/-- Whether the header of a record goes on with tokens, from its parameters on. -/
def isRecordRest (tokens : List Token) : Bool :=
  match tokens with
  | [] => false
  | token :: _ =>
    token.is "<" ||
      (token.is "(" && (afterParentheses 0 tokens).head?.any fun next =>
        next.is "\x7b" || next.is "implements")

/-- The rule for what a keyword declares and the name of the type, given the tokens after it. -/
def declared? (token : Token) (rest : List Token) : Option (String × Token) :=
  match rest with
  | [] => none
  | name :: tail =>
    let type :=
      if token.is "class" then some "class_declaration"
      else if token.is "interface" then some "interface_declaration"
      else if token.is "enum" then some "enum_declaration"
      else if token.is "@interface" then some "annotation_type_declaration"
      else if token.is "record" && isRecordRest tail then some "record_declaration"
      else none
    if name.isWord then type.map (·, name) else none

namespace OutlineBuild

/-- Whether a declaration may begin here: where statements or members stand, at the beginning of one
of them or after modifiers. -/
def mayDeclare (build : OutlineBuild) : Bool :=
  let opening (token : Token) : Bool :=
    [";", "\x7b", "\x7d", ":", ")", "else", "do"].any token.is
  let begun :=
    match build.expects with
    | .more (.modifiers _ _) | .annotationRest (.modifiers _ _) => true
    | .nothing | .creationBody => build.last.all opening
    | _ => false
  begun && build.top?.all Bracket.holdsStatements

/-- Whether a name or a type comes last, so that a word after it is a name. -/
def afterName (build : OutlineBuild) : Bool :=
  build.last.any fun token =>
    token.is "]" || (token.isWord && !leadingWords.any token.is)

/-- What a word leaves open where nothing else is. -/
def afterWord (token : Token) (rest : List Token) (build : OutlineBuild) : Expectation :=
  if token.is "new" && !build.afterName then .more (.creation 0)
  else if isModifier token rest then .more (build.modifiersAt token)
  else .nothing

def stepWord (token : Token) (rest : List Token) (build : OutlineBuild) : OutlineBuild :=
  let expects :=
    match build.expects with
    | .annotationName site => .annotationRest site
    | .typeName => .nothing
    | .more (.creation n) | .annotationRest (.creation n) => .more (.creation n)
    | .more (.reference (n + 1)) | .annotationRest (.reference (n + 1)) =>
      .more (.reference (n + 1))
    | .more (.reference 0) => .nothing
    | _ => build.afterWord token rest
  { build with expects := expects }

/-- Begins the declaration of a type. The parts of its modifiers are parts of it. -/
def declare (type : String) (name token : Token) (build : OutlineBuild) : OutlineBuild :=
  match build.modifiersAt token with
  | .modifiers start parts =>
    let own := build.parts.length - parts
    let outer := build.setParts (build.parts.drop own)
    { outer.pushWith (.declaration ⟨type, name, start⟩) (build.parts.take own) with
      expects := .typeName }
  | _ => build

def openParenthesis (build : OutlineBuild) : OutlineBuild :=
  match build.expects with
  | .annotationRest site => build.push (.annotationArguments site)
  | .more (.creation 0) => build.push .creation
  | _ => build.push .parentheses

def closeParenthesis (build : OutlineBuild) : OutlineBuild :=
  match build.top? with
  | some (.annotationArguments site) => { build.closeTop with expects := .more site }
  | some .creation => { build.closeTop with expects := .creationBody }
  | _ => build.closeTop

def openBrace (build : OutlineBuild) : OutlineBuild :=
  match build.top? with
  | some (.declaration _) => build.push .typeBody
  | _ => build.push (if build.expects = .creationBody then .classBody else .block)

/-- Takes a closing brace into account; the declaration of a type ends with its body. -/
def closeBrace (build : OutlineBuild) : OutlineBuild :=
  match build.top? with
  | some .typeBody => build.closeTop.closeDeclaration
  | _ => build.closeDeclaration.closeTop

/-- What a mark other than a bracket of the tree leaves open. -/
def afterMark (token : Token) (build : OutlineBuild) : Expectation :=
  if token.is "::" then .more (.reference 0)
  else if token.is "@" then
    match build.expects.site? with
    | some (.creation n) => .annotationName (.creation n)
    | some (.reference n) => .annotationName (.reference n)
    | _ => .annotationName (build.modifiersAt token)
  else if token.is "." then
    match build.expects with
    | .annotationRest site => .annotationName site
    | .more (.creation n) => .more (.creation n)
    | .more (.reference (n + 1)) => .more (.reference (n + 1))
    | _ => .nothing
  else if token.is "-" then
    match build.expects with
    | .more (.modifiers start parts) => .more (.modifiers start parts)
    | _ => .nothing
  else
    let opened := if token.is "<" then 1 else 0
    let closed := if token.is ">" then 1 else 0
    let inner (n : Nat) : Bool := 0 < n + opened
    match build.expects.site? with
    | some (.creation n) => if inner n then .more (.creation (n + opened - closed)) else .nothing
    | some (.reference n) => if inner n then .more (.reference (n + opened - closed)) else .nothing
    | _ => .nothing

def stepMark (token : Token) (build : OutlineBuild) : OutlineBuild :=
  if token.is "(" then build.openParenthesis
  else if token.is ")" then build.closeParenthesis
  else if token.is "\x7b" then build.openBrace
  else if token.is "\x7d" then build.closeBrace
  else { build with expects := build.afterMark token }

/-- Takes a token into account, given the tokens after it. -/
def step (token : Token) (rest : List Token) (build : OutlineBuild) : OutlineBuild :=
  let declared := if build.mayDeclare then declared? token rest else none
  let next :=
    match declared with
    | some (type, name) => build.declare type name token
    | none => if token.isWord then build.stepWord token rest else build.stepMark token
  { next with last := some token }

def steps : List Token → OutlineBuild → OutlineBuild
  | [], build => build
  | token :: rest, build => steps rest (build.step token rest)

end OutlineBuild

/-- The parts of a source outside all brackets. -/
def outline (tokens : List Token) : List ParseTree :=
  let build := OutlineBuild.steps tokens {}
  (build.closeMany build.stack.length).done.reverse

/-! ### The package -/

/-- How far a statement has been read outside all brackets. -/
inductive Reach where
  /-- Nothing but annotations. -/
  | annotations
  /-- Annotations and the mark of another one, or a dot in its name. -/
  | annotationMark
  /-- Annotations, the last one up to its name. -/
  | annotationName
  /-- More than that. -/
  | inside
deriving DecidableEq, Repr

/-- How far a statement has been read after a token outside all brackets. -/
def Reach.next (reach : Reach) (token : Token) : Reach :=
  if token.is ";" || token.is "\x7d" then .annotations
  else
    match reach with
    | .annotations => if token.is "@" then .annotationMark else .inside
    | .annotationMark => if token.isWord then .annotationName else .inside
    | .annotationName =>
      if token.is "@" || token.is "." then .annotationMark
      else if token.is ")" then .annotations
      else .inside
    | .inside => .inside

/-- The tokens after the word `package` at the beginning of a statement outside all brackets, of
which `depth` are open. -/
def afterPackage? : (depth : Nat) → Reach → List Token → Option (List Token)
  | _, _, [] => none
  | depth, reach, token :: rest =>
    if token.is "\x7b" || token.is "(" then afterPackage? (depth + 1) reach rest
    else if token.is "\x7d" || token.is ")" then
      afterPackage? (depth - 1) (if depth ≤ 1 then reach.next token else reach) rest
    else if 0 < depth then afterPackage? depth reach rest
    else if token.is "package" && (reach = .annotations || reach = .annotationName) then some rest
    else afterPackage? depth (reach.next token) rest

/-- The declaration of the package of a source: its name goes up to the semicolon. -/
def packageNode? (tokens : List Token) : Option ParseTree :=
  (afterPackage? 0 .annotations tokens).bind fun rest =>
    let name := rest.takeWhile fun token => !token.is ";"
    match name, name.getLast? with
    | first :: _, some last =>
      let place : Stretch := ⟨first.start, last.start + last.text.length⟩
      some (nodeAt "package_declaration" place [nodeAt "scoped_identifier" place])
    | _, _ => none

/-! ### The tree of a source -/

def sourceTree (text : Text) : ParseTree :=
  let tokens := codeTokens text
  measured text (nodeAt "program" ⟨0, text.length⟩ ((packageNode? tokens).toList ++ outline tokens))

end DocGraft.Standard
