import DocGraft.Comment.Synthesis
import DocGraft.Notice
import DocGraft.Source.Brace
import DocGraft.Source.Location
import DocGraft.Source.Placeholder

/-!
# Scanning a source

A scanner walks from one documentation comment of a source to the next and finds the key of the
declaration that each documents. It keeps the scopes of the classes around the place it has reached.
A comment can be replaced while it is the current one, and at the end the source is put together
with all replacements.
-/

namespace DocGraft

open Text Source

/-- A class body that a scanner is inside of. -/
structure Scope where
  name : Text
  /-- The offset just past its closing brace. -/
  stop : Nat
deriving DecidableEq, Repr

/-- A documentation comment that may document a declaration. -/
structure Candidate where
  /-- The offset of the beginning of its line. -/
  start : Nat
  /-- The offset just past the comment. -/
  commentStop : Nat
  /-- The offset just past the line end that directly follows the comment, if there is one. -/
  stop : Nat
  /-- Whether code stands between the previous candidate and this one. -/
  codeBefore : Bool
deriving DecidableEq, Repr

/-- A piece of text that takes the place of what stands between two offsets. -/
structure Edit where
  /-- The offset of what is replaced. -/
  start : Nat
  /-- The offset just past it. -/
  stop : Nat
  /-- What takes its place. -/
  replacement : Text
deriving DecidableEq, Repr

/-- A scanner and what it has done so far. -/
structure Scanner where
  text : Text
  masked : Text
  kind : TypeKind
  /-- The innermost scope. -/
  scope : Scope
  /-- The scopes around it, innermost first. -/
  outerScopes : List Scope := []
  /-- The candidates still to come. -/
  pending : List Candidate
  /-- The comment that can be replaced. -/
  current : Option CommentSpan := none
  /-- The edits so far, in order. -/
  edits : List Edit := []
  /-- The number of comments replaced. -/
  replaced : Nat := 0
  /-- The source with its replacements, once it has been put together. -/
  result : Option Text := none
deriving DecidableEq, Repr

namespace Scanner

/-! ### Candidates -/

/-- The candidates among the segments of a text; `codeBefore` tells whether code has been met since
the last one. -/
def candidatesFrom (text : Text) : (codeBefore : Bool) → List Segment → List Candidate
  | _, [] => []
  | codeBefore, segment :: rest =>
    if isDocComment text segment then
      let follows := (text.drop segment.stop).head? = some '\n'
      { start := lineStart text segment.start
        commentStop := segment.stop
        stop := segment.stop + if follows then 1 else 0
        codeBefore := codeBefore } :: candidatesFrom text false rest
    else
      let isCode := !segment.region.isComment && !allBlank segment.text
      candidatesFrom text (codeBefore || isCode) rest

def candidates (text : Text) : List Candidate :=
  candidatesFrom text false (segments text)

/-- A scanner at the beginning of a source for the class `className`. -/
def start (source className : Text) (kind : TypeKind) : Scanner :=
  let text := insertPlaceholders source
  { text := text
    masked := mask text
    kind := kind
    scope := ⟨Signature.simpleName className, text.length⟩
    pending := candidates text }

/-! ### Declarations -/

/-- Whether the word `throws` begins here. -/
def throwsAt (before : Option Char) (s : Text) : Bool :=
  !before.any isWord && (after? "throws".toList s).any fun rest => !rest.head?.any isWord

/-- The length of a declaration up to its body, its value, its end, its exceptions or a comma
before a comment. -/
def declarationLength? (before : Option Char) : Text → Option Nat
  | [] => none
  | c :: s =>
    if throwsAt before (c :: s) || c = '{' || c = '=' || c = ';' || c = '}'
        || (c = ',' && startsWith "/*".toList (trimStart s)) then some 0
    else (declarationLength? (some c) s).map (· + 1)

/-- A comment becomes a space. -/
def commentRule : Rule := fun _ s =>
  match s with
  | '/' :: '*' :: rest => (cut? "*/".toList rest).map fun p => ([' '], p.1.length + 4)
  | '/' :: '/' :: rest => some ([' '], run (· ≠ '\n') rest + 2)
  | _ => none

/-- The default value of an element of an annotation type, up to the end of the text, goes away. -/
def defaultValueRule : Rule := fun _ s =>
  let gap := run isBlank s
  let default := after? "default".toList (s.drop gap)
  if 0 < gap && default.any fun rest => !rest.head?.any isWord then some ([], s.length) else none

/-- The text of the declaration that begins at an offset; in an annotation type, without empty
parentheses and without a default value. -/
def declarationAt? (scanner : Scanner) (start : Nat) : Option Text :=
  let rest := scanner.masked.drop start
  match declarationLength? ((scanner.masked.take start).getLast?) rest with
  | none | some 0 => none
  | some n =>
    let plain := substitute commentRule (rest.take n)
    let raw :=
      if scanner.kind = .annotationType then
        substitute defaultValueRule (replace "()".toList [] plain)
      else plain
    if allBlank raw then none else some raw

/-! ### Scopes -/

/-- Leaves the scopes that end before an offset; the outermost one is never left. -/
def leave (stop : Nat) : (scope : Scope) → (outer : List Scope) → Scope × List Scope
  | scope, [] => (scope, [])
  | scope, next :: rest => if scope.stop < stop then leave stop next rest else (scope, next :: rest)

def leaveScopes (scanner : Scanner) (stop : Nat) : Scanner :=
  let scopes := leave stop scanner.scope scanner.outerScopes
  { scanner with scope := scopes.1, outerScopes := scopes.2 }

def enterScope (scanner : Scanner) (scope : Scope) : Scanner :=
  { scanner with scope := scope, outerScopes := scanner.scope :: scanner.outerScopes }

def outermost (scanner : Scanner) : Scope :=
  scanner.outerScopes.getLast?.getD scanner.scope

/-- The key of the declaration that a candidate documents, with the scopes brought up to date. The
declaration of an inner class opens a scope. -/
def resolve (scanner : Scanner) (candidate : Candidate) :
    Option SignatureKey × Scanner × List Notice :=
  let scanner := scanner.leaveScopes candidate.stop
  let start := candidate.commentStop
    + Signature.annotationsLength (scanner.masked.drop candidate.commentStop)
  match scanner.declarationAt? start with
  | none =>
    (none, scanner, [.noDeclaration candidate.commentStop scanner.outermost.name
      (slice scanner.text candidate.commentStop (candidate.commentStop + 200))])
  | some raw =>
    match SignatureKey.ofDeclaration scanner.scope.name raw with
    | .error e => (none, scanner, [.badDeclaration e scanner.scope.name])
    | .ok key =>
      if key.declaresInner then
        match braceEnd? scanner.masked start with
        | some stop => (some key, scanner.enterScope ⟨key.owner, stop⟩, [])
        | none =>
          (some key, scanner.enterScope ⟨key.owner, candidate.stop⟩,
            [.unclosedClass scanner.outermost.name key.owner])
      else (some key, scanner, [])

/-! ### Going on -/

def edit (scanner : Scanner) (start stop : Nat) (replacement : Text) : Scanner :=
  { scanner with edits := scanner.edits ++ [⟨start, stop, replacement⟩] }

/-- The offset from which on the placeholder in a comment is taken out again. An inline placeholder
goes with the line end before it; at the beginning of the text, where there is none, the count wraps
around to the end of the text. -/
def placeholderStart (text comment : Text) (start : Nat) : Nat :=
  if contains Placeholder.inline.comment comment then
    if start = 0 then text.length - 1 else start - 1
  else start

def hasPlaceholder (comment : Text) : Bool :=
  contains Placeholder.line.comment comment || contains Placeholder.inline.comment comment

/-- What going on to the next comment gives. -/
structure Step where
  found : Option (CommentSpan × SignatureKey)
  scanner : Scanner
  notices : List Notice := []

/-- Goes through candidates up to the next one that documents a declaration. Banners and candidates
with no code before the next one are passed over, and placeholders are taken out. -/
def nextFrom : List Candidate → Scanner → Step
  | [], scanner => ⟨none, { scanner with pending := [] }, []⟩
  | candidate :: rest, scanner =>
    let comment := slice scanner.text candidate.start candidate.stop
    if isBanner comment then nextFrom rest scanner
    else if hasPlaceholder comment then
      let (_, resolved, notices) := scanner.resolve candidate
      let start := placeholderStart scanner.text comment candidate.start
      let step := nextFrom rest (resolved.edit start candidate.stop [])
      { step with notices := notices ++ step.notices }
    else if rest.head?.any fun next => !next.codeBefore then nextFrom rest scanner
    else
      match scanner.resolve candidate with
      | (none, resolved, notices) =>
        let step := nextFrom rest resolved
        { step with notices := notices ++ step.notices }
      | (some key, resolved, notices) =>
        let span : CommentSpan := ⟨comment, candidate.start, candidate.stop, some key⟩
        ⟨some (span, key), { resolved with pending := rest, current := some span }, notices⟩

def next (scanner : Scanner) : Step :=
  nextFrom scanner.pending { scanner with current := none }

/-! ### Replacing -/

/-- A key that is not that of the current comment. -/
structure KeyMismatch where
  /-- The key that was given. -/
  given : SignatureKey
  /-- The key of the current comment. -/
  current : SignatureKey
deriving DecidableEq, Repr

def KeyMismatch.message (e : KeyMismatch) : Text :=
  e.given.canonical ++ " is not the current comment (".toList ++ e.current.canonical ++ [')']

/-- Replaces the current comment by what `synthesize` makes of a localized one. Nothing happens
without a current comment or a localized one, and where there is nothing to show. -/
def localize (synthesize : CommentSpan → LocalizedComment → Synthesis) (key : SignatureKey)
    (doc : Option LocalizedComment) (scanner : Scanner) :
    Except KeyMismatch (Scanner × Option LayoutWarning) :=
  match doc, scanner.current with
  | some doc, some span =>
    let known := span.key.getD key
    if key.same known then
      let made := synthesize span doc
      let idle := { scanner with current := none }
      if made.text = [] ∨ made.text = span.text then .ok (idle, made.warning)
      else
        .ok ({ idle.edit span.start span.stop made.text with replaced := scanner.replaced + 1 },
          made.warning)
    else .error ⟨key, known⟩
  | _, _ => .ok (scanner, none)

/-! ### The result -/

/-- The text from offset `copied` on with edits. -/
def assemble (text : Text) : (copied : Nat) → List Edit → Text
  | copied, [] => text.drop copied
  | copied, e :: rest => slice text copied e.start ++ e.replacement ++ assemble text e.stop rest

def drain : (n : Nat) → Scanner → Scanner × List Notice
  | 0, scanner => (scanner, [])
  | n + 1, scanner =>
    let step := scanner.next
    match step.found with
    | none => (step.scanner, step.notices)
    | some _ =>
      let (scanner, notices) := drain n step.scanner
      (scanner, step.notices ++ notices)

/-- Passes over the rest of the comments and puts the source together. -/
def finish (scanner : Scanner) : Text × Scanner × List Notice :=
  match scanner.result with
  | some text => (text, scanner, [])
  | none =>
    let (scanner, notices) := drain (scanner.pending.length + 1) scanner
    let text := assemble scanner.text 0 scanner.edits
    (text, { scanner with result := some text }, notices)

/-- What visiting comments gives. -/
structure Visit where
  scanner : Scanner
  visited : List (SignatureKey × Text) := []
  warnings : List LayoutWarning := []
  notices : List Notice := []
  /-- The patterns that have been asked for. -/
  asked : List Pattern := []

/-- Visits at most `n` comments and replaces those that have a localized one. -/
def visit (synthesize : CommentSpan → LocalizedComment → Synthesis)
    (lookUp : SignatureKey → Option LocalizedComment) : (n : Nat) → Scanner → Visit
  | 0, scanner => { scanner := scanner }
  | n + 1, scanner =>
    let step := scanner.next
    match step.found with
    | none => { scanner := step.scanner, notices := step.notices }
    | some (span, key) =>
      let (scanner, warning) :=
        ((step.scanner.localize synthesize key (lookUp key)).toOption).getD (step.scanner, none)
      let rest := visit synthesize lookUp n scanner
      { scanner := rest.scanner
        visited := (key, span.text) :: rest.visited
        warnings := warning.toList ++ rest.warnings
        asked := ((lookUp key).map fun doc => (synthesize span doc).asked).getD [] ++ rest.asked
        notices := step.notices ++ warning.toList.map .misfit ++ rest.notices }

/-- Visits all comments still to come and replaces those that have a localized one. -/
def run (synthesize : CommentSpan → LocalizedComment → Synthesis)
    (lookUp : SignatureKey → Option LocalizedComment) (scanner : Scanner) : Visit :=
  visit synthesize lookUp (scanner.pending.length + 1) scanner

end Scanner

end DocGraft
