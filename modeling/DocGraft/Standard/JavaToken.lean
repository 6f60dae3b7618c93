import DocGraft.Text.Blank
import DocGraft.Text.Word

/-!
# Words and marks of Java code

Java code is a sequence of words and marks. Comments and white space between them do not count, and
a literal counts as one mark. An expression may stand in a string after a backslash and a brace; its
words and marks count, and the string goes on after its closing brace. A byte order mark may stand
before everything.
-/

namespace DocGraft.Standard

open Text

/-- A word or a mark of code with its offset. -/
structure Token where
  text : Text
  start : Nat
deriving DecidableEq, Repr

/-- Whether `c` can stand in a word of code. -/
def isWordPart (c : Char) : Bool :=
  isWord c || c = '$' || (0x80 ≤ c.toNat && !isBlank c)

def Token.isWord (token : Token) : Bool :=
  token.text.head?.any isWordPart

def Token.is (token : Token) (s : String) : Bool :=
  token.text = s.toList

/-- The word that begins a text, where the keyword of annotation types counts as one; empty if it
begins with a mark or with white space. -/
def leadingWord (s : Text) : Text :=
  let keyword := "@interface".toList
  match after? keyword s with
  | some rest => if rest.head?.any isWordPart then [] else keyword
  | none => s.takeWhile isWordPart

/-- A string that goes on after an expression in it. -/
structure Interrupted where
  /-- The quotes that end the string. -/
  fence : Text
  /-- The number of braces that are open in the expression. -/
  depth : Nat := 0
deriving DecidableEq, Repr

/-- The number of characters up to the end of a string that ends with `fence`, or up to and
including the marks that begin an expression in it, and whether it is the latter. -/
def stringLength (fence : Text) : Text → Nat × Bool
  | [] => (0, false)
  | '\\' :: '{' :: _ => (2, true)
  | '\\' :: _ :: s => let (n, more) := stringLength fence s; (n + 2, more)
  | c :: s =>
    if startsWith fence (c :: s) then (fence.length, false)
    else let (n, more) := stringLength fence s; (n + 1, more)

/-- The number of characters up to the end of a character in apostrophes, which ends with its line
if it is not closed. -/
def characterLength : Text → Nat
  | [] => 0
  | '\\' :: _ :: s => characterLength s + 2
  | c :: s => if c = '\'' then 1 else if c = '\n' then 0 else characterLength s + 1

/-- What is read at the beginning of a text. -/
structure Lexeme where
  /-- The word or the mark, if it counts. -/
  token : Option Text
  length : Nat
  /-- The strings that go on afterwards, innermost first. -/
  interrupted : List Interrupted
deriving DecidableEq, Repr

/-- Reads a string whose text begins after `lead` characters. -/
def readString (fence : Text) (lead : Nat) (s : Text) (outer : List Interrupted) : Lexeme :=
  let (n, more) := stringLength fence s
  ⟨some ['"'], lead + n, if more then { fence } :: outer else outer⟩

/-- Reads a brace, which may end an expression in a string. -/
def readBrace (brace : Char) (s : Text) : (interrupted : List Interrupted) → Lexeme
  | [] => ⟨some [brace], 1, []⟩
  | inner :: outer =>
    if brace = '{' then ⟨some [brace], 1, { inner with depth := inner.depth + 1 } :: outer⟩
    else if inner.depth = 0 then readString inner.fence 1 s outer
    else ⟨some [brace], 1, { inner with depth := inner.depth - 1 } :: outer⟩

/-- Reads what stands at the beginning of a text that is not empty. -/
def readLexeme (interrupted : List Interrupted) (s : Text) : Lexeme :=
  match s with
  | '/' :: '/' :: rest => ⟨none, 2 + run (· ≠ '\n') rest, interrupted⟩
  | '/' :: '*' :: rest => ⟨none, 2 + lengthThrough "*/".toList rest, interrupted⟩
  | '"' :: '"' :: '"' :: rest => readString ['"', '"', '"'] 3 rest interrupted
  | '"' :: rest => readString ['"'] 1 rest interrupted
  | '\'' :: rest => ⟨some ['"'], 1 + characterLength rest, interrupted⟩
  | ':' :: ':' :: _ => ⟨some [':', ':'], 2, interrupted⟩
  | '{' :: rest => readBrace '{' rest interrupted
  | '}' :: rest => readBrace '}' rest interrupted
  | c :: _ =>
    if isBlank c then ⟨none, 1, interrupted⟩
    else
      match leadingWord s with
      | [] => ⟨some [c], 1, interrupted⟩
      | word => ⟨some word, word.length, interrupted⟩
  | [] => ⟨none, 1, interrupted⟩

/-- The words and marks of code from offset `pos` on, once `skip` more characters have been passed
over, where the given strings have been interrupted. -/
def tokensFrom : (pos skip : Nat) → List Interrupted → Text → List Token
  | _, _, _, [] => []
  | pos, skip + 1, interrupted, _ :: s => tokensFrom (pos + 1) skip interrupted s
  | pos, 0, interrupted, c :: s =>
    let lexeme := readLexeme interrupted (c :: s)
    let rest := tokensFrom (pos + 1) (lexeme.length - 1) lexeme.interrupted s
    match lexeme.token with
    | some token => ⟨token, pos⟩ :: rest
    | none => rest

def codeTokens : Text → List Token
  | '\ufeff' :: s => tokensFrom 1 0 [] s
  | s => tokensFrom 0 0 [] s

end DocGraft.Standard
