import DocGraft.Text.Numeral

/-!
# Command line arguments

The command line has three operands and some options. A long option can be shortened as long as it
stays the only one that begins so, and takes its value after an equals sign or as the next
argument. A short option takes its value right after its letter or as the next argument, and short
options can be joined. After two dashes all arguments are operands. A negative number, a single
dash and an argument with a space that fits no option are never taken for options. Two dashes that
stand in the place of an operand strike it out.
-/

namespace DocGraft

open Text

/-- What a command line says. -/
structure Arguments where
  /-- The directory of the sources, unless it is struck out. -/
  sourceDir : Option Text := none
  /-- The root of the documentation, unless it is struck out. -/
  docDir : Option Text := none
  /-- The directory of the merged sources, unless it is struck out. -/
  outputDir : Option Text := none
  sourceEncoding : Option Text := none
  docEncoding : Option Text := none
  outputEncoding : Option Text := none
  jobs : Option Int := none
  wrapWidth : Option Int := none
  report : Option Text := none
  /-- Whether to tell more of what is done. -/
  verbose : Bool := false
deriving DecidableEq, Repr

/-- The options of the command line. -/
inductive CommandOption where
  /-- Shows how the command is used. -/
  | help
  | sourceEncoding
  | docEncoding
  | outputEncoding
  | jobs
  | wrapWidth
  | report
  | verbose
deriving DecidableEq, Repr

/-- Why a command line cannot be followed. -/
inductive UsageError where
  /-- The use of the command was asked for. -/
  | helpWanted
  /-- An option could be several. -/
  | ambiguous (argument : Text)
  /-- An argument is neither an option nor an operand that is expected. -/
  | unrecognized (argument : Text)
  /-- An option lacks its value. -/
  | missingValue (option : CommandOption)
  /-- An option takes no value but is given one. -/
  | unwantedValue (option : CommandOption) (value : Text)
  /-- The value of an option is no number. -/
  | notNumber (option : CommandOption) (value : Text)
  /-- Fewer operands are given than expected. -/
  | missingOperands
deriving DecidableEq, Repr

namespace CommandOption

def spellings : List (String × CommandOption) :=
  [("-h", help), ("--help", help), ("--source-encoding", sourceEncoding),
   ("--doc-encoding", docEncoding), ("--output-encoding", outputEncoding), ("-j", jobs),
   ("--jobs", jobs), ("--wrap-width", wrapWidth), ("--report", report), ("-v", verbose),
   ("--verbose", verbose)]

def ofSpelling? (spelling : Text) : Option CommandOption :=
  (spellings.find? fun p => p.1.toList = spelling).map (·.2)

def takesValue : CommandOption → Bool
  | help | verbose => false
  | _ => true

/-- The long spelling of an option. -/
def name (option : CommandOption) : Text :=
  ((spellings.filter fun p => p.2 = option && 2 < p.1.length).map fun p => p.1.toList).headD []

end CommandOption

/-- The wording of why a command line cannot be followed. -/
def UsageError.message : UsageError → Text
  | helpWanted => []
  | ambiguous argument => "ambiguous option: ".toList ++ argument
  | unrecognized argument => "unrecognized argument: ".toList ++ argument
  | missingValue option => option.name ++ ": expected one argument".toList
  | unwantedValue option value => option.name ++ ": ignored explicit argument ".toList ++ value
  | notNumber option value => option.name ++ ": invalid int value: ".toList ++ value
  | missingOperands => "source_dir, doc_dir and output_dir are required".toList

namespace Arguments

/-- How the command is used. -/
def usage : Text :=
  ("usage: javadoc-merge [-h] [--source-encoding NAME] [--doc-encoding NAME]\n"
    ++ "       [--output-encoding NAME] [-j N] [--wrap-width N] [--report FILE] [-v]\n"
    ++ "       source_dir doc_dir output_dir\n").toList

/-! ### Kinds of arguments -/

/-- What an argument is. -/
inductive Reading where
  /-- An operand, or the value of an option. -/
  | plain
  /-- An option, perhaps with a value. -/
  | option (option : CommandOption) (isShort : Bool) (value : Option Text)
  /-- It looks like an option, but there is none that fits. -/
  | unknown
  /-- Several options fit. -/
  | ambiguous
deriving DecidableEq, Repr

/-- Whether a text is made of at least one digit. -/
def isDigits (s : Text) : Bool :=
  s ≠ [] && s.all fun c => (digitValue? c).isSome

/-- Whether an argument is a negative number, whole or with a point; a line end after it does not
count. -/
def isNegativeNumber (argument : Text) : Bool :=
  match argument with
  | '-' :: rest =>
    let body := if rest.getLast? = some '\n' then rest.dropLast else rest
    let whole := body.takeWhile (· ≠ '.')
    match body.drop whole.length with
    | [] => isDigits whole
    | _ :: fraction => (whole = [] || isDigits whole) && isDigits fraction
  | _ => false

/-- The text before the first equals sign and the text after it. -/
def cutAtEquals (argument : Text) : Text × Option Text :=
  let head := argument.takeWhile (· ≠ '=')
  match argument.drop head.length with
  | [] => (head, none)
  | _ :: value => (head, some value)

/-- The long options that begin like an argument. -/
def longMatches (argument : Text) : List Reading :=
  let (head, value) := cutAtEquals argument
  (CommandOption.spellings.filter fun p => startsWith head p.1.toList).map fun p =>
    .option p.2 false value

/-- The short option with which an argument begins, and what follows its letter. -/
def shortMatch? (argument : Text) : Option Reading :=
  (CommandOption.ofSpelling? (argument.take 2)).map fun option =>
    .option option true (some (argument.drop 2))

/-- What an argument is that fits no option. -/
def readOther (argument : Text) : Reading :=
  if isNegativeNumber argument || ' ' ∈ argument then .plain else .unknown

def isShortSpelling (spelling : Text) : Bool :=
  spelling.length = 2

/-- What an argument is. -/
def read (argument : Text) : Reading :=
  if argument.head? ≠ some '-' ∨ argument.length = 1 then .plain
  else
    match CommandOption.ofSpelling? argument with
    | some option => .option option (isShortSpelling argument) none
    | none =>
      let (head, value) := cutAtEquals argument
      match value.bind fun _ => CommandOption.ofSpelling? head with
      | some option => .option option (isShortSpelling head) value
      | none =>
        if startsWith ['-', '-'] argument then
          match longMatches argument with
          | [] => readOther argument
          | [reading] => reading
          | _ => .ambiguous
        else (shortMatch? argument).getD (readOther argument)

/-! ### Options -/

/-- What the options seen so far say, with the operands in order. -/
structure Draft where
  /-- The operands, with nothing for those that are struck out. -/
  operands : List (Option Text) := []
  /-- The number of operands seen before the last option. -/
  settled : Nat := 0
  /-- What the options say. -/
  options : Arguments := {}
deriving DecidableEq, Repr

/-- The number that the value of an option denotes. -/
def readNumber (option : CommandOption) (value : Text) : Except UsageError Int :=
  match toInt value with
  | .ok n => .ok n
  | .error _ => .error (.notNumber option value)

def setOption (option : CommandOption) (value : Text) (draft : Draft) : Except UsageError Draft :=
  match option with
  | .help => .error .helpWanted
  | .sourceEncoding => .ok { draft with options.sourceEncoding := some value }
  | .docEncoding => .ok { draft with options.docEncoding := some value }
  | .outputEncoding => .ok { draft with options.outputEncoding := some value }
  | .jobs => (readNumber option value).map fun n => { draft with options.jobs := some n }
  | .wrapWidth => (readNumber option value).map fun n => { draft with options.wrapWidth := some n }
  | .report => .ok { draft with options.report := some value }
  | .verbose => .ok { draft with options.verbose := true }

/-- Sets what joined short options say, given the letters after the first one; the option that still
needs the next argument as its value comes out. -/
def setJoined (option : CommandOption) :
    (letters : Text) → Draft → Except UsageError (Draft × Option CommandOption)
  | letters, draft =>
    if option.takesValue then
      if letters = [] then .ok (draft, some option)
      else (setOption option letters draft).map fun draft => (draft, none)
    else
      match letters with
      | [] => (setOption option [] draft).map fun draft => (draft, none)
      | letter :: rest =>
        match setOption option [] draft, CommandOption.ofSpelling? ['-', letter] with
        | .error e, _ => .error e
        | .ok _, none => .error (.unwantedValue option letters)
        | .ok draft, some next => setJoined next rest draft

/-- Sets what an option with its value says; the option that still needs the next argument as its
value comes out. -/
def setRead (option : CommandOption) (isShort : Bool) (value : Option Text) (draft : Draft) :
    Except UsageError (Draft × Option CommandOption) :=
  match value with
  | none => setJoined option [] draft
  | some value =>
    if option.takesValue then (setOption option value draft).map fun draft => (draft, none)
    else if isShort && value ≠ [] then setJoined option value draft
    else .error (.unwantedValue option value)

/-! ### Command lines -/

def operandCount : Nat := 3

def addOperands (operands : List (Option Text)) (draft : Draft) : Draft :=
  { draft with operands := draft.operands ++ operands }

/-- An argument after two dashes as an operand, which is struck out if it is two dashes again. -/
def operandOf (argument : Text) : Option Text :=
  if argument = ['-', '-'] then none else some argument

/-- Adds the arguments after two dashes. The first of them is an operand as it stands if none has
come since the last option. -/
def addRest (arguments : List Text) (draft : Draft) : Draft :=
  match arguments with
  | [] => draft
  | first :: others =>
    let operand := if draft.operands.length = draft.settled then some first else operandOf first
    addOperands (operand :: others.map operandOf) draft

/-- Marks the end of an option. -/
def settle (draft : Draft) : Draft :=
  { draft with settled := draft.operands.length }

/-- Reads arguments. Two dashes are only expected while operands were missing at the last option. -/
def readAll : List Text → Draft → Except UsageError Draft
  | [], draft => .ok draft
  | argument :: rest, draft =>
    if argument = ['-', '-'] then
      if draft.settled < operandCount then .ok (addRest rest draft)
      else .error (.unrecognized argument)
    else
      match read argument with
      | .plain => readAll rest (addOperands [some argument] draft)
      | .unknown => .error (.unrecognized argument)
      | .ambiguous => .error (.ambiguous argument)
      | .option option isShort value =>
        match setRead option isShort value draft with
        | .error e => .error e
        | .ok (draft, none) => readAll rest (settle draft)
        | .ok (draft, some waiting) =>
          match rest with
          | [] => .error (.missingValue waiting)
          | next :: rest =>
            if next ≠ ['-', '-'] ∧ read next = .plain then
              match setOption waiting next draft with
              | .error e => .error e
              | .ok draft => readAll rest (settle draft)
            else .error (.missingValue waiting)

def parse (arguments : List Text) : Except UsageError Arguments :=
  match readAll arguments {} with
  | .error e => .error e
  | .ok draft =>
    match draft.operands with
    | [source, doc, output] =>
      .ok { draft.options with sourceDir := source, docDir := doc, outputDir := output }
    | _ :: _ :: _ :: extra :: _ => .error (.unrecognized (extra.getD ['-', '-']))
    | _ => .error .missingOperands

end Arguments

end DocGraft
