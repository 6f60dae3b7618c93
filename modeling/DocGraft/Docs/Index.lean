import DocGraft.Docs.Page

/-!
# Documentation index

The index of a class holds the documentation of its declarations by key, from its page and the
pages of its inner classes. A later entry for a key takes the place of an earlier one.

The patterns of the pages are taken from a table, and those that it does not have are added to it.
An empty table counts as none: the pages then have a table of their own, which goes away with them.
-/

namespace DocGraft

/-- The documentation of a class by key. -/
structure DocIndex where
  /-- The entries in the order in which their keys first came up. -/
  entries : List DocEntry := []
deriving DecidableEq, Repr

namespace DocIndex

/-- Sets an entry; one with the same key is replaced in its place. -/
def put (entry : DocEntry) : List DocEntry → List DocEntry
  | [] => [entry]
  | e :: rest => if e.key.same entry.key then entry :: rest else e :: put entry rest

def get? (index : DocIndex) (key : SignatureKey) : Option LocalizedComment :=
  (index.entries.find? fun entry => entry.key.same key).map DocEntry.comment

def isEmpty (index : DocIndex) : Bool :=
  index.entries.isEmpty

structure Outcome where
  index : DocIndex := {}
  notices : List Notice := []
  patterns : PatternCache := .empty
  failure : Option Text.NumeralError := none

def addEntry (outcome : Outcome) : Except Notice DocEntry → Outcome
  | .ok entry => { outcome with index := ⟨put entry outcome.index.entries⟩ }
  | .error notice => { outcome with notices := outcome.notices ++ [notice] }

/-- Adds what a page gives to an index, unless something has stopped the building. -/
def addPage [Platform] (vocabulary : LabelVocabulary) (package : Text) (outcome : Outcome)
    (page : Text × Text) : Outcome :=
  if page.2 = [] ∨ outcome.failure.isSome then outcome
  else
    let (context, patterns) := PageContext.prepare outcome.patterns package page.1
    let reading := Docs.readPage vocabulary context page.2
    { reading.entries.foldl addEntry { outcome with patterns := patterns } with
      failure := reading.failure }

/-- Adds what pages give, by class path. -/
def addPages [Platform] (vocabulary : LabelVocabulary) (package : Text) (patterns : PatternCache)
    (pages : List (Text × Text)) : Outcome :=
  pages.foldl (addPage vocabulary package) { patterns := patterns }

/-- The index of the class `className` from its page and the pages of its inner classes, given by
class path; a page may be missing. -/
def build [Platform] (vocabulary : LabelVocabulary) (patterns : PatternCache) (className : Text)
    (markup : Option Text) (inner : List (Text × Text)) : Outcome :=
  let (package, name) := Text.cutLast '.' className
  let outcome := addPages vocabulary package patterns ((name, markup.getD []) :: inner)
  -- An empty table is passed over for a new one, so it stays empty.
  { outcome with patterns := if patterns.isEmpty then patterns else outcome.patterns }

end DocIndex

end DocGraft
