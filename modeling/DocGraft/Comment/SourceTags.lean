import DocGraft.Text.Blank
import DocGraft.Text.Lines
import DocGraft.Text.Rule
import DocGraft.Text.Word

/-!
# Reading the comment in the source

What a localized comment may keep depends on the comment in the source: which block tags it has,
with which values, and whether it has a description at all.
-/

namespace DocGraft.Comment

open Text

/-- `@exception` between white space is an older name of `@throws`. -/
def exceptionTagRule : Rule := fun _ s =>
  match s with
  | [] => none
  | c :: rest =>
    match after? "@exception".toList rest with
    | some (d :: _) => if isBlank c && isBlank d then some (" @throws ".toList, 12) else none
    | _ => none

/-- A line of a comment without the spaces and the star in front. -/
def undecorateLine (line : Text) : Text :=
  match line.dropWhile (· = ' ') with
  | '*' :: rest => rest.dropWhile (· = ' ')
  | _ => line

/-- A comment without the spaces and the stars in front of its lines. -/
def undecorate (source : Text) : Text :=
  mapLines undecorateLine source

/-- Whether a tag value ends here: before the white space in front of another tag, or before the
slash that ends the comment. -/
def valueEndsAt : Text → Bool
  | c :: '@' :: d :: rest => (c ≠ '{' && isWord d) || (c = '/' && allBlank ('@' :: d :: rest))
  | c :: rest => c = '/' && allBlank rest
  | [] => false

/-- The text up to the next place where a tag value ends. -/
def valueUpToEnd? : Text → Option Text
  | [] => none
  | c :: s => if valueEndsAt (c :: s) then some [] else (valueUpToEnd? s).map (c :: ·)

/-- The number of spaces before the value of a tag, and the value. The value begins after all
spaces, unless only an earlier beginning lets it end. -/
def tagValue? (s : Text) : (spaces : Nat) → Option (Nat × Text)
  | 0 => (valueUpToEnd? s).map (0, ·)
  | n + 1 => ((valueUpToEnd? (s.drop (n + 1))).map (n + 1, ·)).or (tagValue? s n)

/-- The values of `tag` once `skip` more characters have been passed over. -/
def tagValuesFrom (tag : Text) : (skip : Nat) → Text → List Text
  | _, [] => []
  | skip + 1, _ :: s => tagValuesFrom tag skip s
  | 0, c :: s =>
    let found := (after? tag (c :: s)).bind fun rest => tagValue? rest (run (· = ' ') rest)
    match found with
    | some (gap, value) => value :: tagValuesFrom tag (tag.length + gap + value.length - 1) s
    | none => tagValuesFrom tag 0 s

/-- The values of `tag` in a comment; a value may go on over several lines. -/
def wrappedTagValues (tag source : Text) : List Text :=
  if contains tag source then tagValuesFrom tag 0 (undecorate source) else []

/-- The value of `tag` where spaces and the tag stand here and a line end follows, with the number
of characters up to and including that line end. -/
def lineTagValue? (tag s : Text) : Option (Text × Nat) :=
  let lead := run (· = ' ') s
  if lead = 0 then none
  else
    (after? tag (s.drop lead)).bind fun rest =>
      let gap := run (· = ' ') rest
      let value := (rest.drop gap).takeWhile (· ≠ '\n')
      let taken := gap + value.length
      if rest.head?.any isWord || (rest.drop taken).isEmpty then none
      else some (value, lead + tag.length + taken + 1)

/-- The one-line values of `tag` once `skip` more characters have been passed over. -/
def lineTagValuesFrom (tag : Text) : (skip : Nat) → Text → List Text
  | _, [] => []
  | skip + 1, _ :: s => lineTagValuesFrom tag skip s
  | 0, c :: s =>
    match lineTagValue? tag (c :: s) with
    | some (value, n) => value :: lineTagValuesFrom tag (n - 1) s
    | none => lineTagValuesFrom tag 0 s

def lineTagValues (tag source : Text) : List Text :=
  lineTagValuesFrom tag 0 source

/-- Whether `tag` stands between white space in a comment. -/
def mentionsTag (tag : Text) : Text → Bool
  | [] => false
  | c :: s =>
    (isBlank c && (after? tag s).any fun rest => rest.head?.any isBlank) || mentionsTag tag s

def afterOpening? (source : Text) : Option Text :=
  after? "/**".toList (trimStart source)

/-- Whether a comment has block tags and no description: its first text is a tag. -/
def isTagsOnly (source : Text) : Bool :=
  (afterOpening? source).any fun rest =>
    (rest.dropWhile fun c => isBlank c || c = '*').head? = some '@'

/-- Whether the first text of a comment is a tag after one star. -/
def lacksDescription (source : Text) : Bool :=
  (afterOpening? source).any fun rest =>
    match trimStart rest with
    | '*' :: tail => (trimStart tail).head? = some '@'
    | _ => false

/-- Whether the text of a comment begins on a line below its opening. -/
def hasBlankFirstLine (source : Text) : Bool :=
  (afterOpening? source).any fun rest => '\n' ∈ rest.takeWhile isBlank

end DocGraft.Comment
