import DocGraft.Memo
import DocGraft.Text.Blank
import DocGraft.Text.Rule
import DocGraft.Text.Word

/-!
# Patterns

Most patterns are fixed. Those with the package or the class of a page in them, and those for long
words at a width, are made while a merge goes on, and are kept in a table for the next time. The
table knows a pattern by its text and its flags; a pattern can be told from these.
-/

namespace DocGraft

open Text

namespace Comment

/-- Whether `c` is a printable ASCII character other than the space. -/
def isAsciiGraphic (c : Char) : Bool :=
  '!' ≤ c && c ≤ '~'

/-- A run of at least `least` ASCII characters begins a line of its own, in place of the white space
before it. -/
def longWordRule (least : Nat) : Rule := fun _ s =>
  let gap := if s.head?.any isBlank then 1 else 0
  let word := (s.drop gap).takeWhile isAsciiGraphic
  if least ≤ word.length then some ('\n' :: word, gap + word.length) else none

end Comment

/-- A pattern that is made while a merge goes on. -/
inductive Pattern where
  /-- The package of a page, which is left out of references. -/
  | ownPackage (package : Text)
  /-- The class of a page, which is left out of references. -/
  | ownClass (path : Text)
  /-- A word of at least `least` ASCII characters. -/
  | longWord (least : Nat)
deriving Repr

namespace Pattern

/-! ### Texts of patterns -/

/-- The characters that mean something else than themselves in a pattern. -/
def specialCharacters : List Char :=
  "()[]\x7b\x7d?*+-|^$\\.&~# \t\n\r\x0b\x0c".toList

/-- The pattern for a text. -/
def escape (s : Text) : Text :=
  s.flatMap fun c => if c ∈ specialCharacters then ['\\', c] else [c]

/-- The text with which every pattern of a kind begins. -/
def opening : Pattern → String
  | ownPackage _ => "(?<![\\w$])"
  | ownClass _ => "(?<![\\w$.])"
  | longWord _ => "\\s?([\\x21-\\x7e]\x7b"

/-- What follows the text with which a pattern begins. -/
def ending : Pattern → Text
  | ownPackage package => escape package ++ "\\.([A-Z])".toList
  | ownClass path => escape path ++ ['#']
  | longWord least => ofNat least ++ ",\x7d)".toList

def text (pattern : Pattern) : Text :=
  pattern.opening.toList ++ pattern.ending

/-- The text and the flags of a pattern, of which none are set. -/
def key (pattern : Pattern) : Text × Int :=
  (pattern.text, 0)

theorem escape_cons (c : Char) (s : Text) :
    escape (c :: s) = (if c ∈ specialCharacters then ['\\', c] else [c]) ++ escape s := rfl

/-- A text can be told from the pattern for it: a backslash stands only before special
characters, of which it is one. -/
theorem escape_inj {s t : Text} (h : escape s = escape t) : s = t := by
  have hslash : '\\' ∈ specialCharacters := by decide
  induction s generalizing t with
  | nil =>
    cases t with
    | nil => rfl
    | cons d t =>
      rw [escape_cons] at h
      split at h <;> exact absurd h (by simp [escape])
  | cons c s ih =>
    cases t with
    | nil =>
      rw [escape_cons] at h
      split at h <;> exact absurd h (by simp [escape])
    | cons d t =>
      rw [escape_cons, escape_cons] at h
      by_cases hc : c ∈ specialCharacters <;> by_cases hd : d ∈ specialCharacters <;>
        simp only [hc, hd, if_true, if_false, List.cons_append, List.nil_append,
          List.cons.injEq] at h
      · rw [h.2.1, ih h.2.2]
      · exact absurd (h.1 ▸ hslash) hd
      · exact absurd (h.1 ▸ hslash) hc
      · rw [h.1, ih h.2]

theorem ending_inj {p q : Pattern} (hopening : p.opening.toList = q.opening.toList)
    (h : p.ending = q.ending) : p = q := by
  cases p <;> cases q
  case ownPackage.ownPackage => rw [escape_inj (List.append_cancel_right h)]
  case ownClass.ownClass => rw [escape_inj (List.append_cancel_right h)]
  case longWord.longWord => rw [ofNat_inj (List.append_cancel_right h)]
  all_goals
    dsimp only [opening] at hopening
    exact absurd hopening (by decide)

theorem text_inj {p q : Pattern} (h : p.text = q.text) : p = q := by
  -- The patterns of different kinds differ in their ninth character at the latest.
  have hninth (p : Pattern) : p.text[8]? = p.opening.toList[8]? :=
    List.getElem?_append_left (by cases p <;> (dsimp only [opening]; decide))
  have hsame : p.opening.toList[8]? = q.opening.toList[8]? := by rw [← hninth, h, hninth]
  have hopening : p.opening.toList = q.opening.toList := by
    cases p <;> cases q <;> first
      | rfl
      | dsimp only [opening] at hsame
        exact absurd hsame (by decide)
  refine ending_inj hopening ?_
  rw [text, text, hopening] at h
  exact List.append_cancel_left h

theorem key_inj {p q : Pattern} : p.key = q.key ↔ p = q :=
  ⟨fun h => text_inj (congrArg Prod.fst h), congrArg key⟩

/-- Patterns are compared by text and flags. -/
instance decidableEq : DecidableEq Pattern := fun _ _ =>
  decidable_of_decidable_of_iff key_inj

/-! ### What patterns do -/

/-- Whether `c` can stand in a Java name. -/
def isJavaName (c : Char) : Bool :=
  isWord c || c = '$'

/-- Drops the package `package` before a capital letter, unless a character satisfying `bound`
stands before it. -/
def packageRule (bound : Char → Bool) (package : Text) : Rule := fun before s =>
  if before.any bound then none
  else
    match after? (package ++ ['.']) s with
    | some (c :: _) => if 'A' ≤ c ∧ c ≤ 'Z' then some ([c], package.length + 2) else none
    | _ => none

/-- Drops the class `path` before a member, unless it is part of a longer name. -/
def classRule (path : Text) : Rule := fun before s =>
  if before.any fun c => isJavaName c || c = '.' then none
  else if startsWith (path ++ ['#']) s then some (['#'], path.length + 1)
  else none

def rule : Pattern → Rule
  | ownPackage package => packageRule isJavaName package
  | ownClass path => classRule path
  | longWord least => Comment.longWordRule least

end Pattern

/-- The table of the patterns that have been made. -/
abbrev PatternCache := Memo Pattern.rule

end DocGraft
