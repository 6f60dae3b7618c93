import DocGraft.Text.Basic

/-!
# Paths

A path is a text of components with slashes between them. A path that begins with a slash is
absolute.
-/

namespace DocGraft.Path

open Text

/-- The path `b` seen from the directory `a`. -/
def join (a b : Text) : Text :=
  if b.head? = some '/' then b
  else if a = [] ∨ a.getLast? = some '/' then a ++ b
  else a ++ '/' :: b

/-- The last component, which is empty if the path ends with a slash. -/
def baseName (path : Text) : Text :=
  afterLast '/' path

/-- The path up to its last component, without slashes at the end unless there is nothing else. -/
def directory (path : Text) : Text :=
  let head := path.take (path.length - (baseName path).length)
  if head.all (· = '/') then head else trimEnd (· = '/') head

/-- The components after resolving dots; `above` tells whether two dots may go above the
beginning. -/
def resolveDots (above : Bool) (components : List Text) : List Text :=
  (components.foldl
    (fun (done : List Text) c =>
      if c = [] ∨ c = ['.'] then done
      else if c = ['.', '.'] then
        match done with
        | [] => if above then [c] else []
        | d :: rest => if d = ['.', '.'] then c :: done else rest
      else c :: done)
    []).reverse

/-- The number of slashes that a resolved path begins with: exactly two stay two, more become one.
-/
def rootSlashes (path : Text) : Nat :=
  match run (· = '/') path with
  | 0 => 0
  | 2 => 2
  | _ => 1

/-- The path without dots and repeated slashes, as far as that can be told from its text. -/
def resolve (path : Text) : Text :=
  let slashes := rootSlashes path
  let body := joinWith ['/'] (resolveDots (slashes = 0) (fields '/' path))
  let whole := List.replicate slashes '/' ++ body
  if whole = [] then ['.'] else whole

end DocGraft.Path
