import DocGraft.Comment.Layout

/-!
# Resizing a layout

A layout that is too high is shrunk in steps: what the source does not document goes away, markup is
joined and empty lines are dropped, the text moves up to the line of the opening, and the width
grows. If that is not enough the description is joined into one line, and then cut after its first
sentence. A layout that is too low gets empty lines around its blocks and line ends above.

Every step is taken only while the layout does not fit, and the order of the steps shows in the
result.
-/

namespace DocGraft.Layout

open Text Comment

/-! ### Rules -/

/-- An empty paragraph before another one goes away. -/
def paragraphRule : Rule := literalRule "<p>\n\n<p>".toList "<p>".toList

/-- White space before one of the tags goes away. -/
def joinRule (tags : List String) : Rule := fun _ s =>
  let gap := run isBlank s
  if 0 < gap ∧ tags.any (fun tag => startsWith tag.toList (s.drop gap)) then some ([], gap)
  else none

/-- A table cell or the end of a row joins the line before it. -/
def cellRule : Rule := joinRule ["<th", "<td", "</tr"]

/-- A list item or the end of a list joins the line before it. -/
def itemRule : Rule := joinRule ["<li", "</ul", "</ol"]

/-- A blank line goes away. -/
def blankLineRule : Rule := fun before s =>
  let gap := run (fun c => isBlank c && c ≠ '\n') s
  if before.all (· = '\n') ∧ (s.drop gap).head? = some '\n' then some ([], gap + 1) else none

/-- A block that begins a line right below other text gets an empty line above. -/
def openerRule : Rule := fun _ s =>
  match s with
  | c :: '\n' :: rest =>
    let opensBlock := ["<blockquote>", "<pre>", "<ol>", "<ul>"].any fun tag =>
      startsWith tag.toList rest
    if c ≠ '\n' ∧ opensBlock then some ([c, '\n'], 1) else none
  | _ => none

/-- A block that ends a line right above other text gets an empty line below. -/
def closerRule : Rule := fun _ s =>
  let ends := ["</pre></blockquote>\n", "</pre>\n", "</blockquote>\n", "</ol>\n", "</ul>\n"]
  ends.findSome? fun tag =>
    match after? tag.toList s with
    | some (c :: _) => if c = '\n' then none else some (tag.toList ++ ['\n'], tag.length)
    | _ => none

/-- The rules by which markup is squeezed, in their order. -/
def squeezeRules : List Rule :=
  [paragraphRule, cellRule, itemRule, blankLineRule]

/-! ### Steps -/

/-- Takes a step unless the layout fits. -/
def unlessFits (layout : Layout) (step : Layout → Layout) : Layout :=
  if layout.fits then layout else step layout

/-- Applies a rule at its first place, again and again while a condition holds, at most `n` times.
-/
def applyWhile (wanted : Layout → Bool) (rule : Rule) : (n : Nat) → Layout → Layout
  | 0, layout => layout
  | n + 1, layout =>
    if wanted layout then
      match substituteFirst? rule layout.comment with
      | some comment => applyWhile wanted rule n { layout with comment := comment }
      | none => layout
    else layout

/-- Squeezes markup place by place until the layout fits. -/
def squeezeStepwise (layout : Layout) : Layout :=
  squeezeRules.foldl
    (fun layout rule => layout.unlessFits fun layout =>
      applyWhile (fun layout => !layout.fits) rule layout.comment.length layout)
    layout

/-- Squeezes markup rule by rule until the layout fits. -/
def squeezeAll (layout : Layout) : Layout :=
  squeezeRules.foldl
    (fun layout rule => layout.unlessFits fun layout =>
      { layout with comment := substitute rule layout.comment })
    layout

section

variable [LongWords]

/-- Drops a description that the source does not have. -/
def dropDescription (style : Style) (layout : Layout) : Layout :=
  if lacksDescription layout.draft.source then
    build style { layout with draft := { layout.draft with body := none } }
  else layout

/-- Drops the entries of tags that the source does not have. -/
def dropUnmentioned (style : Style) (layout : Layout) : Layout :=
  let draft := layout.draft
  let lacks (tag : String) : Bool := !mentionsTag tag.toList draft.source
  let trimmed : Draft := { draft with
    sees := if lacks "@see" then [] else draft.sees
    throws := if lacks "@throws" then [] else draft.throws
    params := if lacks "@param" then [] else draft.params
    returns := if lacks "@return" then [] else draft.returns }
  if trimmed = draft then layout else build style { layout with draft := trimmed }

end

/-- Moves the text up to the line of the opening, if it stands there in the source. -/
def raiseFirstLine (layout : Layout) : Layout :=
  if hasBlankFirstLine layout.draft.source then layout else { layout with firstLine := true }

/-- The width after `width`. -/
def nextWidth (settings : LayoutSettings) (width : Int) : Int :=
  width + if width < settings.stepThreshold then settings.widthStep else settings.wideWidthStep

section

variable [LongWords]

/-- Formats at growing widths, squeezing each time, until the layout fits or the greatest width is
reached; at most `n` times. -/
def widenUpTo (style : Style) : (n : Nat) → Layout → Layout
  | 0, layout => layout
  | n + 1, layout =>
    match layout.width with
    | none => layout
    | some width =>
      if layout.fits ∨ style.layout.maxWidth ≤ width then layout
      else
        ((build style layout).unlessFits squeezeAll).unlessFits fun layout =>
          widenUpTo style n { layout with width := some (nextWidth style.layout width) }

/-- Formats at growing widths until the layout fits. There are no more steps than units of width. -/
def widen (style : Style) (layout : Layout) : Layout :=
  let steps := (layout.width.map fun width => (style.layout.maxWidth - width).toNat).getD 0
  widenUpTo style steps layout

def shrink (style : Style) (layout : Layout) : Layout :=
  ((((layout.unlessFits (dropDescription style)).unlessFits (dropUnmentioned style)).unlessFits
    squeezeStepwise).unlessFits raiseFirstLine).unlessFits (widen style)

end

/-- The end of the first sentence of a description. -/
def sentenceEnd? (settings : LayoutSettings) (body : Text) : Option Nat :=
  (settings.sentenceTerminators.filterMap fun terminator =>
    (cut? terminator body).map fun p => p.1.length + terminator.length).min?

section

variable [LongWords]

/-- Lays out another description at the width to begin with, and shrinks it if need be. -/
def withBody (style : Style) (body : Text) (layout : Layout) : Layout :=
  (rebuild style { layout with draft := { layout.draft with body := some body } }).unlessFits
    (shrink style)

/-- Joins the lines of the description outside preformatted blocks. -/
def joinDescription (style : Style) (layout : Layout) : Layout :=
  match layout.draft.description? with
  | some body => if '\n' ∈ body then withBody style (joinOutside body) layout else layout
  | none => layout

/-- Cuts the description after its first sentence. -/
def cutDescription (style : Style) (layout : Layout) : Layout :=
  match layout.draft.description? with
  | some body =>
    match sentenceEnd? style.layout body with
    | some n => withBody style (body.take n) layout
    | none => layout
  | none => layout

/-- Shrinks a layout by every means, as long as it does not fit. -/
def shrinkFully (style : Style) (layout : Layout) : Layout :=
  ((layout.unlessFits (shrink style)).unlessFits (joinDescription style)).unlessFits
    (cutDescription style)

end

/-- Puts empty lines around blocks while the layout is too low. -/
def expand (layout : Layout) : Layout :=
  if '<' ∈ layout.comment then
    [openerRule, closerRule].foldl
      (fun layout rule =>
        applyWhile (fun layout => layout.height < layout.target) rule
          (layout.target - layout.height).toNat layout)
      layout
  else layout

/-- The decorated comment, with line ends above it if it is too low. -/
def pad (layout : Layout) : Text :=
  if layout.comment = [] then []
  else List.replicate (layout.target - layout.height).toNat '\n' ++ layout.render

section

variable [LongWords]

/-- The layout brought to the height that it should have, as far as that can be done. -/
def resize (style : Style) (layout : Layout) : Layout :=
  let layout := shrinkFully style layout
  if layout.fits then expand layout else layout

end

end DocGraft.Layout
