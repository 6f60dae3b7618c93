import DocGraft.Comment.Draft
import DocGraft.Comment.Wrap

/-!
# Layout of a comment

A layout is one rendering of a draft with the height that it should have and the knobs that the
resizing steps turn: the width, and whether the text begins on the line of the opening.
-/

namespace DocGraft

/-- How comments are laid out and resized. -/
structure LayoutSettings where
  /-- The width to begin with; without one, text is not wrapped. -/
  initialWidth : Option Int := none
  /-- Widening stops at this width. -/
  maxWidth : Int := 160
  /-- The step of widening below the threshold. -/
  widthStep : Int := 4
  /-- The step of widening from the threshold on. -/
  wideWidthStep : Int := 8
  /-- The width from which on steps are wide. -/
  stepThreshold : Int := 100
  /-- The number of lines that decoration takes. -/
  decorationLines : Int := 2
  /-- The least width of the column of parameter names. -/
  paramNameMin : Int := 3
  /-- Names of this length and longer do not widen the column. -/
  paramNameCap : Int := 12
  /-- The texts that end a sentence. -/
  sentenceTerminators : List Text := ["。".toList]
deriving DecidableEq, Repr

/-- The settings of comment synthesis. -/
structure Style where
  /-- How comments are laid out. -/
  layout : LayoutSettings := {}
  wrap : WrapSettings := {}
deriving DecidableEq, Repr

namespace Draft

open Text Comment

/-- The text of a tag entry: its first line after the tag and the others below it, indented. -/
def tagLines (tag indent : Text) (lines : List Text) : Text :=
  tag ++ lines.headD [] ++ '\n' :: (lines.drop 1).flatMap fun line => indent ++ line ++ ['\n']

section

variable [LongWords]

/-- The lines of a tag value wrapped to the width that the tag leaves. -/
def valueLines (style : Style) (width : Option Int) (tag value : Text) : List Text :=
  (fields '\n' (wrap style.wrap (width.map (· - tag.length)) value)).filter (· ≠ [])

def formatTags (style : Style) (width : Option Int) (tag : Text) (values : List Text) : Text :=
  values.flatMap fun value =>
    tagLines tag (List.replicate tag.length ' ') (valueLines style width tag value)

end

/-- The width of the column of parameter names. -/
def nameWidth (settings : LayoutSettings) (params : List NamedTag) : Int :=
  params.foldl
    (fun width param =>
      if width < param.name.length ∧ param.name.length < settings.paramNameCap then
        param.name.length
      else width)
    settings.paramNameMin

/-- The value of an entry of `@param`, with the name in a column. -/
def paramValue (column : Int) (param : NamedTag) : Text :=
  let name := param.name ++ List.replicate (column - param.name.length).toNat ' '
  trimEnd isBlank (name ++ ' ' :: param.description)

section

variable [LongWords]

/-- The entries of `@param`, with the names in a column. -/
def formatParams (style : Style) (width : Option Int) (params : List NamedTag) : Text :=
  let tag := "@param   ".toList
  let column := nameWidth style.layout params
  let indent := List.replicate (tag.length + column + 1).toNat ' '
  params.flatMap fun param =>
    tagLines tag indent (valueLines style width tag (paramValue column param))

/-- The block tags of a comment in their order. -/
def formatBlockTags (style : Style) (width : Option Int) (draft : Draft) : Text :=
  formatTags style width "@author  ".toList draft.authors
    ++ formatTags style width "@version ".toList draft.versions
    ++ formatParams style width draft.params
    ++ formatTags style width "@return  ".toList draft.returns
    ++ formatTags style width "@throws  ".toList draft.throws
    ++ formatTags style width "@serialField ".toList draft.serialFields
    ++ formatTags style width "@serialData ".toList draft.serialDatas
    ++ formatTags style width "@see     ".toList draft.sees
    ++ formatTags style width "@since   ".toList draft.sinces
    ++ formatTags style width "@serial  ".toList draft.serials
    ++ formatTags style width "@spec    ".toList draft.specs

/-- A paragraph of its own, with an empty line after it. -/
def formatParagraph (style : Style) (width : Option Int) (text : Text) : Text :=
  wrap style.wrap width text ++ ['\n']

/-- The undecorated lines of a comment, each with its line end. Where there is room for one line
only, that line is the description. -/
def format (style : Style) (width : Option Int) (target : Int) (draft : Draft) : Text :=
  match draft.description?, target with
  | some body, 1 => body.filter (· ≠ '\n') ++ ['\n']
  | description, _ =>
    let notice := (draft.deprecated.filter (· ≠ [])).map ("@deprecated ".toList ++ ·)
    let text := (description.map (formatParagraph style width)).getD []
      ++ (notice.map (formatParagraph style width)).getD []
      ++ formatBlockTags style width draft
    if endsWith "\n\n".toList text then text.dropLast else text

end

/-! ### What formatting asks for -/

/-- The patterns that the values of a tag ask for. -/
def tagAsks (style : Style) (width : Option Int) (tag : String) (values : List Text) :
    List Pattern :=
  values.flatMap (wrapAsks style.wrap (width.map (· - tag.length)))

/-- The patterns that the block tags of a comment ask for, in their order. -/
def blockTagAsks (style : Style) (width : Option Int) (draft : Draft) : List Pattern :=
  let column := nameWidth style.layout draft.params
  tagAsks style width "@author  " draft.authors
    ++ tagAsks style width "@version " draft.versions
    ++ tagAsks style width "@param   " (draft.params.map (paramValue column))
    ++ tagAsks style width "@return  " draft.returns
    ++ tagAsks style width "@throws  " draft.throws
    ++ tagAsks style width "@serialField " draft.serialFields
    ++ tagAsks style width "@serialData " draft.serialDatas
    ++ tagAsks style width "@see     " draft.sees
    ++ tagAsks style width "@since   " draft.sinces
    ++ tagAsks style width "@serial  " draft.serials
    ++ tagAsks style width "@spec    " draft.specs

/-- The patterns that formatting a comment asks for, in their order; none where there is room for
one line only. -/
def asks (style : Style) (width : Option Int) (target : Int) (draft : Draft) : List Pattern :=
  match draft.description?, target with
  | some _, 1 => []
  | description, _ =>
    let notice := (draft.deprecated.filter (· ≠ [])).map ("@deprecated ".toList ++ ·)
    (description.toList ++ notice.toList).flatMap (wrapAsks style.wrap width)
      ++ blockTagAsks style width draft

end Draft

/-- One rendering of a draft and what it should become. -/
structure Layout where
  draft : Draft
  /-- The height that the undecorated comment should have. -/
  target : Int
  initialWidth : Option Int
  width : Option Int
  /-- Whether the text begins on the line of the opening. -/
  firstLine : Bool := false
  /-- The undecorated lines. -/
  comment : Text := []
  /-- The patterns that have been asked for. -/
  asked : List Pattern := []
deriving DecidableEq, Repr

namespace Layout

open Text Comment

section

variable [LongWords]

def build (style : Style) (layout : Layout) : Layout :=
  { layout with
    comment := layout.draft.format style layout.width layout.target
    asked := layout.asked ++ layout.draft.asks style layout.width layout.target }

/-- Formats the draft anew at the width to begin with. -/
def rebuild (style : Style) (layout : Layout) : Layout :=
  build style { layout with width := layout.initialWidth }

def initial (style : Style) (draft : Draft) (target : Int) (width : Option Int) : Layout :=
  build style { draft := draft, target := target, initialWidth := width, width := width }

end

/-- The number of lines, not counting one that stands on the line of the opening. -/
def height (layout : Layout) : Int :=
  layout.comment.count '\n' - if layout.firstLine then 1 else 0

/-- Whether the lines find room in the height that the comment should have. -/
def fits (layout : Layout) : Bool :=
  layout.height ≤ layout.target

/-- What stands before the text of each line. -/
def lineLead : Text := " * ".toList

/-- The comment with its decoration; nothing if it has no lines. -/
def render (layout : Layout) : Text :=
  if layout.comment = [] then []
  else
    let lines := leadLines lineLead layout.comment
    let text :=
      if layout.firstLine then "/**".toList ++ (after? " *".toList lines).getD lines
      else "/**\n".toList ++ lines
    text ++ " */\n".toList

end Layout

end DocGraft
