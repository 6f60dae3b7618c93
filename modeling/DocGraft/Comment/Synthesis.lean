import DocGraft.Comment.Resize

/-!
# Synthesis of a comment

The replacement of a documentation comment is synthesized from a localized comment such that it has
the height of the comment in the source: line numbers below it stay valid. Where that cannot be done
the comment is kept and a warning tells so.
-/

namespace DocGraft

open Text Comment

/-- What synthesis gives for a comment. -/
structure Synthesis where
  /-- The text of the comment: a replacement, the comment itself where none fits, or nothing where
  there is nothing to show. -/
  text : Text
  /-- The warning that the localized comment did not fit. -/
  warning : Option LayoutWarning := none
  /-- The patterns that have been asked for. -/
  asked : List Pattern := []
deriving DecidableEq, Repr

namespace Comment

/-- The replacement of a comment of one or two lines. -/
def synthesizeShort (span : CommentSpan) (draft : Draft) : Text :=
  let oneLine (s : Text) : Text := s.filter (· ≠ '\n')
  let content :=
    match draft.description?, draft.sinces with
    | some body, _ => some (oneLine body)
    | none, since :: _ => some ("@since ".toList ++ oneLine since)
    | none, [] => none
  match content with
  | none => []
  | some content =>
    span.indent ++ "/** ".toList ++ content
      ++ (if height span.text = 2 then '\n' :: span.indent else [])
      ++ " */".toList ++ if span.text.getLast? = some '\n' then ['\n'] else []

/-- A line without spaces after a single star or without any text. -/
def tidyLine (line : Text) : Text :=
  match line.dropWhile (· = ' ') with
  | [] => []
  | '*' :: rest => if rest.all (· = ' ') then trimEnd (· = ' ') line else line
  | _ => line

/-- Indents a decorated comment like the span and gives it a line end only if the span has one. -/
def settle (span : CommentSpan) (decorated : Text) : Text :=
  let text := mapLines tidyLine (leadLines span.indent decorated)
  if span.text.getLast? = some '\n' then text else text.dropLast

/-- The height that the undecorated replacement of a comment should have. -/
def targetHeight (settings : LayoutSettings) (span : CommentSpan) : Int :=
  if settings.decorationLines < height span.text then height span.text - settings.decorationLines
  else height span.text

/-- The draft for the comment `span` with the content of `doc`. -/
def draftFor (span : CommentSpan) (doc : LocalizedComment) : Draft :=
  let draft := Draft.prepare span.text doc
  { draft with body := draft.body.map (fillBlocks draft.source) }

section

variable [LongWords]

def firstLayout (style : Style) (span : CommentSpan) (draft : Draft) : Layout :=
  Layout.initial style draft (targetHeight style.layout span)
    (style.layout.initialWidth.map (· - span.indent.length - Layout.lineLead.length))

/-- The replacement of the comment `span` by the content of `doc`. -/
def synthesize (style : Style) (span : CommentSpan) (doc : LocalizedComment) : Synthesis :=
  let draft := draftFor span doc
  if height span.text ≤ 2 then { text := synthesizeShort span draft }
  else
    let first := firstLayout style span draft
    if first.comment = [] then { text := [], asked := first.asked }
    else
      let layout := if first.height = first.target then first else first.resize style
      if layout.fits then
        if layout.comment = [] then { text := [], asked := layout.asked }
        else { text := settle span layout.pad, asked := layout.asked }
      else
        { text := span.text
          warning := some ⟨span.key, span.text, layout.render⟩
          asked := layout.asked }

end

end Comment

end DocGraft
