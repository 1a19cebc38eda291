import HeaderAudit.Text.Lines

/-! A comment style wraps the lines of the notice. `bodyLines` goes the other
way; it removes markers and takes a line without one as it is. -/

namespace HeaderAudit

/-- How a notice is wrapped as a comment. -/
inductive CommentStyle where
  | block
  | line
  deriving DecidableEq, Repr

namespace CommentStyle

/-- The first line of a rendering. -/
def opening : CommentStyle → String
  | .block => "/*"
  | .line => "#"

/-- The last line of a rendering. -/
def closing : CommentStyle → String
  | .block => " */"
  | .line => "#"

/-- What stands before the text of a line that is not empty. -/
def marker : CommentStyle → String
  | .block => " * "
  | .line => "# "

/-- What stands for an empty line. -/
def bareMarker : CommentStyle → String
  | .block => " *"
  | .line => "#"

/-- The rendering of one text line. -/
def mark (style : CommentStyle) (text : List Char) : List Char :=
  if text.isEmpty then
    style.bareMarker.toList
  else
    style.marker.toList ++ text

/-- The text of one rendered line.  A line without the marker is its own
text. -/
def unmark (style : CommentStyle) (rendered : List Char) : List Char :=
  if rendered = style.bareMarker.toList then
    []
  else
    (style.marker.toList.isPrefixOf? rendered).getD rendered

/-- The rendering of a list of text lines, without a newline at its end. -/
def render (style : CommentStyle) (body : List (List Char)) : List Char :=
  Text.joinLines <|
    style.opening.toList :: body.map style.mark ++ [style.closing.toList]

/-- The text lines of a rendering: all lines but the first and the last, each
without its marker.  Fewer than two lines have no body. -/
def bodyLines (style : CommentStyle) (rendered : List Char) :
    List (List Char) :=
  ((Text.lines rendered).drop 1).dropLast.map style.unmark

end CommentStyle

/-- The lines of the notice. -/
def noticeBody : List String :=
  [ "This file is part of Lydia.",
    "",
    "Lydia is free software: you can redistribute it and/or modify",
    "it under the terms of the GNU Lesser General Public License as published by",
    "the Free Software Foundation, either version 3 of the License, or",
    "(at your option) any later version.",
    "",
    "Lydia is distributed in the hope that it will be useful,",
    "but WITHOUT ANY WARRANTY; without even the implied warranty of",
    "MERCHANTABILITY or FITNESS FOR A PARTICULAR PURPOSE.  See the",
    "GNU Lesser General Public License for more details.",
    "",
    "You should have received a copy of the GNU Lesser General Public License",
    "along with Lydia.  If not, see <https://www.gnu.org/licenses/>." ]

/-- The notice in a comment style. -/
def CommentStyle.notice (style : CommentStyle) : String :=
  String.ofList (style.render (noticeBody.map String.toList))

end HeaderAudit
