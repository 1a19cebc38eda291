import HeaderAudit.Category
import HeaderAudit.Notice

/-! `expectedText?` is the text that a person is shown. It is put together on
its own and not from the elements that a content is compared with. -/

namespace HeaderAudit

/-- One part of a header. -/
inductive HeaderElement where
  | required (text : String)
  | optional (text : String)
  deriving DecidableEq, Repr

/-- What can follow in a content after one element. -/
def HeaderElement.remainders (content : List Char) :
    HeaderElement → List (List Char)
  | .required text => (text.toList.isPrefixOf? content).toList
  | .optional text => (text.toList.isPrefixOf? content).toList ++ [content]

namespace Header

/-- The first line of a script that names its interpreter. -/
def interpreterLine : String := "#!/usr/bin/env python3"

/-- The line of a script that names its encoding. -/
def encodingLine : String := "# -*- coding: utf-8 -*-"

/-- The first line of every header file. -/
def includeOnceLine : String := "#pragma once"

/-- The elements of the header that a category requires. -/
def elements? : Category → Option (List HeaderElement)
  | .compiledSource => some [.required CommentStyle.block.notice]
  | .header =>
      some
        [.required (includeOnceLine ++ "\n"),
          .required CommentStyle.block.notice]
  | .script =>
      some
        [.optional (interpreterLine ++ "\n" ++ encodingLine ++ "\n"),
          .required CommentStyle.line.notice]
  | .buildConfig => some [.required CommentStyle.line.notice]
  | .other => none

/-- The elements can be read in order from the beginning of the content. -/
def opens : List HeaderElement → List Char → Bool
  | [], _ => true
  | element :: rest, content => (element.remainders content).any (opens rest)

/-- The text that a file of the category is expected to begin with.  The
preamble exists for scripts only. -/
def expectedText? (category : Category) (withPreamble : Bool) :
    Option String :=
  match category with
  | .compiledSource => some CommentStyle.block.notice
  | .header => some (includeOnceLine ++ "\n" ++ CommentStyle.block.notice)
  | .script =>
      if withPreamble then
        some <|
          interpreterLine ++ "\n" ++ encodingLine ++ "\n" ++
            CommentStyle.line.notice
      else
        some CommentStyle.line.notice
  | .buildConfig => some CommentStyle.line.notice
  | .other => none

end Header

/-- A content has the header of its category.  Ungoverned contents need
none. -/
def Category.admits (category : Category) (content : List Char) : Bool :=
  match Header.elements? category with
  | some elements => Header.opens elements content
  | none => true

/-- The content of the file at a path has the header of its category. -/
def Path.admits (path : Path) (content : List Char) : Bool :=
  (Category.ofPath path).admits content

end HeaderAudit
