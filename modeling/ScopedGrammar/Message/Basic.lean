/-
# Message templates

A message is written as a template: text with placeholders between braces, which are
filled in when the message is raised. Doubled braces stand for single ones. A brace that
is never closed, and a closing brace on its own, stand for themselves.

The placeholders are `line`, `column` (or `col`), `offset` and `found`, which describe the
place of the failure, then `NAME.line` and `NAME.column`, which tell where a token bound to
the name starts, and any other `NAME`, which shows what is bound to the name.
-/

import ScopedGrammar.Text.Blank

namespace ScopedGrammar.Message

/-- A part of a template. -/
inductive Piece where
  | char (c : Char)
  | line
  | column
  | offset
  /-- The character at the place of the failure. -/
  | found
  /-- What is bound to a name. -/
  | name (name : String)
  /-- The line on which the value bound to a name starts. -/
  | lineOf (name : String)
  /-- The column in which the token bound to a name starts. -/
  | columnOf (name : String)
  deriving DecidableEq

/-- The placeholder that a trimmed body denotes. A body is split at its first point
only, and a field other than the two known ones makes the whole body a name. -/
def placeholder (body : List Char) : Piece :=
  if body = "line".toList then .line
  else if body = "column".toList ∨ body = "col".toList then .column
  else if body = "offset".toList then .offset
  else if body = "found".toList then .found
  else
    let owner := body.takeWhile (· != '.')
    let field := body.dropWhile (· != '.')
    if field = ".line".toList then .lineOf (String.ofList owner)
    else if field = ".column".toList then .columnOf (String.ofList owner)
    else .name (String.ofList body)

/-- Whether a character is not the closing brace. -/
def insideBody (c : Char) : Bool :=
  c != '\x7d'

/-- The pieces of a template, from left to right. -/
def scan : List Char → List Piece
  | [] => []
  | c :: rest =>
      if c = '\x7b' then
        if rest.head? = some '\x7b' then
          .char '\x7b' :: scan (rest.drop 1)
        else if rest.all insideBody then
          (c :: rest).map .char
        else
          placeholder (Text.trim (rest.takeWhile insideBody)) ::
            scan ((rest.dropWhile insideBody).drop 1)
      else if c = '\x7d' ∧ rest.head? = some '\x7d' then
        .char '\x7d' :: scan (rest.drop 1)
      else
        .char c :: scan rest
termination_by template => template.length
decreasing_by
  · simp only [List.length_cons, List.length_drop]
    omega
  · have shorter : (rest.dropWhile insideBody).length ≤ rest.length :=
      (List.dropWhile_suffix insideBody).length_le
    simp only [List.length_cons, List.length_drop]
    omega
  · simp only [List.length_cons, List.length_drop]
    omega
  · simp

end Message

/-- A message with placeholders. -/
structure Message where
  pieces : List Message.Piece
  deriving DecidableEq

/-- The message that a template denotes. -/
def Message.ofTemplate (template : String) : Message :=
  ⟨Message.scan template.toList⟩

end ScopedGrammar
