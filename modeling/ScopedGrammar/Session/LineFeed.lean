/-
# Lines as produced input

In a session, input arrives line by line, and a prompt is written before each line is
read. A blank line ends the current statement without ending the session. The end of the
lines ends both, and so does a line that is not UTF-8.
-/

import ScopedGrammar.Session.Writer
import ScopedGrammar.Input.Producer
import ScopedGrammar.Text.Blank
import ScopedGrammar.Text.Lines

namespace ScopedGrammar

/-- The texts of the two prompts. -/
structure PromptTexts where
  primary : String
  continuation : String

/-- The prompts of a session that chooses none. -/
def PromptTexts.standard : PromptTexts where
  primary := ">>> "
  continuation := "... "

/-- The text of a prompt. -/
def PromptTexts.of (texts : PromptTexts) : Prompt → String
  | .primary => texts.primary
  | .continuation => texts.continuation

/-- A line with its line end, if it has one, or nothing if it cannot be read as text. -/
abbrev RawLine : Type :=
  Option String

/-- The lines of a run of bytes. Each is read as UTF-8 on its own. -/
def rawLines (bytes : List UInt8) : List RawLine :=
  (Text.cutAfter (· == 10) bytes).map fun line => String.fromUTF8? ⟨line.toArray⟩

/-- The lines of a text. -/
def rawLinesOfText (text : String) : List RawLine :=
  (Text.cutAfter (· == '\n') text.toList).map fun line => some (String.ofList line)

/-- The lines still to be read, whether the end has been seen, and what the prompts are
written to. -/
structure LineFeed (ω : Type) where
  pending : List RawLine
  atEnd : Bool
  sink : ω
  prompts : PromptTexts

/-- A line with a newline at its end, added if it is missing. -/
def terminated (line : String) : String :=
  if line.toList.getLast? = some '\n' then line else line ++ "\n"

variable {ω : Type} [Writer ω]

/-- The answer to a request. Whether the prompt could be written makes no difference. -/
def LineFeed.request (feed : LineFeed ω) (prompt : Prompt) : Chunk × LineFeed ω :=
  if feed.atEnd then (.finish, feed)
  else
    let sink := Writer.prompt feed.sink (feed.prompts.of prompt)
    match feed.pending with
    | [] => (.finish, { feed with atEnd := true, sink })
    | none :: rest => (.finish, { feed with pending := rest, atEnd := true, sink })
    | some line :: rest =>
        if Text.isBlankText line then (.finish, { feed with pending := rest, sink })
        else (.text (terminated line), { feed with pending := rest, sink })

instance : Producer (LineFeed ω) where
  request := LineFeed.request

end ScopedGrammar
