/-
# Diagnostics

A diagnostic tells that a text does not fit a grammar, and where. It keeps the position,
the message, and the bytes of the offending character in the text's UTF-8 form. Rendered
over the text, it shows the line with a caret under the column.
-/

import ScopedGrammar.Input.Position
import ScopedGrammar.Text.Lines
import ScopedGrammar.Text.Quoted

namespace ScopedGrammar

/-- A run of bytes in the UTF-8 form of a text. -/
structure Span where
  first : Nat
  length : Nat
  deriving DecidableEq

/-- Why a diagnostic was raised. -/
inductive Diagnostic.Cause where
  /-- A pattern that had to match did not. -/
  | expected
  /-- Text is left over after the start rule. -/
  | unconsumed
  /-- The text ends where the start rule needs more. -/
  | unexpectedEnd
  deriving DecidableEq

/-- A positioned message about a text. -/
structure Diagnostic where
  cause : Diagnostic.Cause
  message : String
  position : Position
  span : Span
  deriving DecidableEq

namespace Diagnostic

variable {π : Type} [Producer π]

/-- A diagnostic at a place. The start of the span is measured on what has been received
before the character at the place is asked for; at the end of input the span is empty. -/
def raise (cause : Cause) (message : String) (place : Position) (input : Input π) :
    Diagnostic × Input π :=
  let first := (input.slice 0 place.offset).utf8ByteSize
  match input.charAt place.offset with
  | (some c, next) => (⟨cause, message, place, ⟨first, c.utf8Size⟩⟩, next)
  | (none, next) => (⟨cause, message, place, ⟨first, 0⟩⟩, next)

theorem cause_raise (cause : Cause) (message : String) (place : Position) (input : Input π) :
    (raise cause message place input).1.cause = cause := by
  rw [raise]
  split <;> rfl

theorem position_raise (cause : Cause) (message : String) (place : Position)
    (input : Input π) : (raise cause message place input).1.position = place := by
  rw [raise]
  split <;> rfl

theorem message_raise (cause : Cause) (message : String) (place : Position)
    (input : Input π) : (raise cause message place input).1.message = message := by
  rw [raise]
  split <;> rfl

/-- A pattern that had to match did not. -/
def expected (message : String) (place : Position) (input : Input π) :
    Diagnostic × Input π :=
  raise .expected message place input

/-- The text does not go on as the start rule needs it: either a character is left over,
or the text ends too early. -/
def unconsumed (place : Position) (input : Input π) : Diagnostic × Input π :=
  let spot := " at line " ++ toString place.line ++ ", column " ++ toString place.column
  match input.charAt place.offset with
  | (some c, next) =>
      raise .unconsumed ("unexpected character " ++ Text.quoteChar c ++ spot) place next
  | (none, next) => raise .unexpectedEnd ("unexpected end of input" ++ spot) place next

/-- What stands below a character that comes before the caret: tabs are kept, so that
the caret stays under its column. -/
def padding (c : Char) : Char :=
  if c = '\t' then '\t' else ' '

/-- The line of a text with a caret under a column, in a frame that shows the number. -/
def snippet (number column : Nat) (line : List Char) : List Char :=
  let digits := (toString number).toList
  let margin := List.replicate digits.length ' ' ++ [' ', '|']
  margin ++ ['\n'] ++ digits ++ [' ', '|', ' '] ++ line ++ ['\n'] ++ margin ++ [' '] ++
    (line.take (column - 1)).map padding ++ ['^', '\n']

/-- A diagnostic over a text. The line is shown only if the text has it. -/
def render (diagnostic : Diagnostic) (text : String) : String :=
  let place := diagnostic.position
  let shown := match Text.line? text.toList place.line with
    | some line => String.ofList (snippet place.line place.column line)
    | none => ""
  "error: " ++ diagnostic.message ++ "\n --> " ++ place.display ++ "\n" ++ shown

end Diagnostic

end ScopedGrammar
