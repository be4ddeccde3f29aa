/-
# Filling in messages

A message is filled in when it is raised, from the place of the failure, the scope there
and the character found there. A placeholder that denotes nothing is written as it stands
in the template, without the blanks around its body.
-/

import ScopedGrammar.Message.Basic
import ScopedGrammar.Scope.Basic
import ScopedGrammar.Input.Position

namespace ScopedGrammar.Message

/-- A placeholder that denotes nothing. -/
def verbatim (body : String) : String :=
  "\x7b" ++ body ++ "\x7d"

/-- The text for the name of a binding. -/
def ofName (scope : Scope) (name : String) : String :=
  match scope.find? name with
  | some binding => binding.display
  | none => verbatim name

/-- The text for the line of a binding. -/
def ofLine (scope : Scope) (name : String) : String :=
  match (scope.value? name).bind Value.line? with
  | some line => toString line
  | none => verbatim (name ++ ".line")

/-- The text for the column of a binding, which only tokens have. -/
def ofColumn (scope : Scope) (name : String) : String :=
  match (scope.value? name).bind Value.asToken? with
  | some token => toString token.start.column
  | none => verbatim (name ++ ".column")

/-- The text for the character at a place. -/
def ofFound : Option Char → String
  | some c => Text.quoteChar c
  | none => "end of input"

variable {π : Type} [Producer π]

/-- The text of one piece. -/
def Piece.render (scope : Scope) (place : Position) (piece : Piece) (input : Input π) :
    String × Input π :=
  match piece with
  | .char c => (String.ofList [c], input)
  | .line => (toString place.line, input)
  | .column => (toString place.column, input)
  | .offset => (toString place.offset, input)
  | .found =>
      let (there, next) := input.charAt place.offset
      (ofFound there, next)
  | .name looked => (ofName scope looked, input)
  | .lineOf looked => (ofLine scope looked, input)
  | .columnOf looked => (ofColumn scope looked, input)

/-- The text of a run of pieces. -/
def renderPieces (scope : Scope) (place : Position) :
    List Piece → Input π → String × Input π
  | [], input => ("", input)
  | piece :: rest, input =>
      let (front, next) := piece.render scope place input
      let (back, last) := renderPieces scope place rest next
      (front ++ back, last)

/-- Plain pieces are written as they stand, and nothing is read for them. -/
theorem renderPieces_plain_append (scope : Scope) (place : Position) (chars : List Char)
    (pieces : List Piece) (input : Input π) :
    renderPieces scope place (chars.map .char ++ pieces) input =
      (String.ofList chars ++ (renderPieces scope place pieces input).1,
        (renderPieces scope place pieces input).2) := by
  induction chars with
  | nil => exact Prod.ext String.empty_append.symm rfl
  | cons c rest ih =>
      have hstep : renderPieces scope place ((c :: rest).map .char ++ pieces) input =
          (String.ofList [c] ++ (renderPieces scope place (rest.map .char ++ pieces) input).1,
            (renderPieces scope place (rest.map .char ++ pieces) input).2) := rfl
      rw [hstep, ih, ← String.append_assoc, ← String.ofList_append, List.singleton_append]

/-- The text of a message at a place. -/
def render (message : Message) (scope : Scope) (place : Position) (input : Input π) :
    String × Input π :=
  renderPieces scope place message.pieces input

end ScopedGrammar.Message
