/-
# Tokens

A token is a piece of text with the positions where it starts and ends. Matching an
elementary pattern yields one, and later patterns and messages may refer back to it.
-/

import ScopedGrammar.Input.Position

namespace ScopedGrammar

/-- A piece of text and where it stood. -/
structure Token where
  text : String
  start : Position
  stop : Position
  deriving DecidableEq

namespace Token

/-- The token of the next `count` characters of an input. -/
def capture {π : Type} [Producer π] (start : Position) (count : Nat) (input : Input π) :
    Token × Input π :=
  let (stop, next) := start.advance count input
  (⟨next.slice start.offset stop.offset, start, stop⟩, next)

/-- The token of the next `count` characters of an input, as checked advancing comes to its
end. -/
def capture? {π : Type} [Producer π] (start : Position) (count : Nat) (input : Input π) :
    Option (Token × Input π) :=
  (start.advance? count input).map fun (stop, next) =>
    (⟨next.slice start.offset stop.offset, start, stop⟩, next)

/-- The token without characters at a place. -/
def nothingAt (place : Position) : Token :=
  ⟨"", place, place⟩

/-- How many characters lie between the token's start and its end. -/
def length (token : Token) : Nat :=
  token.stop.offset - token.start.offset

/-- Whether the token covers no character. -/
def isEmpty (token : Token) : Bool :=
  token.length == 0

/-- Whether two tokens hold the same text between the same offsets. -/
def agrees (first second : Token) : Bool :=
  first.text == second.text && first.start.samePlace second.start &&
    first.stop.samePlace second.stop

end Token

end ScopedGrammar
