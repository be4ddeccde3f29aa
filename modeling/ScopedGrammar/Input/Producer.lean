/-
# Producers of input

Input may arrive while it is being read. A producer is asked for one chunk at a time and
is told which prompt fits: the primary one for the first request of a reading, the
continuation for every later one. It answers with more text or with the end of input.
-/

namespace ScopedGrammar

/-- Which prompt a request is to show. -/
inductive Prompt where
  /-- The first request of a reading. -/
  | primary
  /-- Any later request of the same reading. -/
  | continuation
  deriving DecidableEq

/-- One answer of a producer. -/
inductive Chunk where
  /-- More text. The empty text counts as the end of input. -/
  | text (content : String)
  /-- No more input will arrive. -/
  | finish
  deriving DecidableEq

/-- States from which input can be requested. Each request moves the producer on. -/
class Producer (π : Type) where
  request : π → Prompt → Chunk × π

/-- A producer that answers from a list and remembers what it was asked. An absent entry
stands for the end of input, and so does the end of the list. -/
structure Script where
  pending : List (Option String)
  asked : Array Prompt

/-- A script that nothing has been asked of. -/
def Script.ofChunks (chunks : List (Option String)) : Script :=
  ⟨chunks, #[]⟩

/-- The answer of a script to its next request. -/
def Script.request (script : Script) (prompt : Prompt) : Chunk × Script :=
  match script.pending with
  | [] => (.finish, ⟨[], script.asked.push prompt⟩)
  | none :: rest => (.finish, ⟨rest, script.asked.push prompt⟩)
  | some content :: rest => (.text content, ⟨rest, script.asked.push prompt⟩)

instance : Producer Script where
  request := Script.request

/-- The producer behind a text that is complete from the start. It is never asked, and
would have nothing to add. -/
structure Silence where
  deriving DecidableEq

instance : Producer Silence where
  request silence _ := (.finish, silence)

end ScopedGrammar
