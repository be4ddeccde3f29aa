/-
# Writers

A session writes prompts, answers and a last newline. Of what it writes to it only asks to be
told whether all of a text was accepted. How much of a text is accepted that does not fit, and
what becomes of it, is the writer's own affair.
-/

namespace ScopedGrammar

/-- What texts are written to. -/
class Writer (ω : Type) where
  /-- Writes a text, and tells whether all of it was accepted. -/
  write : ω → String → Bool × ω
  /-- Passes on what was accepted, and tells whether that worked. -/
  flush : ω → Bool × ω

/-- Writes a prompt and, if all of it was accepted, flushes. Whether either works makes no
difference to what comes next. -/
def Writer.prompt {ω : Type} [Writer ω] (writer : ω) (text : String) : ω :=
  match write writer text with
  | (true, written) => (flush written).2
  | (false, written) => written

end ScopedGrammar
