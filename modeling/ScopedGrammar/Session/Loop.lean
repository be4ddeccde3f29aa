/-
# Sessions

A session reads statement after statement from lines, parses each with a grammar, and
writes what it found: the rendered value, or the error. Statements of blank lines are
passed over. The session is over at the end of the lines, and breaks off when its output
is refused.
-/

import ScopedGrammar.Session.LineFeed
import ScopedGrammar.Session.Sink
import ScopedGrammar.Grammar.Basic

namespace ScopedGrammar.Session

variable {ω : Type}

/-- How a session ends, with what it has written to as it left it. -/
inductive Outcome (ω : Type) where
  | finished (sink : ω)
  /-- A result or the final newline was refused. -/
  | refused (sink : ω)
  /-- A parse, or the session as a whole, came to no end. -/
  | exhausted (sink : ω)

/-- What an outcome leaves of what was written to. -/
def Outcome.sink : Outcome ω → ω
  | .finished sink => sink
  | .refused sink => sink
  | .exhausted sink => sink

/-- What is written for an error: a diagnostic is shown over the text, a defect by its
message. Nothing is written for a parse that came to no end. -/
def report (text : String) : Halt → Option String
  | .diagnostic diagnostic => some (diagnostic.render text)
  | .defect defect => some ("error: " ++ defect.message ++ "\n")
  | .overflow => none
  | .exhausted => none

/-- What is written for the result of a parse. -/
def answer (render : Value → String) (text : String) : Except Halt Value → Option String
  | .ok value => some (render value ++ "\n")
  | .error reason => report text reason

variable [Writer ω]

/-- The last newline of a session. -/
def close (sink : ω) : Outcome ω :=
  match Writer.write sink "\n" with
  | (true, last) => .finished last
  | (false, last) => .refused last

/-- Statement after statement. Each turn reads at least one line, unless the grammar is
so defective that it fails before it reads anything; the granted turns bound the session
in that case. -/
def turns (grammar : Grammar) (steps : Nat) (render : Value → String) :
    Nat → LineFeed ω → Outcome ω
  | 0, feed => .exhausted feed.sink
  | granted + 1, feed =>
      let transcript := grammar.parseProduced steps feed
      let after := transcript.producer
      match answer render transcript.received transcript.result with
      | none => .exhausted after.sink
      | some output =>
          if Text.isBlankText transcript.received then
            if after.atEnd then close after.sink
            else turns grammar steps render granted after
          else
            match Writer.write after.sink output with
            | (false, sink) => .refused sink
            | (true, sink) =>
                if after.atEnd then close sink
                else turns grammar steps render granted { after with sink }

/-- A session over some lines, with a writer. There is one turn for each line and one more for
the end, which is enough when every turn reads. -/
def hold (grammar : Grammar) (steps : Nat) (render : Value → String) (prompts : PromptTexts)
    (lines : List RawLine) (writer : ω) : Outcome ω :=
  turns grammar steps render (lines.length + 2)
    { pending := lines
      atEnd := false
      sink := writer
      prompts }

/-- A session over some lines, with a sink that may have a limit. -/
def run (grammar : Grammar) (steps : Nat) (render : Value → String) (prompts : PromptTexts)
    (lines : List RawLine) (limit : Option Nat) : Outcome Sink :=
  hold grammar steps render prompts lines (Sink.ofLimit limit)

end ScopedGrammar.Session
