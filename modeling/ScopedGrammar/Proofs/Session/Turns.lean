/-
# Turn by turn

A session is a row of turns. In a turn the grammar parses what arrives from the feed, and the
answer is written to what the feed comes back with; the next turn goes on with what is left.
A statement of blanks has an empty reply, of which nothing is written. So all turns are of one
kind, and a session that comes to its end is told by its parses, whatever it writes to.
-/

import ScopedGrammar.Session.Loop
import ScopedGrammar.Proofs.Grammar.Asking
import ScopedGrammar.Proofs.Session.Reading

namespace ScopedGrammar.Session

variable {ω : Type} {grammar : Grammar} {steps granted : Nat} {render : Value → String}
  {feed : LineFeed ω} {transcript : Transcript (LineFeed ω)}
  {transcripts : List (Transcript (LineFeed ω))} {sink last : ω}

/-- What a turn writes after its parse, which is nothing for a statement of blanks. A parse that
came to no end has no reply at all. -/
def reply (render : Value → String) (transcript : Transcript (LineFeed ω)) :
    Option (Option String) :=
  (answer render transcript.received transcript.result).map fun output =>
    if Text.isBlankText transcript.received then none else some output

variable [Writer ω]

/-- Writes a reply, if there is anything to write. -/
def deliver (sink : ω) : Option String → Bool × ω
  | none => (true, sink)
  | some output => Writer.write sink output

/-- A turn goes on to the next with the sink that its answer was written to, unless the
answer is refused or the feed is at its end. -/
theorem turns_succ (grammar : Grammar) (steps : Nat) (render : Value → String) (granted : Nat)
    (feed : LineFeed ω) :
    turns grammar steps render (granted + 1) feed =
      let transcript := grammar.parseProduced steps feed
      match reply render transcript with
      | none => .exhausted transcript.producer.sink
      | some output =>
          match deliver transcript.producer.sink output with
          | (false, sink) => .refused sink
          | (true, sink) =>
              if transcript.producer.atEnd then close sink
              else turns grammar steps render granted { transcript.producer with sink } := by
  simp only [turns, reply]
  cases answer render (grammar.parseProduced steps feed).received
    (grammar.parseProduced steps feed).result with
  | none => rfl
  | some output =>
      by_cases hblank : Text.isBlankText (grammar.parseProduced steps feed).received = true
      · simp only [Option.map_some, hblank, if_true, deliver]
      · have hshown : (if Text.isBlankText (grammar.parseProduced steps feed).received then none
            else some output) = some output := if_neg hblank
        simp only [Option.map_some, hshown, deliver]
        exact if_neg hblank

/-- A turn that is not the last, or is the last but for the final newline: its parse, and what
has accepted its reply. -/
structure Exchange (grammar : Grammar) (steps : Nat) (render : Value → String)
    (feed : LineFeed ω) (transcript : Transcript (LineFeed ω)) (sink : ω) : Prop where
  parsed : grammar.parseProduced steps feed = transcript
  written : ∃ output, reply render transcript = some output ∧
    deliver transcript.producer.sink output = (true, sink)

namespace Exchange

/-- A turn that has found the end is the last. -/
theorem turns_of_ended (turn : Exchange grammar steps render feed transcript sink)
    (granted : Nat) (hended : transcript.producer.atEnd = true) :
    turns grammar steps render (granted + 1) feed = close sink := by
  obtain ⟨rfl, output, hreply, hwrite⟩ := turn
  simp only [turns_succ, hreply, hwrite, hended, if_true]

/-- After any other turn the session goes on with what is left. -/
theorem turns_of_open (turn : Exchange grammar steps render feed transcript sink)
    (granted : Nat) (hopen : transcript.producer.atEnd = false) :
    turns grammar steps render (granted + 1) feed =
      turns grammar steps render granted { transcript.producer with sink } := by
  obtain ⟨rfl, output, hreply, hwrite⟩ := turn
  simp only [turns_succ, hreply, hwrite, hopen, Bool.false_eq_true, if_false]

theorem exists_taken (turn : Exchange grammar steps render feed transcript sink)
    (hopen : feed.atEnd = false) :
    ∃ taken, Taken feed taken transcript.received.toList transcript.requests
      transcript.producer := by
  obtain ⟨rfl, -⟩ := turn
  exact grammar.taken_of_parse steps hopen

/-- A turn without a request leads back to where it began. -/
theorem eq_of_no_request (turn : Exchange grammar steps render feed transcript sink)
    (hrequests : transcript.requests = 0) : { transcript.producer with sink } = feed := by
  obtain ⟨rfl, output, hreply, hwrite⟩ := turn
  rw [Grammar.parseProduced_of_no_request hrequests] at hreply hwrite ⊢
  obtain ⟨shown, -, rfl⟩ := Option.map_eq_some_iff.mp hreply
  have hblank : Text.isBlankText "" = true := rfl
  rw [if_pos hblank] at hwrite
  cases hwrite
  rfl

end Exchange

/-- The parses of a session from a feed on, one after the other, and what has accepted the last
reply. Each parse goes on with the lines that the one before has left. -/
inductive Exchanges (grammar : Grammar) (steps : Nat) (render : Value → String) :
    LineFeed ω → List (Transcript (LineFeed ω)) → ω → Prop
  | last {feed : LineFeed ω} {transcript : Transcript (LineFeed ω)} {sink : ω}
      (turn : Exchange grammar steps render feed transcript sink)
      (ended : transcript.producer.atEnd = true) :
      Exchanges grammar steps render feed [transcript] sink
  | next {feed : LineFeed ω} {transcript : Transcript (LineFeed ω)} {sink last : ω}
      {transcripts : List (Transcript (LineFeed ω))}
      (turn : Exchange grammar steps render feed transcript sink)
      (open_ : transcript.producer.atEnd = false)
      (rest : Exchanges grammar steps render { transcript.producer with sink } transcripts
        last) :
      Exchanges grammar steps render feed (transcript :: transcripts) last

theorem close_eq_finished_iff :
    close sink = .finished last ↔ Writer.write sink "\n" = (true, last) := by
  unfold close
  rcases Writer.write sink "\n" with ⟨_ | _, other⟩ <;> simp

/-- A session that is finished has come through a row of parses, and has written the last
newline. -/
theorem exchanges_of_turns (hturns : turns grammar steps render granted feed = .finished last) :
    ∃ transcripts sink, Exchanges grammar steps render feed transcripts sink ∧
      Writer.write sink "\n" = (true, last) := by
  induction granted generalizing feed with
  | zero => cases hturns
  | succ granted ih =>
      rw [turns_succ] at hturns
      dsimp only at hturns
      split at hturns
      next => cases hturns
      next output hreply =>
        split at hturns
        next => cases hturns
        next sink hwrite =>
          have turn : Exchange grammar steps render feed (grammar.parseProduced steps feed) sink :=
            ⟨rfl, output, hreply, hwrite⟩
          split at hturns
          next hended =>
            exact ⟨_, sink, .last turn hended, close_eq_finished_iff.mp hturns⟩
          next hopen =>
            obtain ⟨transcripts, before, hrest, hclose⟩ := ih hturns
            exact ⟨_, before, .next turn (Bool.eq_false_iff.mpr hopen) hrest, hclose⟩

/-- The feed with which a session begins. -/
def opening (prompts : PromptTexts) (lines : List RawLine) (writer : ω) : LineFeed ω where
  pending := lines
  atEnd := false
  sink := writer
  prompts := prompts

theorem hold_eq_turns (grammar : Grammar) (steps : Nat) (render : Value → String)
    (prompts : PromptTexts) (lines : List RawLine) (writer : ω) :
    hold grammar steps render prompts lines writer =
      turns grammar steps render (lines.length + 2) (opening prompts lines writer) :=
  rfl

end ScopedGrammar.Session
