/-
# When sessions end

A turn whose parse makes a request takes a line or finds the end, and there are only so many
lines. So a session ends, whatever the lines are and whatever becomes of what is written, provided
that each of its parses makes a request.

Nothing makes a parse ask. A grammar that is at fault before it reads anything leaves the feed
as it found it, and no error is shown because there is no text to show it for. The next turn
is then the same turn again, and the session spins without reading, writing or ending.

Steps enter only as a means: that a session ends is said of all numbers of steps from one on,
and that it spins is said of all numbers of steps and of turns.
-/

import ScopedGrammar.Proofs.Session.Turns

namespace ScopedGrammar.Session

variable {grammar : Grammar} {steps more granted : Nat} {render : Value → String}
  {ω : Type} [Writer ω] {feed stuck : LineFeed ω} {transcript : Transcript (LineFeed ω)}
  {sink : ω}

/-- A parse that makes a request leaves fewer lines, unless it finds the end. -/
theorem ended_or_fewer_lines (hopen : feed.atEnd = false)
    (hrequests : 0 < (grammar.parseProduced steps feed).requests) :
    (grammar.parseProduced steps feed).producer.atEnd = true ∨
      (grammar.parseProduced steps feed).producer.pending.length < feed.pending.length := by
  obtain ⟨taken, htaken⟩ := grammar.taken_of_parse steps hopen
  rcases hend : (grammar.parseProduced steps feed).producer.atEnd with _ | _
  · have hcounted := htaken.counted hend
    rw [htaken.pending, List.length_append]
    exact .inr (by omega)
  · exact .inl rfl

omit [Writer ω] in
/-- There is a reply to a parse exactly if it has come to an end. -/
theorem exists_reply_iff :
    (∃ output, reply render transcript = some output) ↔ transcript.Settled := by
  obtain ⟨result, received, requests, producer⟩ := transcript
  rcases result with (_ | _ | _ | _) | content <;>
    simp [reply, answer, report, Transcript.Settled]

theorem Exchange.settled (turn : Exchange grammar steps render feed transcript sink) :
    transcript.Settled :=
  exists_reply_iff.mp ⟨_, turn.written.choose_spec.1⟩

/-- With steps that suffice as well, a turn is the same. -/
theorem Exchange.of_settled (turn : Exchange grammar steps render feed transcript sink)
    (hsettled : (grammar.parseProduced more feed).Settled) :
    Exchange grammar more render feed transcript sink := by
  refine ⟨?_, turn.written⟩
  rw [← turn.parsed]
  refine Grammar.parseProduced_eq_of_settled hsettled ?_
  rw [turn.parsed]
  exact turn.settled

/-- A turn whose parse does not come to an end is where the session stops. -/
theorem turns_of_unsettled (hsettled : ¬ (grammar.parseProduced steps feed).Settled) :
    ∃ sink, turns grammar steps render (granted + 1) feed = .exhausted sink := by
  have hreply : reply render (grammar.parseProduced steps feed) = none :=
    Option.eq_none_iff_forall_ne_some.mpr fun output houtput =>
      hsettled (exists_reply_iff.mp ⟨output, houtput⟩)
  refine ⟨(grammar.parseProduced steps feed).producer.sink, ?_⟩
  simp only [turns_succ, hreply]

/-- A session comes from one feed to another, by turns that are not the last. -/
inductive Reaches (grammar : Grammar) (render : Value → String) : LineFeed ω → LineFeed ω → Prop
  | here (feed : LineFeed ω) : Reaches grammar render feed feed
  | turn {feed later : LineFeed ω} {transcript : Transcript (LineFeed ω)} {sink : ω}
      {steps : Nat}
      (turn : Exchange grammar steps render feed transcript sink)
      (open_ : transcript.producer.atEnd = false)
      (rest : Reaches grammar render { transcript.producer with sink } later) :
      Reaches grammar render feed later

/-- The grammar is at fault before it reads anything of a feed. -/
def Stuck (grammar : Grammar) (feed : LineFeed ω) : Prop :=
  feed.atEnd = false ∧ ∃ steps defect,
    grammar.parseProduced steps feed = ⟨.error (.defect defect), "", 0, feed⟩

/-- From a feed at which the grammar is stuck, every turn leads to the same turn again. -/
theorem Stuck.spins (hstuck : Stuck grammar feed) (steps granted : Nat) :
    ∃ sink, turns grammar steps render granted feed = .exhausted sink := by
  obtain ⟨hopen, enough, defect, hparse⟩ := hstuck
  have again : Exchange grammar enough render feed ⟨.error (.defect defect), "", 0, feed⟩
      feed.sink :=
    ⟨hparse, none, rfl, rfl⟩
  induction granted with
  | zero => exact ⟨feed.sink, rfl⟩
  | succ granted ih =>
      by_cases hsettled : (grammar.parseProduced steps feed).Settled
      · rw [(again.of_settled hsettled).turns_of_open granted hopen]
        exact ih
      · exact turns_of_unsettled hsettled

theorem Reaches.spins (hreaches : Reaches grammar render feed stuck)
    (hstuck : Stuck grammar stuck) (steps granted : Nat) :
    ∃ sink, turns grammar steps render granted feed = .exhausted sink := by
  induction hreaches generalizing granted with
  | here feed => exact hstuck.spins steps granted
  | @turn feed later transcript sink enough turn open_ rest ih =>
      cases granted with
      | zero => exact ⟨_, rfl⟩
      | succ granted =>
          by_cases hsettled : (grammar.parseProduced steps feed).Settled
          · rw [(turn.of_settled hsettled).turns_of_open granted open_]
            exact ih hstuck granted
          · exact turns_of_unsettled hsettled

theorem close_ne_exhausted {last : ω} : close sink ≠ .exhausted last := by
  unfold close
  rcases Writer.write sink "\n" with ⟨_ | _, other⟩ <;> simp

/-- With the steps that a parse needs, or more, the session ends with its turn, or the turn
leads to the next. -/
theorem ends_or_continues (hsettled : (grammar.parseProduced steps feed).Settled)
    (render : Value → String) :
    (∀ more granted, steps ≤ more → ∀ last,
        turns grammar more render (granted + 1) feed ≠ .exhausted last) ∨
      (grammar.parseProduced steps feed).producer.atEnd = false ∧
        ∃ sink, ∀ more, steps ≤ more →
          Exchange grammar more render feed (grammar.parseProduced steps feed) sink := by
  have hsame {more : Nat} (hmore : steps ≤ more) := Grammar.parseProduced_of_le hsettled hmore
  obtain ⟨output, hreply⟩ : ∃ output,
      reply render (grammar.parseProduced steps feed) = some output :=
    exists_reply_iff.mpr hsettled
  rcases hwrite : deliver (grammar.parseProduced steps feed).producer.sink output with
    ⟨_ | _, sink⟩
  · left
    intro more granted hmore last hexhausted
    simp only [turns_succ, hsame hmore, hreply, hwrite] at hexhausted
    cases hexhausted
  have turn {more : Nat} (hmore : steps ≤ more) :
      Exchange grammar more render feed (grammar.parseProduced steps feed) sink :=
    ⟨hsame hmore, output, hreply, hwrite⟩
  rcases hend : (grammar.parseProduced steps feed).producer.atEnd with _ | _
  · exact .inr ⟨rfl, sink, fun more hmore => turn hmore⟩
  · left
    intro more granted hmore last
    rw [(turn hmore).turns_of_ended granted hend]
    exact close_ne_exhausted

/-- Given that every parse comes to an end, a session from a feed on ends with enough steps
and one turn more than there are lines, unless it gets stuck. The induction is on the lines
that are left. -/
theorem ends_or_reaches_stuck
    (hparses : ∀ feed : LineFeed ω, ∃ steps, (grammar.parseProduced steps feed).Settled)
    (render : Value → String) (hopen : feed.atEnd = false) :
    (∃ enough, ∀ steps granted, enough ≤ steps → feed.pending.length < granted →
        ∀ sink, turns grammar steps render granted feed ≠ .exhausted sink) ∨
      ∃ stuck, Reaches grammar render feed stuck ∧ Stuck grammar stuck := by
  induction hlines : feed.pending.length using Nat.strong_induction_on generalizing feed with
  | _ lines ih =>
      subst hlines
      obtain ⟨enough, hsettled⟩ := hparses feed
      by_cases hrequests : (grammar.parseProduced enough feed).requests = 0
      · obtain ⟨defect, hparse⟩ := Grammar.defect_of_no_request hsettled hrequests
        exact .inr ⟨feed, .here feed, hopen, enough, defect, hparse⟩
      rcases ends_or_continues hsettled render with hends | ⟨hnext, sink, hturn⟩
      · refine .inl ⟨enough, fun steps granted hsteps hgranted => ?_⟩
        obtain ⟨granted, rfl⟩ := Nat.exists_eq_add_one_of_ne_zero (Nat.ne_zero_of_lt hgranted)
        exact hends steps granted hsteps
      have hread := ended_or_fewer_lines hopen (Nat.pos_of_ne_zero hrequests)
      have hfewer := hread.resolve_left (Bool.eq_false_iff.mp hnext)
      let next : LineFeed ω := { (grammar.parseProduced enough feed).producer with sink }
      have hopenNext : next.atEnd = false := hnext
      rcases ih next.pending.length hfewer hopenNext rfl with
        ⟨further, hends⟩ | ⟨stuck, hreaches, hstuck⟩
      · refine .inl ⟨max enough further, fun steps granted hsteps hgranted last => ?_⟩
        obtain ⟨granted, rfl⟩ := Nat.exists_eq_add_one_of_ne_zero (Nat.ne_zero_of_lt hgranted)
        have hless : next.pending.length < granted :=
          Nat.lt_of_lt_of_le hfewer (Nat.le_of_lt_succ hgranted)
        rw [(hturn steps (by omega)).turns_of_open granted hnext]
        exact hends steps granted (by omega) hless last
      · exact .inr ⟨stuck, .turn (hturn enough (Nat.le_refl _)) hnext hreaches, hstuck⟩

/-- For a grammar whose parses come to an end, every turn of a session takes a line or finds
the end, or else its parse meets a defect of the grammar before it asks for anything. A
session over any lines, with any writer, ends; unless it comes to a turn of the second kind.
Then it spins: it does not end with any number of steps and turns. -/
theorem session_ends_or_spins (grammar : Grammar)
    (hparses : ∀ feed : LineFeed ω, ∃ steps, (grammar.parseProduced steps feed).Settled)
    (render : Value → String) (prompts : PromptTexts) (lines : List RawLine) (writer : ω) :
    (∀ feed : LineFeed ω, ∀ steps, feed.atEnd = false →
      (grammar.parseProduced steps feed).Settled →
      let transcript := grammar.parseProduced steps feed
      (0 < transcript.requests ∧ (transcript.producer.atEnd = true ∨
          transcript.producer.pending.length < feed.pending.length)) ∨
        ∃ defect, transcript = ⟨.error (.defect defect), "", 0, feed⟩) ∧
    ((∃ enough, ∀ steps, enough ≤ steps →
        ∀ sink, hold grammar steps render prompts lines writer ≠ .exhausted sink) ∨
      ∃ stuck, Reaches grammar render (opening prompts lines writer) stuck ∧
        Stuck grammar stuck ∧
        ∀ steps granted, ∃ sink,
          turns grammar steps render granted (opening prompts lines writer) =
            .exhausted sink) := by
  constructor
  · intro feed steps hopen hsettled transcript
    by_cases hrequests : transcript.requests = 0
    · exact .inr (Grammar.defect_of_no_request hsettled hrequests)
    · have hpos := Nat.pos_of_ne_zero hrequests
      exact .inl ⟨hpos, ended_or_fewer_lines hopen hpos⟩
  · have hopen : (opening prompts lines writer).atEnd = false := rfl
    rcases ends_or_reaches_stuck hparses render hopen with
      ⟨enough, hends⟩ | ⟨stuck, hreaches, hstuck⟩
    · refine .inl ⟨enough, fun steps hsteps => ?_⟩
      have hmore : lines.length < lines.length + 2 := by omega
      exact hends steps _ hsteps hmore
    · exact .inr ⟨stuck, hreaches, hstuck, hreaches.spins hstuck⟩

/-- A grammar that only needs a letter asks for it whatever the lines are, so a session over
one line ends. -/
theorem session_ends_or_spins_of_letter :
    let grammar := Grammar.ofDefinitions [("start", .rule (Pattern.literal "a"))] "start"
    (∀ feed : LineFeed Sink, ∃ steps, (grammar.parseProduced steps feed).Settled) ∧
      ∃ enough, ∀ steps, enough ≤ steps → ∀ sink,
        run grammar steps Value.display .standard [some "a\n"] (some 5) ≠ .exhausted sink := by
  intro grammar
  have hanswers (steps : Nat) (feed : LineFeed Sink) {reason : Halt}
      (hresult : (grammar.parseProduced (steps + 1) feed).result = .error reason) :
      ∃ diagnostic, reason = .diagnostic diagnostic := by
    refine Run.exists_diagnostic_of_error (fun halt next hhalted => ?_) hresult
    have hrule : grammar.run.scope.rule? grammar.run.start =
        some ((Pattern.literal "a").labelled "start") := rfl
    rw [Run.leadingPart, hrule] at hhalted
    simp only [Pattern.run, Attempt.bind_eq_andThen, Attempt.pure_eq_succeed,
      Attempt.andThen_eq_halted_iff, Attempt.succeed_ne_halted, and_false, exists_false,
      or_false] at hhalted
    exact Match.text_ne_halted hhalted
  have hparses (feed : LineFeed Sink) : ∃ steps, (grammar.parseProduced steps feed).Settled := by
    refine ⟨1, fun reason hresult => ?_⟩
    obtain ⟨diagnostic, rfl⟩ := hanswers 0 feed hresult
    exact ⟨Halt.noConfusion, Halt.noConfusion⟩
  refine ⟨hparses, ?_⟩
  refine (session_ends_or_spins grammar hparses Value.display .standard [some "a\n"]
    (Sink.ofLimit (some 5))).2.resolve_right ?_
  rintro ⟨stuck, -, ⟨-, steps, defect, hparse⟩, -⟩
  cases steps with
  | zero => cases hparse
  | succ steps =>
      obtain ⟨diagnostic, hdiagnostic⟩ := hanswers steps stuck (by rw [hparse])
      cases hdiagnostic

/-- A grammar that starts with a name that nothing defines is accepted, and each of its parses
ends at once, with the defect and without a request. A session with it does not end, even over
a single line. -/
theorem not_session_ends_with_undefined_name :
    let definitions : Frame := [("start", .rule (Pattern.named "x"))]
    let grammar := Grammar.ofDefinitions definitions "start"
    Grammar.build definitions none = .ok grammar ∧
      (∀ feed : LineFeed Sink, grammar.parseProduced 2 feed =
        ⟨.error (.defect (.undefinedName "x")), "", 0, feed⟩) ∧
      ∀ steps granted, ∃ sink,
        turns grammar steps Value.display granted
          (opening .standard [some "a\n"] (Sink.ofLimit none)) = .exhausted sink := by
  intro definitions grammar
  have hparse (feed : LineFeed Sink) : grammar.parseProduced 2 feed =
      ⟨.error (.defect (.undefinedName "x")), "", 0, feed⟩ := by
    cbv
  have hstuck : Stuck grammar (opening .standard [some "a\n"] (Sink.ofLimit none)) :=
    ⟨rfl, 2, _, hparse _⟩
  exact ⟨by cbv, hparse, hstuck.spins⟩

end ScopedGrammar.Session
