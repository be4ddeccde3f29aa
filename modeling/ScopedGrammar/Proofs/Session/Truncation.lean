/-
# Output that is cut off

A sink with a limit accepts what it would accept without one, cut off at the limit. A prompt
that does not fit is no error, so the parse goes on as if it had been written; but nothing that
is written afterwards fits either, and the answer to that parse, a later one, or at last the
final newline is refused. So a limit has no other effect than to cut the output off, at
whatever byte it falls.

The two sessions are compared turn by turn. Their feeds are the same but for the limit of the
sink, their producers answer alike, and so their parses are the same until one of them ends.
-/

import ScopedGrammar.Proofs.Match.Producers
import ScopedGrammar.Proofs.Session.Record

namespace ScopedGrammar

namespace Sink

/-- What a sink would be if it accepted no more than so many bytes in all. -/
def limitedTo (limit : Nat) (sink : Sink) : Sink where
  accepted := sink.accepted.extract 0 limit
  room := some (limit - sink.accepted.size)

/-- With a limit a write does what it does without one, up to the limit. It fails if it does not
fit into what is left. -/
theorem write_limitedTo {sink : Sink} (hroom : sink.room = none) (limit : Nat) (text : String) :
    (sink.limitedTo limit).write text =
      (decide ((bytesOf text).size ≤ limit - sink.accepted.size),
        (sink.write text).2.limitedTo limit) := by
  have hsplit : (sink.accepted ++ bytesOf text).extract 0 limit =
      sink.accepted.extract 0 limit ++ (bytesOf text).extract 0 (limit - sink.accepted.size) := by
    rw [Array.extract_append, Nat.zero_sub]
  have hsize : (sink.accepted ++ bytesOf text).size =
      sink.accepted.size + (bytesOf text).size := Array.size_append
  rw [write_of_unlimited hroom]
  simp only [write, limitedTo, hsplit, hsize]
  by_cases hfits : (bytesOf text).size ≤ limit - sink.accepted.size
  · have hall : (bytesOf text).extract 0 (limit - sink.accepted.size) = bytesOf text :=
      Array.extract_eq_self_of_le hfits
    rw [if_pos hfits, hall, decide_eq_true hfits, Nat.sub_sub]
  · have hfull : limit - (sink.accepted.size + (bytesOf text).size) = 0 := by omega
    rw [if_neg hfits, decide_eq_false hfits, hfull]

/-- What comes after the limit makes no difference. -/
theorem limitedTo_eq_of_append {first last : Sink} {limit : Nat} {bytes : Array UInt8}
    (hlast : last.accepted = first.accepted ++ bytes) (hbeyond : limit ≤ first.accepted.size) :
    first.limitedTo limit = last.limitedTo limit := by
  have hroom : limit - first.accepted.size = limit - last.accepted.size := by
    rw [hlast, Array.size_append]
    omega
  have hnothing : bytes.extract 0 (limit - first.accepted.size) = #[] := by
    rw [Nat.sub_eq_zero_of_le hbeyond]
    simp
  rw [limitedTo, limitedTo, ← hroom, hlast, Array.extract_append, Nat.zero_sub, hnothing,
    Array.append_empty]

end Sink

/-- A feed whose prompts are written to a sink with a limit. -/
def LineFeed.limitedTo (limit : Nat) (feed : LineFeed Sink) : LineFeed Sink :=
  { feed with sink := feed.sink.limitedTo limit }

@[simp]
theorem LineFeed.atEnd_limitedTo (limit : Nat) (feed : LineFeed Sink) :
    (feed.limitedTo limit).atEnd = feed.atEnd :=
  rfl

/-- A feed is another one with a limit. -/
structure LineFeed.Limits (limit : Nat) (limited feed : LineFeed Sink) : Prop where
  room : feed.sink.room = none
  eq_limitedTo : limited = feed.limitedTo limit

/-- A feed answers with a limit as it does without. -/
theorem answersAlike_limits (limit : Nat) : AnswersAlike (LineFeed.Limits limit) := by
  rintro _ feed ⟨hroom, rfl⟩ prompt
  obtain ⟨pending, atEnd, sink, prompts⟩ := feed
  show (LineFeed.request _ prompt).1 = (LineFeed.request _ prompt).1 ∧
    LineFeed.Limits limit (LineFeed.request _ prompt).2 (LineFeed.request _ prompt).2
  have hwrite := Sink.write_limitedTo hroom limit (prompts.of prompt)
  simp only [LineFeed.request, LineFeed.limitedTo, Sink.prompt_eq, hwrite]
  cases atEnd with
  | true => exact ⟨rfl, hroom, rfl⟩
  | false =>
      have hafter : (sink.write (prompts.of prompt)).2.room = none := by
        rw [Sink.write_of_unlimited hroom]
      rcases pending with _ | ⟨_ | line, rest⟩
      · exact ⟨rfl, hafter, rfl⟩
      · exact ⟨rfl, hafter, rfl⟩
      · by_cases hblank : Text.isBlankText line = true
        · simp only [hblank]
          exact ⟨rfl, hafter, rfl⟩
        · simp only [hblank]
          exact ⟨rfl, hafter, rfl⟩

namespace Session

variable {grammar : Grammar} {steps granted : Nat} {render : Value → String}
  {feed : LineFeed Sink} {sink last : Sink}

/-- The outcome of a session that comes to its end, if no more than so many bytes are accepted. -/
def cutOff (limit : Nat) (last : Sink) : Outcome Sink :=
  if last.accepted.size ≤ limit then .finished (last.limitedTo limit)
  else .refused (last.limitedTo limit)

theorem close_limitedTo (hroom : sink.room = none) (hclose : close sink = .finished last)
    (limit : Nat) : close (sink.limitedTo limit) = cutOff limit last := by
  have hnewline : (Sink.bytesOf "\n").size = 1 := by decide
  rw [close_eq_finished_iff, Sink.write_eq, Sink.write_of_unlimited hroom] at hclose
  cases hclose
  have hsize : (sink.accepted ++ Sink.bytesOf "\n").size = sink.accepted.size + 1 := by
    rw [Array.size_append, hnewline]
  rw [close, cutOff, Sink.write_eq, Sink.write_limitedTo hroom, Sink.write_of_unlimited hroom,
    hnewline, hsize]
  by_cases hfits : sink.accepted.size + 1 ≤ limit
  · have hroomy : 1 ≤ limit - sink.accepted.size := by omega
    rw [if_pos hfits, decide_eq_true hroomy]
  · have hfull : ¬ 1 ≤ limit - sink.accepted.size := by omega
    rw [if_neg hfits, decide_eq_false hfull]

/-- Once more has been written than is accepted, the session is refused. -/
theorem cutOff_eq_refused {limit : Nat} {bytes : Array UInt8}
    (hlast : last.accepted = sink.accepted ++ bytes) (hbeyond : limit < sink.accepted.size) :
    cutOff limit last = .refused (sink.limitedTo limit) := by
  have hsize : ¬ last.accepted.size ≤ limit := by
    rw [hlast, Array.size_append]
    omega
  rw [cutOff, if_neg hsize, Sink.limitedTo_eq_of_append hlast hbeyond.le]

theorem cutOff_eq_refused_iff {limit : Nat} :
    (∃ sink, cutOff limit last = .refused sink) ↔ limit < last.accepted.size := by
  unfold cutOff
  split <;> simp_all

theorem cutOff_eq_finished_iff {limit : Nat} :
    (∃ sink, cutOff limit last = .finished sink) ↔ last.accepted.size ≤ limit := by
  unfold cutOff
  split <;> simp_all

theorem accepted_cutOff (limit : Nat) (last : Sink) :
    (cutOff limit last).sink.accepted = last.accepted.extract 0 (min limit last.accepted.size) := by
  unfold cutOff
  split
  next hfits =>
    have hall : last.accepted.extract 0 limit = last.accepted := Array.extract_eq_self_of_le hfits
    rw [Nat.min_eq_right hfits, Array.extract_size]
    exact hall
  next hbeyond =>
    rw [Nat.min_eq_left (Nat.le_of_not_le hbeyond)]
    rfl

/-- What a session does when the answer of a turn is written: it closes, or goes on. -/
def afterAnswer (grammar : Grammar) (steps : Nat) (render : Value → String) (granted : Nat)
    (feed : LineFeed Sink) : Outcome Sink :=
  if feed.atEnd then close feed.sink else turns grammar steps render granted feed

theorem turns_succ_of_reply {output : Option String}
    (hreply : reply render (grammar.parseProduced steps feed) = some output) :
    turns grammar steps render (granted + 1) feed =
      let producer := (grammar.parseProduced steps feed).producer
      match producer.sink.write (output.getD "") with
      | (false, sink) => .refused sink
      | (true, sink) => afterAnswer grammar steps render granted { producer with sink } := by
  simp only [turns_succ, hreply, deliver_eq_write]
  rcases (grammar.parseProduced steps feed).producer.sink.write (output.getD "") with
    ⟨_ | _, sink⟩ <;> rfl

/-- A session that comes to its end has only added to what its sink had accepted. -/
theorem exists_added (hroom : feed.sink.room = none)
    (hafter : afterAnswer grammar steps render granted feed = .finished last) :
    ∃ bytes, last.accepted = feed.sink.accepted ++ bytes := by
  unfold afterAnswer at hafter
  split at hafter
  next hended =>
    rw [close_eq_finished_iff, Sink.write_eq, Sink.write_of_unlimited hroom] at hafter
    cases hafter
    exact ⟨_, rfl⟩
  next hopen =>
    obtain ⟨transcripts, sink, hexchanges, hclose⟩ := exchanges_of_turns hafter
    obtain ⟨pieces, -, rfl⟩ := hexchanges.exists_pieces (Bool.eq_false_iff.mpr hopen) hroom
    rw [Sink.write_eq, Sink.write_of_unlimited rfl] at hclose
    cases hclose
    exact ⟨_, Array.append_assoc⟩

/-- A turn with a limit ends with its answer if that does not fit, and goes on as the turn
without a limit if it does. -/
theorem turns_succ_limitedTo (hroom : feed.sink.room = none) (limit granted : Nat)
    {output : Option String}
    (hreply : reply render (grammar.parseProduced steps feed) = some output) :
    ∃ next : LineFeed Sink, next.sink.room = none ∧
      turns grammar steps render (granted + 1) feed =
        afterAnswer grammar steps render granted next ∧
      turns grammar steps render (granted + 1) (feed.limitedTo limit) =
        if (Sink.bytesOf (output.getD "")).size = 0 ∨ next.sink.accepted.size ≤ limit then
          afterAnswer grammar steps render granted (next.limitedTo limit)
        else .refused (next.sink.limitedTo limit) := by
  obtain ⟨hresult, hreceived, -, hafter, hlimited⟩ :=
    grammar.parseProduced_alike (answersAlike_limits limit) steps (LineFeed.Limits.mk hroom rfl)
  have hlimitedReply : reply render (grammar.parseProduced steps (feed.limitedTo limit)) =
      some output := by
    rw [← hreply, reply, reply, hresult, hreceived]
  rw [turns_succ_of_reply hreply, turns_succ_of_reply hlimitedReply, hlimited]
  generalize (grammar.parseProduced steps feed).producer = producer at hafter
  generalize output.getD "" = text
  let written : Sink := ⟨producer.sink.accepted ++ Sink.bytesOf text, none⟩
  have hwrite : producer.sink.write text = (true, written) :=
    Sink.write_of_unlimited hafter text
  have hcut := Sink.write_limitedTo hafter limit text
  have hsize : written.accepted.size = producer.sink.accepted.size + (Sink.bytesOf text).size :=
    Array.size_append
  refine ⟨{ producer with sink := written }, rfl, by simp only [hwrite], ?_⟩
  simp only [LineFeed.limitedTo, hcut, hwrite, hsize]
  by_cases hfits : (Sink.bytesOf text).size ≤ limit - producer.sink.accepted.size
  · rw [decide_eq_true hfits, if_pos (by omega)]
  · rw [decide_eq_false hfits, if_neg (by omega)]

/-- A limit cuts off what a session writes. A write that does not fit is a prompt, after which
the session goes on with a full sink, or it is an answer, with which the session ends. -/
theorem turns_limitedTo (hroom : feed.sink.room = none)
    (hturns : turns grammar steps render granted feed = .finished last) (limit : Nat) :
    turns grammar steps render granted (feed.limitedTo limit) = cutOff limit last := by
  induction granted generalizing feed with
  | zero => cases hturns
  | succ granted ih =>
      cases hreply : reply render (grammar.parseProduced steps feed) with
      | none =>
          simp only [turns_succ, hreply] at hturns
          cases hturns
      | some output =>
          obtain ⟨next, hnext, hfree, hlimited⟩ := turns_succ_limitedTo hroom limit granted hreply
          rw [hfree] at hturns
          rw [hlimited]
          -- An empty answer always fits, also after a prompt that did not.
          split
          next =>
            unfold afterAnswer at hturns ⊢
            rw [LineFeed.atEnd_limitedTo]
            split at hturns
            next hended =>
              rw [if_pos hended]
              exact close_limitedTo hnext hturns limit
            next hopen =>
              rw [if_neg hopen]
              exact ih hnext hturns
          next hbeyond =>
            obtain ⟨bytes, hlast⟩ := exists_added hnext hturns
            exact (cutOff_eq_refused hlast (by omega)).symm

/-- A sink that fails once it is full only truncates what a session writes. Let a session come
to its end with a sink that accepts everything. With a sink that accepts only so many bytes,
and takes the part of a write that fits, the same session comes to an end too: it is refused
exactly if it has more to write, and what is accepted is what it has to write, up to the
limit. -/
theorem limited_session_truncates (grammar : Grammar) (steps : Nat) (render : Value → String)
    (prompts : PromptTexts) (lines : List RawLine) {last : Sink}
    (hfinished : run grammar steps render prompts lines none = .finished last) (limit : Nat) :
    ((∃ sink, run grammar steps render prompts lines (some limit) = .refused sink) ↔
        limit < last.accepted.size) ∧
      ((∃ sink, run grammar steps render prompts lines (some limit) = .finished sink) ↔
        last.accepted.size ≤ limit) ∧
      (run grammar steps render prompts lines (some limit)).sink.accepted =
        last.accepted.extract 0 (min limit last.accepted.size) := by
  have hopening : opening prompts lines (Sink.ofLimit (some limit)) =
      (opening prompts lines (Sink.ofLimit none)).limitedTo limit := by
    simp [opening, LineFeed.limitedTo, Sink.limitedTo, Sink.ofLimit]
  have hcut : run grammar steps render prompts lines (some limit) = cutOff limit last := by
    rw [run, hold_eq_turns, hopening]
    exact turns_limitedTo rfl hfinished limit
  rw [hcut]
  exact ⟨cutOff_eq_refused_iff, cutOff_eq_finished_iff, accepted_cutOff limit last⟩

/-- A limit of one byte falls inside the first prompt, before a line of blanks. The session goes
on to the next statement, shows nothing of its prompts, and is refused with its answer. -/
theorem limited_session_truncates_inside_prompt :
    let grammar := Grammar.ofDefinitions [("start", .rule (Pattern.literal "a\n"))] "start"
    let prompts : PromptTexts := ⟨"> ", ". "⟩
    let lines : List RawLine := [some "\n", some "a\n"]
    let render := fun _ : Value => "read"
    run grammar 3 render prompts lines none =
        .finished ⟨Sink.bytesOf "> > . read\n\n", none⟩ ∧
      (∃ sink, run grammar 3 render prompts lines (some 1) = .refused sink) ∧
      (run grammar 3 render prompts lines (some 1)).sink.accepted = Sink.bytesOf ">" := by
  intro grammar prompts lines render
  let content : Value := .token ⟨"a\n", ⟨1, 1, 0⟩, ⟨2, 1, 2⟩⟩
  let nothing : Diagnostic :=
    ⟨.unexpectedEnd, "unexpected end of input at line 1, column 1", Position.start, ⟨0, 0⟩⟩
  let holding (written : String) : Sink := ⟨Sink.bytesOf written, none⟩
  let between : LineFeed Sink := ⟨[some "a\n"], false, holding "> ", prompts⟩
  have hwrite {written more all : String} (hall : written ++ more = all) :
      (holding written).write more = (true, holding all) := by
    rw [Sink.write_of_unlimited rfl, ← hall]
    simp only [holding, Sink.bytesOf_append]
  have hfirst : grammar.parseProduced 3 (opening prompts lines (Sink.ofLimit none)) =
      ⟨.error (.diagnostic nothing), "", 1, between⟩ := by
    cbv
  have hsecond : grammar.parseProduced 3 between =
      ⟨.ok content, "a\n", 2, ⟨[], true, holding "> > . ", prompts⟩⟩ := by
    cbv
  have first : Exchange grammar 3 render (opening prompts lines (Sink.ofLimit none)) _
      (holding "> ") :=
    ⟨hfirst, none, by cbv, rfl⟩
  have second : Exchange grammar 3 render between _ (holding "> > . read\n") :=
    ⟨hsecond, some "read\n", by cbv, hwrite (by decide)⟩
  have hfinished : run grammar 3 render prompts lines none =
      .finished (holding "> > . read\n\n") := by
    rw [run, hold_eq_turns]
    refine (first.turns_of_open 3 rfl).trans ((second.turns_of_ended 2 rfl).trans ?_)
    exact close_eq_finished_iff.mpr (hwrite (by decide))
  obtain ⟨hrefused, -, haccepted⟩ :=
    limited_session_truncates grammar 3 render prompts lines hfinished 1
  refine ⟨hfinished, hrefused.mpr (by decide), ?_⟩
  rw [haccepted]
  decide

end Session

end ScopedGrammar
