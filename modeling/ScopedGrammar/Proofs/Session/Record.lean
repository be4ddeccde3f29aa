/-
# What a finished session has read and written

Every line that is not blank reaches exactly one parse of a session, in order, and a parse
that arrives line by line has the result of a parse of the text that it received. So nothing
is lost between one parse and the next and nothing comes twice, although each of them throws
away what it has read and the next one goes on with the feed alone.

What is written is told parse by parse: the prompts of its requests, and what is shown for its
text, unless that is empty.
-/

import ScopedGrammar.Proofs.Session.Encoding
import ScopedGrammar.Proofs.Session.Turns
import Mathlib

namespace ScopedGrammar.Session

variable {grammar : Grammar} {steps granted : Nat} {render : Value → String}
  {prompts : PromptTexts} {feed : LineFeed Sink} {transcript : Transcript (LineFeed Sink)}
  {transcripts : List (Transcript (LineFeed Sink))} {sink last : Sink}

/-- What is shown for the result of a parse of a text. -/
inductive Shows (render : Value → String) (text : String) : Except Halt Value → String → Prop
  | value (content : Value) : Shows render text (.ok content) (render content ++ "\n")
  | diagnostic (found : Diagnostic) :
      Shows render text (.error (.diagnostic found)) (found.render text)
  | defect (found : Defect) :
      Shows render text (.error (.defect found)) ("error: " ++ found.message ++ "\n")

/-- What is written in the course of a parse: its prompts, and what is shown for a parse of
the whole text that it received, unless that is empty. -/
def Writes (grammar : Grammar) (steps : Nat) (render : Value → String) (prompts : PromptTexts)
    (transcript : Transcript (LineFeed Sink)) (piece : String) : Prop :=
  ∃ shown, piece = prompts.shown transcript.requests ++ shown ∧
    (transcript.received = "" ∧ shown = "" ∨
      transcript.received ≠ "" ∧
        Shows render transcript.received (grammar.parse steps transcript.received) shown)

theorem shows_of_answer {text output : String} {result : Except Halt Value}
    (hanswer : answer render text result = some output) : Shows render text result output := by
  cases result with
  | ok content =>
      cases hanswer
      exact .value content
  | error reason =>
      cases reason with
      | diagnostic found =>
          cases hanswer
          exact .diagnostic found
      | defect found =>
          cases hanswer
          exact .defect found
      | overflow => cases hanswer
      | exhausted => cases hanswer

/-- To write nothing is to write the empty text. -/
theorem deliver_eq_write (sink : Sink) (output : Option String) :
    deliver sink output = sink.write (output.getD "") := by
  cases output with
  | none => exact (Sink.write_empty sink).symm
  | some output => rfl

namespace Exchange

variable {taken : List RawLine}

/-- The result of a parse of what arrives is that of a parse of what was received. -/
theorem result_eq (turn : Exchange grammar steps render feed transcript sink) :
    transcript.result = grammar.parse steps transcript.received := by
  obtain ⟨rfl, -⟩ := turn
  have hagrees := agrees_parse_of_producer (grammar.parseProduced steps feed).received steps
    grammar feed
  rw [Grammar.parse, hagrees.answers rfl (Input.admits_received _)]
  rfl

/-- In the course of a turn its prompts are written and what is shown for its text. -/
theorem exists_piece (turn : Exchange grammar steps render feed transcript sink)
    (hopen : feed.atEnd = false) (hroom : feed.sink.room = none) :
    ∃ piece, Writes grammar steps render feed.prompts transcript piece ∧
      sink = ⟨feed.sink.accepted ++ Sink.bytesOf piece, none⟩ := by
  obtain ⟨taken, htaken⟩ := turn.exists_taken hopen
  obtain ⟨output, hreply, hwrite⟩ := turn.written
  rw [deliver_eq_write, htaken.sink, Sink.prompted_of_unlimited hroom,
    Sink.write_of_unlimited rfl] at hwrite
  cases hwrite
  refine ⟨_, ⟨output.getD "", rfl, ?_⟩, by rw [Sink.bytesOf_append, Array.append_assoc]⟩
  obtain ⟨shown, hanswer, houtput⟩ := Option.map_eq_some_iff.mp hreply
  by_cases hblank : Text.isBlankText transcript.received = true
  · rw [if_pos hblank] at houtput
    subst houtput
    exact .inl ⟨htaken.received_eq_empty hblank, rfl⟩
  · rw [if_neg hblank] at houtput
    subst houtput
    refine .inr ⟨fun hempty => hblank ?_, ?_⟩
    · rw [hempty]
      rfl
    · rw [← turn.result_eq]
      exact shows_of_answer hanswer

end Exchange

namespace Exchanges

/-- A session that comes to its end makes a request in its first turn: otherwise it would
never get any further. -/
theorem requests_pos (hexchanges : Exchanges grammar steps render feed transcripts last)
    (hopen : feed.atEnd = false) : 0 < (grammar.parseProduced steps feed).requests := by
  induction hexchanges with
  | last turn ended =>
      obtain ⟨taken, htaken⟩ := turn.exists_taken hopen
      rw [turn.parsed]
      exact (htaken.ended ended).1
  | @next feed transcript sink last transcripts turn open_ rest ih =>
      rw [turn.parsed]
      refine Nat.pos_of_ne_zero fun hrequests => ?_
      have hagain := ih open_
      rw [turn.eq_of_no_request hrequests, turn.parsed, hrequests] at hagain
      exact Nat.lt_irrefl 0 hagain

theorem all_requests_pos (hexchanges : Exchanges grammar steps render feed transcripts last)
    (hopen : feed.atEnd = false) : ∀ transcript ∈ transcripts, 0 < transcript.requests := by
  have hfirst := hexchanges.requests_pos hopen
  induction hexchanges with
  | last turn ended =>
      rw [turn.parsed] at hfirst
      exact List.forall_mem_singleton.mpr hfirst
  | next turn open_ rest ih =>
      rw [turn.parsed] at hfirst
      exact List.forall_mem_cons.mpr ⟨hfirst, ih open_ (rest.requests_pos open_)⟩

/-- The parses receive what the lines hold, each line once and in order, if all of them can
be read. -/
theorem received_eq (hexchanges : Exchanges grammar steps render feed transcripts last)
    (hopen : feed.atEnd = false) (hreadable : none ∉ feed.pending) :
    transcripts.flatMap (fun transcript => transcript.received.toList) =
      feed.pending.flatMap RawLine.kept := by
  induction hexchanges with
  | last turn ended =>
      obtain ⟨taken, htaken⟩ := turn.exists_taken hopen
      rw [htaken.pending] at hreadable ⊢
      have hnothing := (htaken.ended ended).2.resolve_right fun hunreadable =>
        hreadable (List.mem_append_left _ hunreadable)
      rw [List.flatMap_singleton, htaken.received, hnothing, List.append_nil]
  | next turn open_ rest ih =>
      obtain ⟨taken, htaken⟩ := turn.exists_taken hopen
      rw [htaken.pending] at hreadable ⊢
      have hrest := ih open_ fun hunreadable =>
        hreadable (List.mem_append_right _ hunreadable)
      rw [List.flatMap_cons, htaken.received, hrest, List.flatMap_append]

/-- What is written is what each turn writes, one after the other. -/
theorem exists_pieces (hexchanges : Exchanges grammar steps render feed transcripts last)
    (hopen : feed.atEnd = false) (hroom : feed.sink.room = none) :
    ∃ pieces, List.Forall₂ (Writes grammar steps render feed.prompts) transcripts pieces ∧
      last = ⟨feed.sink.accepted ++ Sink.bytesOf (String.join pieces), none⟩ := by
  induction hexchanges with
  | last turn ended =>
      obtain ⟨piece, hwrites, rfl⟩ := turn.exists_piece hopen hroom
      refine ⟨[piece], .cons hwrites .nil, ?_⟩
      rw [String.join_cons, String.join_nil, String.append_empty]
  | next turn open_ rest ih =>
      obtain ⟨taken, htaken⟩ := turn.exists_taken hopen
      obtain ⟨piece, hwrites, rfl⟩ := turn.exists_piece hopen hroom
      obtain ⟨pieces, hpieces, rfl⟩ := ih open_ rfl
      rw [htaken.prompts] at hpieces
      refine ⟨piece :: pieces, .cons hwrites hpieces, ?_⟩
      rw [String.join_cons, Sink.bytesOf_append, Array.append_assoc]

end Exchanges

/-- Without a limit nothing is refused. -/
theorem turns_ne_refused (hopen : feed.atEnd = false) (hroom : feed.sink.room = none) :
    turns grammar steps render granted feed ≠ .refused last := by
  intro hturns
  induction granted generalizing feed with
  | zero => cases hturns
  | succ granted ih =>
      rw [turns_succ] at hturns
      dsimp only at hturns
      split at hturns
      next => cases hturns
      next output hreply =>
        obtain ⟨taken, htaken⟩ := grammar.taken_of_parse steps hopen
        rw [deliver_eq_write, htaken.sink, Sink.prompted_of_unlimited hroom,
          Sink.write_of_unlimited rfl] at hturns
        split at hturns
        next hrefused => cases hrefused
        next hwritten =>
          cases hwritten
          split at hturns
          next => cases hturns
          next hstill =>
            refine ih ?_ ?_ hturns
            · exact Bool.eq_false_iff.mpr hstill
            · rfl

/-- The lines of a text that are not blank, each ended by a newline. -/
def statementLines (text : String) : List String :=
  (((Text.cutAfter (· == '\n') text.toList).map String.ofList).filter fun line =>
    !Text.isBlankText line).map terminated

theorem flatMap_kept_rawLinesOfText (text : String) :
    (rawLinesOfText text).flatMap RawLine.kept = (String.join (statementLines text)).toList := by
  rw [String.toList_join, rawLinesOfText, statementLines]
  induction Text.cutAfter (· == '\n') text.toList with
  | nil => rfl
  | cons line rest ih =>
      rw [List.map_cons, List.flatMap_cons, ih, RawLine.kept, List.map_cons, List.filter_cons]
      cases Text.isBlankText (String.ofList line) <;> simp

/-- A session over the lines of a text, with a sink that accepts everything, either comes to
no end or is finished. When it is finished, every parse has made a request; the texts that
the parses received are together the lines that are not blank, in order and each ended by a
newline; and what is written is, parse by parse, the prompts of its requests and what is shown
for a parse of its text, if that is not empty, and at last a newline. -/
theorem finished_session_record (grammar : Grammar) (steps : Nat) (render : Value → String)
    (prompts : PromptTexts) (text : String)
    (hreturns : ∀ sink,
      run grammar steps render prompts (rawLines text.toUTF8.data.toList) none ≠
        .exhausted sink) :
    ∃ transcripts pieces before sink,
      run grammar steps render prompts (rawLines text.toUTF8.data.toList) none =
        .finished sink ∧
      Exchanges grammar steps render
        (opening prompts (rawLines text.toUTF8.data.toList) (Sink.ofLimit none)) transcripts
        before ∧
      (∀ transcript ∈ transcripts, 0 < transcript.requests) ∧
      String.join (transcripts.map Transcript.received) = String.join (statementLines text) ∧
      List.Forall₂ (Writes grammar steps render prompts) transcripts pieces ∧
      sink.accepted = Sink.bytesOf (String.join pieces ++ "\n") := by
  rw [rawLines_encoded] at hreturns ⊢
  rw [run, hold_eq_turns] at hreturns ⊢
  let feed := opening prompts (rawLinesOfText text) (Sink.ofLimit none)
  have hopen : feed.atEnd = false := rfl
  have hroom : feed.sink.room = none := rfl
  have hreadable : none ∉ feed.pending := by
    simp [feed, opening, rawLinesOfText]
  rcases hturns : turns grammar steps render ((rawLinesOfText text).length + 2) feed with
    sink | sink | sink
  · obtain ⟨transcripts, before, hexchanges, hclose⟩ := exchanges_of_turns hturns
    obtain ⟨pieces, hpieces, rfl⟩ := hexchanges.exists_pieces hopen hroom
    rw [Sink.write_eq, Sink.write_of_unlimited rfl] at hclose
    cases hclose
    refine ⟨transcripts, pieces, _, _, rfl, hexchanges, hexchanges.all_requests_pos hopen, ?_,
      hpieces, ?_⟩
    · have hreceived := hexchanges.received_eq hopen hreadable
      have hkept : feed.pending.flatMap RawLine.kept =
          (String.join (statementLines text)).toList := flatMap_kept_rawLinesOfText text
      rw [hkept] at hreceived
      rw [← String.toList_inj, ← hreceived, String.toList_join, List.flatMap_map]
    · have hnothing : feed.sink.accepted = #[] := rfl
      rw [hnothing, Array.empty_append, Sink.bytesOf_append]
  · exact absurd hturns (turns_ne_refused hopen hroom)
  · exact absurd hturns (hreturns sink)

/-- Two statements with a line of blanks between them, the last without a newline. -/
theorem finished_session_record_of_two_statements :
    let grammar := Grammar.ofDefinitions [("start", .rule (Pattern.literal "a\n"))] "start"
    let prompts : PromptTexts := ⟨"> ", ". "⟩
    let lines := rawLines "a\n \na".toUTF8.data.toList
    let render := fun _ : Value => "read"
    (∀ sink, run grammar 3 render prompts lines none ≠ .exhausted sink) ∧
      ∃ transcripts before,
        Exchanges grammar 3 render (opening prompts lines (Sink.ofLimit none)) transcripts
          before ∧
        String.join (transcripts.map Transcript.received) = "a\na\n" := by
  intro grammar prompts lines render
  have hlines : lines = [some "a\n", some " \n", some "a"] := by
    show rawLines _ = _
    rw [rawLines_encoded]
    decide
  let content : Value := .token ⟨"a\n", ⟨1, 1, 0⟩, ⟨2, 1, 2⟩⟩
  let left (pending : List RawLine) (atEnd : Bool) (written : String) : LineFeed Sink :=
    ⟨pending, atEnd, ⟨Sink.bytesOf written, none⟩, prompts⟩
  have hfirst : grammar.parseProduced 3 (opening prompts lines (Sink.ofLimit none)) =
      ⟨.ok content, "a\n", 2, left [some "a"] false "> . "⟩ := by
    rw [hlines]
    cbv
  have hsecond : grammar.parseProduced 3 (left [some "a"] false "> . read\n") =
      ⟨.ok content, "a\n", 2, left [] true "> . read\n> . "⟩ := by
    cbv
  have hread {pending : List RawLine} {atEnd : Bool} {written more : String}
      (hmore : written ++ "read\n" = more) :
      (left pending atEnd written).sink.write "read\n" =
        (true, (left pending atEnd more).sink) := by
    rw [Sink.write_of_unlimited rfl]
    simp only [left, ← hmore, Sink.bytesOf_append]
  have hreturns : ∀ sink, run grammar 3 render prompts lines none ≠ .exhausted sink := by
    have first : Exchange grammar 3 render (opening prompts lines (Sink.ofLimit none)) _
        (left [some "a"] false "> . read\n").sink :=
      ⟨hfirst, some "read\n", by cbv, hread (by decide)⟩
    have second : Exchange grammar 3 render (left [some "a"] false "> . read\n") _
        (left [] true "> . read\n> . read\n").sink :=
      ⟨hsecond, some "read\n", by cbv, hread (by decide)⟩
    have hlength : lines.length + 1 = 4 := by
      rw [hlines]
      rfl
    have hlast := second.turns_of_ended 3 rfl
    intro sink hexhausted
    rw [run, hold_eq_turns, first.turns_of_open _ rfl, hlength] at hexhausted
    have hclosed := hlast.symm.trans hexhausted
    rw [close, Sink.write_eq, Sink.write_of_unlimited rfl] at hclosed
    cases hclosed
  obtain ⟨transcripts, -, before, -, -, hexchanges, -, hreceived, -⟩ :=
    finished_session_record grammar 3 render prompts "a\n \na" hreturns
  refine ⟨hreturns, transcripts, before, hexchanges, ?_⟩
  rw [hreceived]
  decide

end ScopedGrammar.Session
