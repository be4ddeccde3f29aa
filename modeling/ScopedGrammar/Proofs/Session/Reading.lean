/-
# What a parse takes from the lines

A parse of lines that arrive takes some of them, in order, and leaves the rest to the next
parse. What it receives is what those lines hold that are not blank, each ended by a newline.
Before every line it writes one prompt, and it stops at the end, at a blank line and at a
line that cannot be read.

This is an invariant of requests: a request takes one more line or finds the end, and an input
only ever makes requests while it is open.
-/

import ScopedGrammar.Session.LineFeed
import ScopedGrammar.Session.Sink
import ScopedGrammar.Proofs.Match.Streaming

namespace ScopedGrammar

/-- The prompts of so many requests: the primary one, and the continuation from then on. -/
def PromptTexts.shown (prompts : PromptTexts) : Nat → String
  | 0 => ""
  | requests + 1 =>
      prompts.primary ++ String.join (List.replicate requests prompts.continuation)

variable {ω : Type} [Writer ω]

/-- A writer after the prompts of so many requests, whether or not they could be written. -/
def Writer.prompted (writer : ω) (prompts : PromptTexts) : Nat → ω
  | 0 => writer
  | requests + 1 =>
      prompt (prompted writer prompts requests)
        (if requests = 0 then prompts.primary else prompts.continuation)

namespace Sink

/-- A sink has nothing to flush, so a prompt is written to it like any text. -/
theorem prompt_eq (sink : Sink) (text : String) :
    Writer.prompt sink text = (sink.write text).2 := by
  rw [Writer.prompt, write_eq]
  rcases sink.write text with ⟨_ | _, written⟩ <;> rfl

theorem bytesOf_append (first second : String) :
    bytesOf (first ++ second) = bytesOf first ++ bytesOf second := by
  rw [bytesOf, String.toUTF8_eq_toByteArray, String.toByteArray_append, ByteArray.data_append]
  rfl

/-- To write nothing changes nothing. -/
theorem write_empty (sink : Sink) : sink.write "" = (true, sink) := by
  obtain ⟨accepted, room⟩ := sink
  have hbytes : bytesOf "" = #[] := by decide
  cases room <;> simp [write, hbytes]

/-- A sink without a limit accepts everything. -/
theorem write_of_unlimited {sink : Sink} (hroom : sink.room = none) (text : String) :
    sink.write text = (true, ⟨sink.accepted ++ bytesOf text, none⟩) := by
  rw [write, hroom]

theorem prompted_of_unlimited {sink : Sink} (hroom : sink.room = none) (prompts : PromptTexts)
    (requests : Nat) :
    Writer.prompted sink prompts requests =
      ⟨sink.accepted ++ bytesOf (prompts.shown requests), none⟩ := by
  induction requests with
  | zero =>
      obtain ⟨accepted, room⟩ := sink
      have hbytes : bytesOf "" = #[] := by decide
      simp_all [Writer.prompted, PromptTexts.shown]
  | succ requests ih =>
      rw [Writer.prompted, ih, prompt_eq, write_of_unlimited rfl]
      cases requests with
      | zero => simp [PromptTexts.shown, bytesOf]
      | succ requests =>
          simp [PromptTexts.shown, bytesOf_append, List.replicate_succ', Array.append_assoc]

end Sink

/-- What a line adds to what is received: nothing if it is blank or cannot be read. -/
def RawLine.kept : RawLine → List Char
  | none => []
  | some line => if Text.isBlankText line then [] else (terminated line).toList

theorem mem_terminated {line : String} {c : Char} (hc : c ∈ line.toList) :
    c ∈ (terminated line).toList := by
  rw [terminated]
  split
  · exact hc
  · rw [String.toList_append]
    exact List.mem_append_left _ hc

/-- What a line adds is more than blanks, if it is anything. -/
theorem RawLine.kept_eq_nil_of_blank {line : RawLine}
    (hblank : ∀ c ∈ line.kept, Text.isBlank c = true) : line.kept = [] := by
  cases line with
  | none => rfl
  | some content =>
      by_cases hcontent : Text.isBlankText content = true
      · rw [kept, if_pos hcontent]
      · rw [kept, if_neg hcontent] at hblank
        exact absurd (List.all_eq_true.mpr fun c hc => hblank c (mem_terminated hc)) hcontent

theorem terminated_ne_empty {line : String} (hline : ¬ Text.isBlankText line = true) :
    (terminated line).toList ≠ [] := by
  intro hnothing
  refine hline (List.all_eq_true.mpr fun c hc => ?_)
  have hmem := mem_terminated hc
  rw [hnothing] at hmem
  cases hmem

/-- Between a feed and what is left of it some lines were taken, over so many requests. -/
structure Taken (feed : LineFeed ω) (taken : List RawLine) (received : List Char)
    (requests : Nat) (left : LineFeed ω) : Prop where
  pending : feed.pending = taken ++ left.pending
  received : received = taken.flatMap RawLine.kept
  sink : left.sink = Writer.prompted feed.sink feed.prompts requests
  prompts : left.prompts = feed.prompts
  /-- Before the end every request takes a line. -/
  counted : left.atEnd = false → requests = taken.length
  /-- The end is found by a request, after the last line or at one that cannot be read. -/
  ended : left.atEnd = true → 0 < requests ∧ (left.pending = [] ∨ none ∈ taken)

namespace Taken

variable {feed left : LineFeed ω} {taken : List RawLine} {received : List Char} {requests : Nat}

theorem nothing (hopen : feed.atEnd = false) : Taken feed [] [] 0 feed where
  pending := rfl
  received := rfl
  sink := rfl
  prompts := rfl
  counted _ := rfl
  ended hend := by
    rw [hopen] at hend
    cases hend

/-- The sink after one more prompt. -/
theorem sink_request {input : Input (LineFeed ω)}
    (htaken : Taken feed taken received input.requests input.producer) :
    Writer.prompt input.producer.sink (input.producer.prompts.of input.nextPrompt) =
      Writer.prompted feed.sink feed.prompts (input.requests + 1) := by
  rw [htaken.sink, htaken.prompts, Writer.prompted, Input.nextPrompt]
  split <;> rfl

/-- One more line is taken. The end is found at a line that cannot be read. -/
theorem line {line : RawLine} {rest : List RawLine} {sink : ω}
    (htaken : Taken feed taken received requests left) (hopen : left.atEnd = false)
    (hpending : left.pending = line :: rest)
    (hsink : sink = Writer.prompted feed.sink feed.prompts (requests + 1)) :
    Taken feed (taken ++ [line]) (received ++ line.kept) (requests + 1)
      ⟨rest, Option.isNone line, sink, left.prompts⟩ where
  pending := by rw [htaken.pending, hpending, List.append_assoc, List.singleton_append]
  received := by rw [List.flatMap_append, ← htaken.received, List.flatMap_singleton]
  sink := hsink
  prompts := htaken.prompts
  counted _ := by rw [List.length_append, ← htaken.counted hopen, List.length_singleton]
  ended hunreadable := by
    obtain rfl : line = none := Option.isNone_iff_eq_none.mp hunreadable
    exact ⟨Nat.succ_pos requests, .inr (List.mem_append_right taken List.mem_cons_self)⟩

/-- A request takes one more line, or finds the end. -/
theorem request {input : Input (LineFeed ω)} (hopen : input.producer.atEnd = false)
    (htaken : Taken feed taken input.buffer.toList input.requests input.producer) :
    ∃ more, Taken feed more input.request.buffer.toList input.request.requests
        input.request.producer ∧
      (input.request.finished = false → input.request.producer.atEnd = false) := by
  have hsink := htaken.sink_request
  obtain ⟨buffer, finished, requests, left⟩ := input
  obtain ⟨pending, atEnd, sink, prompts⟩ := left
  cases hopen
  rcases pending with _ | ⟨line, rest⟩
  · refine ⟨taken, ⟨htaken.pending, htaken.received, hsink, htaken.prompts, ?_, ?_⟩, ?_⟩
    · intro hfeed
      cases hfeed
    · exact fun _ => ⟨Nat.succ_pos requests, .inl rfl⟩
    · intro hfinished
      cases hfinished
  have hline := htaken.line rfl rfl hsink
  rcases line with _ | line
  · rw [RawLine.kept, List.append_nil] at hline
    refine ⟨taken ++ [none], hline, ?_⟩
    intro hfinished
    cases hfinished
  let left : LineFeed ω := ⟨some line :: rest, false, sink, prompts⟩
  let prompt := (Input.mk buffer finished requests left).nextPrompt
  let next : LineFeed ω := ⟨rest, false, Writer.prompt sink (prompts.of prompt), prompts⟩
  refine ⟨taken ++ [some line], ?_⟩
  by_cases hblank : Text.isBlankText line = true
  · have hrequest : Producer.request left prompt = (Chunk.finish, next) := if_pos hblank
    have hinput : (Input.mk buffer finished requests left).request =
        ⟨buffer, true, requests + 1, next⟩ := by
      rw [Input.request, hrequest]
    rw [RawLine.kept, if_pos hblank, List.append_nil] at hline
    rw [hinput]
    exact ⟨hline, fun _ => rfl⟩
  · have hrequest : Producer.request left prompt = (Chunk.text (terminated line), next) :=
      if_neg hblank
    have hinput : (Input.mk buffer finished requests left).request =
        ⟨buffer ++ (terminated line).toList.toArray, finished, requests + 1, next⟩ := by
      rw [Input.request, hrequest]
      exact if_neg (terminated_ne_empty hblank)
    rw [RawLine.kept, if_neg hblank] at hline
    rw [hinput, Array.toList_append]
    exact ⟨hline, fun _ => rfl⟩

/-- Unless nothing was received, there is more to it than blanks. -/
theorem received_eq_empty {text : String}
    (htaken : Taken feed taken text.toList requests left)
    (hblank : Text.isBlankText text = true) : text = "" := by
  rw [← String.toList_eq_nil_iff, htaken.received, List.flatMap_eq_nil_iff]
  intro line hline
  refine RawLine.kept_eq_nil_of_blank fun c hc => List.all_eq_true.mp hblank c ?_
  rw [htaken.received]
  exact List.mem_flatMap_of_mem hline hc

/-- However far an input from a feed has grown, it has taken lines of the feed. -/
theorem of_growsTo {input later : Input (LineFeed ω)} (hgrows : input.GrowsTo later)
    (hopen : input.finished = false → input.producer.atEnd = false)
    (htaken : Taken feed taken input.buffer.toList input.requests input.producer) :
    ∃ more, Taken feed more later.buffer.toList later.requests later.producer := by
  induction hgrows generalizing taken with
  | refl input => exact ⟨taken, htaken⟩
  | request hunfinished hlater ih =>
      obtain ⟨more, hmore, hnext⟩ := htaken.request (hopen hunfinished)
      exact ih hnext hmore

end Taken

/-- A parse takes lines of its feed. -/
theorem Grammar.taken_of_parse (grammar : Grammar) (steps : Nat) {feed : LineFeed ω}
    (hopen : feed.atEnd = false) :
    ∃ taken, Taken feed taken (grammar.parseProduced steps feed).received.toList
      (grammar.parseProduced steps feed).requests
      (grammar.parseProduced steps feed).producer := by
  have hgrows := (agrees_parse_of_producer "" steps grammar feed).grows
  obtain ⟨taken, htaken⟩ := Taken.of_growsTo hgrows (fun _ => hopen) (.nothing hopen)
  have hreceived : (grammar.parseProduced steps feed).received.toList =
      (grammar.run.whole steps (Input.ofProducer feed)).2.buffer.toList :=
    String.toList_ofList
  rw [← hreceived] at htaken
  exact ⟨taken, htaken⟩

end ScopedGrammar
