/-
# Texts that an input admits

A growing input can still turn out to be many texts. It admits those that begin with what
it has received and, once it has ended, only the received text itself. Growing only rules
texts out, so a text that is admitted at the end of a reading was admitted all along.

Two ways to read agree on a text if the first one only lets the input grow and, whenever it
leaves an input that admits the text, the second one gives the same answer over the complete
text. Every question to a growing input agrees with itself in this sense, on every text. The
premise is about the input at the end, and not about the producer: nothing is assumed of
what it would answer.
-/

import ScopedGrammar.Proofs.Input.Growth

namespace ScopedGrammar

variable {π α β : Type} [Producer π]

namespace Input

/-- What an input has received is the beginning of a text, and all of it if the input has
ended. -/
structure Admits (input : Input π) (text : String) : Prop where
  received : input.buffer.toList <+: text.toList
  ended : input.finished = true → input.buffer.toList = text.toList

omit [Producer π] in
/-- Every input admits the text that it has received. -/
theorem admits_received (input : Input π) : input.Admits input.received where
  received := by simp [Input.received]
  ended := by simp [Input.received]

/-- A text that is admitted later is admitted before. -/
theorem GrowsTo.admits {input later : Input π} {text : String} (hgrows : input.GrowsTo later)
    (hadmits : later.Admits text) : input.Admits text where
  received := hgrows.received.trans hadmits.received
  ended := by
    intro ended
    have hsame := hgrows.settled ended
    subst later
    exact hadmits.ended ended

namespace Admits

variable {input : Input π} {text : String}

/-- A filled input has the character of the text. -/
theorem getElem?_fill {offset : Nat} (hadmits : (input.fill offset).Admits text) :
    text.toList[offset]? = (input.fill offset).buffer[offset]? := by
  rcases finished_or_lt_size_fill offset input with hended | hthere
  · rw [← hadmits.ended hended, Array.getElem?_toList]
  · have hreceived := List.prefix_iff_getElem?.mp hadmits.received offset
      (by simpa using hthere)
    rw [hreceived, Array.getElem_toList, Array.getElem?_eq_getElem hthere]

omit [Producer π] in
/-- Pieces of what has been received are pieces of the text. -/
theorem slice_eq {first past : Nat} (hadmits : input.Admits text)
    (hthere : input.finished = true ∨ past ≤ max first input.buffer.size) :
    (ofText text).slice first past = input.slice first past := by
  have htext : (ofText text).buffer.toList = text.toList := by simp [ofText]
  rw [← String.toList_inj, toList_slice, toList_slice, htext]
  rcases hthere with hended | hthere
  · rw [hadmits.ended hended]
  · obtain ⟨rest, hrest⟩ := hadmits.received
    by_cases hempty : past ≤ first
    · rw [Nat.sub_eq_zero_of_le hempty, List.take_zero, List.take_zero]
    · have hsize : input.buffer.toList.length = input.buffer.size := Array.length_toList
      have hfirst : first ≤ input.buffer.toList.length := by omega
      have hpast : past - first ≤ (input.buffer.toList.drop first).length := by
        rw [List.length_drop]
        omega
      rw [← hrest, List.drop_append_of_le_length hfirst,
        List.take_append_of_le_length hpast]

end Admits

end Input

/-- Two ways to read agree at an input. -/
structure Agrees (text : String) (reading : Input π → α × Input π)
    (whole : Input Silence → α × Input Silence) (input : Input π) : Prop where
  grows : input.GrowsTo (reading input).2
  /-- Where the first leaves an input that admits the text, the second has the same answer
  over the complete text. -/
  answers : ∀ {answer later}, reading input = (answer, later) → later.Admits text →
    whole (Input.ofText text) = (answer, Input.ofText text)

namespace Agrees

variable {text : String} {reading : Input π → α × Input π}
  {whole : Input Silence → α × Input Silence} {input : Input π}

theorem after (hagrees : Agrees text reading whole input) {answer : α} {later : Input π}
    (hanswer : reading input = (answer, later)) : input.GrowsTo later := by
  have hgrows := hagrees.grows
  rwa [hanswer] at hgrows

/-- An answer that depends on nothing. -/
theorem done (answer : α) (input : Input π) :
    Agrees text (fun input => (answer, input)) (fun input => (answer, input)) input where
  grows := .refl input
  answers := by
    intro given later hanswer hadmits
    cases hanswer
    rfl

/-- Reading that begins with a step agrees if the step does, and what comes then does on
the input that the step has left. -/
theorem chain {step : Input π → β × Input π} {stepWhole : Input Silence → β × Input Silence}
    {rest : Input π → α × Input π} {restWhole : Input Silence → α × Input Silence}
    {answer : β} {between : Input π} (hstep : Agrees text step stepWhole input)
    (hanswer : step input = (answer, between)) (hrest : Agrees text rest restWhole between)
    (hreading : reading input = rest between)
    (hwhole : stepWhole (Input.ofText text) = (answer, Input.ofText text) →
      whole (Input.ofText text) = restWhole (Input.ofText text)) :
    Agrees text reading whole input where
  grows := by
    rw [hreading]
    exact (hstep.after hanswer).trans hrest.grows
  answers := by
    intro given later hgiven hadmits
    rw [hreading] at hgiven
    have hbetween := (hrest.after hgiven).admits hadmits
    rw [hwhole (hstep.answers hanswer hbetween)]
    exact hrest.answers hgiven hadmits

/-- An answer worked out from that of a step. -/
theorem map (hagrees : Agrees text reading whole input) (make : α → β) :
    Agrees text (fun input => (make (reading input).1, (reading input).2))
      (fun input => (make (whole input).1, (whole input).2)) input := by
  rcases hanswer : reading input with ⟨answer, between⟩
  refine hagrees.chain hanswer (.done (make answer) between) ?_ ?_
  · rw [hanswer]
  · intro hwhole
    rw [hwhole]

end Agrees

variable {text : String}

theorem agrees_charAt (offset : Nat) (input : Input π) :
    Agrees text (Input.charAt offset) (Input.charAt offset) input where
  grows := growing_charAt offset input
  answers := by
    intro answer later hanswer hadmits
    cases hanswer
    rw [Input.charAt_ofText, hadmits.getElem?_fill]

theorem agrees_has (offset : Nat) (input : Input π) :
    Agrees text (Input.has offset) (Input.has offset) input :=
  (agrees_charAt offset input).map Option.isSome

theorem agrees_isEnd (offset : Nat) (input : Input π) :
    Agrees text (Input.isEnd offset) (Input.isEnd offset) input :=
  (agrees_charAt offset input).map Option.isNone

theorem agrees_startsWith (offset : Nat) (expected : List Char) (input : Input π) :
    Agrees text (Input.startsWith offset expected) (Input.startsWith offset expected)
      input := by
  induction expected generalizing offset input with
  | nil => exact .done true input
  | cons first rest ih =>
      rcases hasked : input.charAt offset with ⟨_ | c, next⟩
      · refine (agrees_charAt offset input).chain hasked (.done false next) ?_ ?_
        · rw [Input.startsWith, hasked]
        · intro hwhole
          rw [Input.startsWith, hwhole]
      · by_cases same : c = first
        · refine (agrees_charAt offset input).chain hasked (ih (offset + 1) next) ?_ ?_
          · simp only [Input.startsWith, hasked, same, if_true]
          · intro hwhole
            simp only [Input.startsWith, hwhole, same, if_true]
        · refine (agrees_charAt offset input).chain hasked (.done false next) ?_ ?_
          · simp only [Input.startsWith, hasked, same, if_false]
          · intro hwhole
            simp only [Input.startsWith, hwhole, same, if_false]

theorem agrees_advance (place : Position) (count : Nat) (input : Input π) :
    Agrees text (place.advance count) (place.advance count) input := by
  induction count generalizing place input with
  | zero => exact .done place input
  | succ count ih =>
      rcases hasked : input.charAt place.offset with ⟨_ | c, next⟩
      · let beyond : Position := { place with offset := place.offset + (count + 1) }
        refine (agrees_charAt place.offset input).chain hasked (.done beyond next) ?_ ?_
        · rw [Position.advance, hasked]
        · intro hwhole
          rw [Position.advance, hwhole]
      · refine (agrees_charAt place.offset input).chain hasked (ih (place.step c) next) ?_ ?_
        · rw [Position.advance, hasked]
        · intro hwhole
          rw [Position.advance, hwhole]

/-- What has been advanced over has been received, unless the input has ended. -/
theorem received_of_advance {place stop : Position} {count : Nat} {input next : Input π}
    (hstop : place.advance count input = (stop, next)) :
    next.finished = true ∨ stop.offset ≤ max place.offset next.buffer.size := by
  induction count generalizing place input with
  | zero =>
      cases hstop
      exact .inr (Nat.le_max_left _ _)
  | succ count ih =>
      rw [Position.advance] at hstop
      rcases hasked : input.charAt place.offset with ⟨_ | c, between⟩
      · rw [hasked] at hstop
        cases hstop
        exact .inl (Input.finished_of_charAt hasked)
      · rw [hasked] at hstop
        rcases ih hstop with hended | hoffset
        · exact .inl hended
        · right
          have hthere := Input.lt_size_of_charAt hasked
          have hgrows := ((growing_advance _ _).after hstop).size_le
          rw [Position.offset_step] at hoffset
          omega

theorem agrees_capture (place : Position) (count : Nat) (input : Input π) :
    Agrees text (Token.capture place count) (Token.capture place count) input where
  grows := growing_capture place count input
  answers := by
    intro answer later hanswer hadmits
    rw [Token.capture] at hanswer ⊢
    rcases hstop : place.advance count input with ⟨stop, next⟩
    rw [hstop] at hanswer
    cases hanswer
    rw [(agrees_advance place count input).answers hstop hadmits]
    dsimp only
    rw [hadmits.slice_eq (received_of_advance hstop)]

/-! ## Scripts

A script fixes what will arrive, so there is one text that its inputs admit at any time. -/

/-- What the chunks of a script add up to. The first empty chunk ends it, like an absent
one. -/
def Script.contents : List (Option String) → List Char
  | [] => []
  | none :: _ => []
  | some content :: rest =>
      if content.toList = [] then [] else content.toList ++ contents rest

/-- The text that arrives in some chunks. -/
def Script.fullText (chunks : List (Option String)) : String :=
  String.ofList (contents chunks)

namespace Input

/-- What an input from a script has received and will receive, if it is asked for all. -/
def expectation (input : Input Script) : List Char :=
  if input.finished then input.buffer.toList
  else input.buffer.toList ++ Script.contents input.producer.pending

/-- A request takes a chunk from what is expected and adds it to what is received. -/
theorem expectation_request {input : Input Script} (hopen : input.finished = false) :
    input.request.expectation = input.expectation := by
  rcases input with ⟨buffer, finished, requests, ⟨pending, asked⟩⟩
  have hclosed : finished = false := hopen
  subst hclosed
  cases pending with
  | nil => simp [request, Producer.request, Script.request, expectation, Script.contents]
  | cons chunk rest =>
      cases chunk with
      | none => simp [request, Producer.request, Script.request, expectation, Script.contents]
      | some content =>
          by_cases hempty : content.toList = [] <;>
            simp [request, Producer.request, Script.request, expectation, Script.contents,
              hempty]

theorem GrowsTo.expectation_eq {input later : Input Script} (hgrows : input.GrowsTo later) :
    later.expectation = input.expectation := by
  induction hgrows with
  | refl input => rfl
  | request hopen hlater ih => rw [ih, expectation_request hopen]

theorem admits_expectation (input : Input Script) :
    input.Admits (String.ofList input.expectation) where
  received := by
    rw [String.toList_ofList, expectation]
    split
    · exact List.prefix_refl _
    · exact List.prefix_append _ _
  ended := by
    intro hended
    rw [String.toList_ofList, expectation, if_pos hended]

/-- However far an input from a script has been read, it admits the text of the script. -/
theorem GrowsTo.admits_fullText {chunks : List (Option String)} {later : Input Script}
    (hgrows : (ofProducer (Script.ofChunks chunks)).GrowsTo later) :
    later.Admits (Script.fullText chunks) := by
  have hadmits := later.admits_expectation
  rw [hgrows.expectation_eq] at hadmits
  simpa [expectation, ofProducer, Script.ofChunks, Script.fullText] using hadmits

end Input

end ScopedGrammar
