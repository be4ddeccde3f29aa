/-
# Diagnostics of what is still arriving

A parse may start in the middle of a text of which nothing has been received yet. The first
question that it asks fetches everything up to its start, and from then on it cannot be told
from a parse that had all of this from the beginning. But a diagnostic measures the bytes
before it on what has been received, and asks for the character at its position only then.
So there is one diagnostic that is measured wrongly: that of a demand which fails at the
start of the parse before anything was asked for. Its span starts at zero, and this is the
only way in which the result of a parse depends on how its text arrives.
-/

import ScopedGrammar.Proofs.Fault.Placement
import ScopedGrammar.Proofs.Match.Parallel

namespace ScopedGrammar

variable {π : Type} [Producer π]

namespace Input

/-- Filling up to one offset is no detour to a later one. -/
theorem fill_fill_of_le {first offset : Nat} (hle : first ≤ offset) (input : Input π) :
    (input.fill first).fill offset = input.fill offset := by
  fun_induction fill first input with
  | case1 input hwanting ih =>
      have hfurther : input.finished = false ∧ input.buffer.size ≤ offset :=
        ⟨hwanting.1, Nat.le_trans hwanting.2 hle⟩
      rw [ih]
      conv_rhs => rw [fill, if_pos hfurther]
  | case2 input hsatisfied => rfl

omit [Producer π] in
theorem slice_self (input : Input π) (offset : Nat) : input.slice offset offset = "" := by
  rw [slice, Array.extract_eq_empty_of_le (Nat.min_le_left _ _)]

omit [Producer π] in
/-- Before anything has been received, there is nothing to cut out. -/
theorem slice_of_nothing {input : Input π} (hnothing : input.buffer = #[]) (first past : Nat) :
    input.slice first past = "" := by
  rw [slice, hnothing, Array.extract_empty]

/-- What has grown and is still open has been asked for nothing, if it has received nothing
more. -/
theorem GrowsTo.eq_of_size {input later : Input π} (hgrows : input.GrowsTo later)
    (hopen : later.finished = false) (hsize : later.buffer.size = input.buffer.size) :
    later = input := by
  cases hgrows with
  | refl => rfl
  | request _ hlater =>
      rcases input.finished_or_size_lt_request with hended | hlonger
      · rw [hlater.settled hended, hended] at hopen
        cases hopen
      · have hkept := hlater.size_le
        omega

/-- An input from a script that has ended has received the whole text of the script. -/
theorem GrowsTo.size_eq_of_finished {chunks : List (Option String)} {later : Input Script}
    (hgrows : (ofProducer (Script.ofChunks chunks)).GrowsTo later)
    (hended : later.finished = true) : later.buffer.size = (Script.fullText chunks).length := by
  rw [← Array.length_toList, ← String.length_toList, hgrows.admits_fullText.ended hended]

/-- Two states of an input that started in one state: the same state, unless the first has
not been asked for anything yet and the second has been read ahead, up to an offset. -/
inductive ReadAhead (start : Input π) (origin : Nat) : Input π → Input π → Prop
  | unasked : ReadAhead start origin start (start.fill origin)
  | asked (input : Input π) : ReadAhead start origin input input

namespace ReadAhead

variable {start input other : Input π} {origin : Nat}

/-- A question from the offset on makes up for what the first was behind. -/
theorem charAt_eq (hahead : ReadAhead start origin input other) {offset : Nat}
    (hle : origin ≤ offset) : input.charAt offset = other.charAt offset := by
  cases hahead with
  | asked => rfl
  | unasked => rw [Input.charAt, Input.charAt, fill_fill_of_le hle]

theorem capture (hahead : ReadAhead start origin input other) {place : Position}
    (hle : origin ≤ place.offset) (count : Nat) :
    (Token.capture place count input).1 = (Token.capture place count other).1 ∧
      ReadAhead start origin (Token.capture place count input).2
        (Token.capture place count other).2 := by
  cases count with
  | zero =>
      -- Nothing is read for a token without characters, and nothing of the input is in it.
      simp only [Token.capture, Position.advance, slice_self]
      exact ⟨trivial, hahead⟩
  | succ count =>
      have hadvance : place.advance (count + 1) input = place.advance (count + 1) other := by
        rw [Position.advance, Position.advance, hahead.charAt_eq hle]
      rw [Token.capture, Token.capture, hadvance]
      exact ⟨rfl, .asked _⟩

theorem renderPieces (hahead : ReadAhead start origin input other) (scope : Scope)
    {place : Position} (hle : origin ≤ place.offset) (pieces : List Message.Piece) :
    (Message.renderPieces scope place pieces input).1 =
        (Message.renderPieces scope place pieces other).1 ∧
      ReadAhead start origin (Message.renderPieces scope place pieces input).2
        (Message.renderPieces scope place pieces other).2 := by
  induction pieces with
  | nil => exact ⟨rfl, hahead⟩
  | cons piece rest ih =>
      have hfirst : piece.render scope place input = piece.render scope place other ∨
          ∃ text, piece.render scope place input = (text, input) ∧
            piece.render scope place other = (text, other) := by
        cases piece with
        | found =>
            left
            rw [Message.Piece.render, Message.Piece.render, hahead.charAt_eq hle]
        | _ => exact .inr ⟨_, rfl, rfl⟩
      rw [Message.renderPieces, Message.renderPieces]
      rcases hfirst with hsame | ⟨text, hinput, hother⟩
      · rw [hsame]
        exact ⟨rfl, .asked _⟩
      · rw [hinput, hother]
        exact ⟨congrArg (text ++ ·) ih.1, ih.2⟩

end ReadAhead

end Input

/-- The diagnostic with its span at the start of the text. -/
def Diagnostic.unmeasured (diagnostic : Diagnostic) : Diagnostic :=
  { diagnostic with span := ⟨0, diagnostic.span.length⟩ }

theorem Diagnostic.unmeasured_eq_self {diagnostic : Diagnostic}
    (hfirst : diagnostic.span.first = 0) : diagnostic.unmeasured = diagnostic := by
  rw [unmeasured, ← hfirst]

/-- Two halts that are the same up to where the span of the second starts: that of the first
may start at zero instead. -/
inductive Halt.Measures : Halt → Halt → Prop
  | same (reason : Halt) : Measures reason reason
  | unmeasured (diagnostic : Diagnostic) :
      Measures (.diagnostic diagnostic.unmeasured) (.diagnostic diagnostic)

/-- Before anything has been received, a diagnostic is raised without its measure. -/
theorem Input.ReadAhead.measures_raise {start input other : Input π} {origin : Nat}
    (hahead : ReadAhead start origin input other) (hnothing : start.buffer = #[])
    (cause : Diagnostic.Cause) (message : String) {place : Position}
    (hle : origin ≤ place.offset) :
    Halt.Measures (.diagnostic (Diagnostic.raise cause message place input).1)
        (.diagnostic (Diagnostic.raise cause message place other).1) ∧
      ReadAhead start origin (Diagnostic.raise cause message place input).2
        (Diagnostic.raise cause message place other).2 := by
  cases hahead with
  | asked => exact ⟨.same _, .asked _⟩
  | unasked =>
      have hcharAt : start.charAt place.offset = (start.fill origin).charAt place.offset :=
        ReadAhead.unasked.charAt_eq hle
      have hraise : Diagnostic.raise cause message place start =
          ((Diagnostic.raise cause message place (start.fill origin)).1.unmeasured,
            (Diagnostic.raise cause message place (start.fill origin)).2) := by
        rw [raise_eq, raise_eq, Input.slice_of_nothing hnothing, hcharAt]
        rfl
      rw [hraise]
      exact ⟨.unmeasured _, .asked _⟩

/-- The accord of a match over an input with the match over the same input read ahead. -/
def Accord.readingAhead (start : Input π) (origin : Nat) : Accord π π :=
  .overInputs (Input.ReadAhead start origin)
    (fun place other => place = other ∧ origin ≤ place.offset) Halt.Measures fun _ => False

namespace Accord

variable {start : Input π} {origin : Nat}

theorem reads_readingAhead (start : Input π) (origin : Nat) :
    (readingAhead start origin).Reads := by
  refine reads_overInputs And.left (.same _) ?_ ?_
  · intro place input other hplace hahead ahead
    rw [hahead.charAt_eq (Nat.le_trans hplace.2 (Nat.le_add_right _ ahead))]
    exact ⟨rfl, .asked _⟩
  · intro place input other hplace hahead count
    obtain ⟨hsame, hafter⟩ := hahead.capture hplace.2 count
    refine ⟨hsame, ⟨congrArg Token.stop hsame, ?_⟩, hafter⟩
    rw [Token.capture, Position.offset_advance]
    omega

theorem scopes_readingAhead (hnothing : start.buffer = #[]) :
    (readingAhead start origin).Scopes := by
  refine scopes_overInputs And.left (fun _ => .same _) (.same _) ?_
  intro message scope place hplace
  refine complain_overInputs ?_ ?_
  · exact fun hahead => hahead.renderPieces scope hplace.2 message.pieces
  · exact fun hahead => hahead.measures_raise hnothing .expected _ hplace.2

end Accord

namespace Run

/-- The leading part of a parse comes to the same on an input that was read ahead up to the
start of the parse, but for the measure of a diagnostic. -/
theorem inStep_leadingPart (run : Run) (granted : Nat) {start : Input π}
    (hnothing : start.buffer = #[]) :
    (Accord.readingAhead start run.position.offset).InStep
      (fun reached other => reached = other ∧ run.position.offset ≤ reached.2.offset)
      (run.leadingPart granted) (run.leadingPart granted) := by
  unfold leadingPart
  cases run.scope.rule? run.start with
  | none => exact .halt (.same _)
  | some rule =>
      have hmatchers := Accord.matchers_overInputs
        (Accord.reads_readingAhead start run.position.offset)
        (Accord.scopes_readingAhead hnothing) granted
      refine .bind (hmatchers rfl rfl ⟨rfl, Nat.le_refl _⟩) ?_
      rintro success other ⟨hvalues, ⟨hplaces, hoffset⟩, -⟩
      exact .succeed ⟨Prod.ext hvalues hplaces, hoffset⟩

theorem leftOver_eq {start input other : Input π} {origin : Nat}
    (hahead : Input.ReadAhead start origin input other) {place : Position}
    (hle : origin ≤ place.offset) : leftOver place input = leftOver place other := by
  rw [leftOver, leftOver, Diagnostic.unconsumed, Diagnostic.unconsumed, hahead.charAt_eq hle]

/-- A parse has the result that it has on the input read ahead, unless its leading part has
raised a diagnostic without its measure. -/
theorem whole_eq_or_unmeasured (run : Run) (granted : Nat) (start : Input π)
    (hnothing : start.buffer = #[]) :
    (run.whole granted start).1 = (run.whole granted (start.fill run.position.offset)).1 ∨
      ∃ diagnostic after,
        run.leadingPart granted start = (.halted (.diagnostic diagnostic.unmeasured), after) ∧
        (run.whole granted start).1 = .error (.diagnostic diagnostic.unmeasured) ∧
        (run.whole granted (start.fill run.position.offset)).1 =
          .error (.diagnostic diagnostic) := by
  have hends := inStep_leadingPart run granted hnothing Input.ReadAhead.unasked
  unfold whole
  generalize run.leadingPart granted start = ending at hends ⊢
  generalize run.leadingPart granted (start.fill run.position.offset) = other at hends ⊢
  cases hends with
  | @matched reached _ input otherInput hresults hahead =>
      obtain ⟨value, place⟩ := reached
      obtain ⟨rfl, hle⟩ := hresults
      left
      dsimp only
      rw [Input.isEnd, Input.isEnd, Input.ReadAhead.charAt_eq hahead hle]
  | missed hahead =>
      left
      exact congrArg Prod.fst (leftOver_eq hahead (Nat.le_refl _))
  | halted hhalts _ =>
      cases hhalts with
      | same reason => exact .inl rfl
      | unmeasured diagnostic => exact .inr ⟨diagnostic, _, rfl, rfl, rfl⟩
  | excused hexcused => exact hexcused.elim
  | pardoned hpardoned => exact hpardoned.elim

end Run

/-- A demand whose span starts at zero was raised where matching began, and unless this is
the start of the text, nothing had been received by then: there would be bytes to count. -/
theorem Demanded.at_start {diagnostic : Diagnostic} {here : Spot π} {after : Input π}
    (hdemanded : Demanded diagnostic here after) (hfirst : diagnostic.span.first = 0) :
    diagnostic.position = here.position ∧
      ∃ message between, here.input.GrowsTo between ∧
        (here.position.offset = 0 ∨ between.buffer.size = 0) ∧
        Diagnostic.expected message here.position between = (diagnostic, after) := by
  obtain ⟨place, message, between, hgrows, hleads, hraised⟩ := hdemanded
  have hsame := hraised
  rw [Diagnostic.expected, raise_eq] at hsame
  cases hsame
  have hsize : place.offset = 0 ∨ between.buffer.size = 0 := by
    have hslice : (between.slice 0 place.offset).toList = [] := by
      rw [String.utf8ByteSize_eq_zero_iff.mp hfirst]
      rfl
    rw [Input.toList_slice, List.drop_zero, Nat.sub_zero, List.take_eq_nil_iff] at hslice
    exact hslice.imp_right fun hnil => by rw [← Array.length_toList, hnil, List.length_nil]
  have hbound := hleads.offset_le_max
  have hfrom := hleads.offset_le
  rw [Array.length_toList] at hbound
  have hplace : place = here.position := by
    have hstays : place.offset - here.position.offset = 0 := by omega
    rw [hleads.eq_past, hstays]
    rfl
  subst hplace
  exact ⟨rfl, message, between, hgrows, hsize, hraised⟩

/-- Whether the span of a diagnostic starts after the bytes of the text before it. -/
def Diagnostic.MeasuredOn (diagnostic : Diagnostic) (text : String) : Prop :=
  diagnostic.span.first =
    (String.ofList (text.toList.take diagnostic.position.offset)).utf8ByteSize

/-- Away from the start of a text there are bytes before a position. -/
theorem Diagnostic.MeasuredOn.first_pos {diagnostic : Diagnostic} {text : String}
    (hmeasured : diagnostic.MeasuredOn text) (hoffset : 0 < diagnostic.position.offset)
    (htext : 0 < text.length) : 0 < diagnostic.span.first := by
  refine Nat.pos_of_ne_zero fun hzero => ?_
  have hempty := String.utf8ByteSize_eq_zero_iff.mp (hmeasured.symm.trans hzero)
  rw [String.ofList_eq_empty_iff, List.take_eq_nil_iff, ← List.length_eq_zero_iff,
    String.length_toList] at hempty
  omega

theorem measuredOn_raise_ofText (cause : Diagnostic.Cause) (message : String) (place : Position)
    (text : String) :
    (Diagnostic.raise cause message place (Input.ofText text)).1.MeasuredOn text := by
  rw [raise_eq, Input.slice_ofText]
  rfl

namespace Run

variable {text : String} {diagnostic : Diagnostic}

theorem measuredOn_of_leftOver {place : Position}
    (hleft : (leftOver place (Input.ofText text)).1 = .error (.diagnostic diagnostic)) :
    diagnostic.MeasuredOn text := by
  rw [leftOver, Diagnostic.unconsumed, Input.charAt_ofText] at hleft
  cases hfound : text.toList[place.offset]? with
  | none =>
      simp only [hfound, Except.error.injEq, Halt.diagnostic.injEq] at hleft
      exact hleft ▸ measuredOn_raise_ofText _ _ place text
  | some c =>
      simp only [hfound, Except.error.injEq, Halt.diagnostic.injEq] at hleft
      exact hleft ▸ measuredOn_raise_ofText _ _ place text

/-- Over a complete text every diagnostic of a parse is measured. -/
theorem measuredOn_of_whole {run : Run} {granted : Nat}
    (hinside : run.position.offset ≤ text.length)
    (hwhole : (run.whole granted (Input.ofText text)).1 = .error (.diagnostic diagnostic)) :
    diagnostic.MeasuredOn text := by
  have hagrees : Agrees text (run.leadingPart granted) (run.leadingPart granted)
      (Input.ofText text) :=
    run.agrees_leadingPart granted (by simpa [Input.ofText, String.length_toList] using hinside)
  unfold whole at hwhole
  split at hwhole
  next reason after hhalted =>
    cases hwhole
    obtain ⟨place, message, between, hgrows, -, hraised⟩ := demanded_of_leadingPart hhalted
    have hsame : between = Input.ofText text := hgrows.settled rfl
    have hmeasured := measuredOn_raise_ofText .expected message place text
    rw [hsame, Diagnostic.expected] at hraised
    rwa [hraised] at hmeasured
  next after hmissed =>
    have hsame : after = Input.ofText text := (hagrees.after hmissed).settled rfl
    exact measuredOn_of_leftOver (hsame ▸ hwhole)
  next value place after hmatched =>
    have hsame : after = Input.ofText text := (hagrees.after hmatched).settled rfl
    rw [hsame, Input.isEnd, Input.charAt_ofText] at hwhole
    cases hfound : text.toList[place.offset]? with
    | none => simp [hfound] at hwhole
    | some c => exact measuredOn_of_leftOver (by simpa [hfound] using hwhole)

/-- A parse of chunks that were read ahead up to its start has the result of a parse of the
complete text. -/
theorem whole_fill_eq_whole_ofText (run : Run) (granted : Nat) {chunks : List (Option String)}
    (hinside : run.position.offset ≤ (Script.fullText chunks).length) :
    (run.whole granted
        ((Input.ofProducer (Script.ofChunks chunks)).fill run.position.offset)).1 =
      (run.whole granted (Input.ofText (Script.fullText chunks))).1 := by
  have hfilled :=
    Input.growsTo_fill run.position.offset (Input.ofProducer (Script.ofChunks chunks))
  have hreceived : run.position.offset ≤
      ((Input.ofProducer (Script.ofChunks chunks)).fill run.position.offset).buffer.size := by
    rcases Input.finished_or_lt_size_fill run.position.offset
      (Input.ofProducer (Script.ofChunks chunks)) with hended | hthere
    · rwa [hfilled.size_eq_of_finished hended]
    · exact Nat.le_of_lt hthere
  have hagrees : Agrees (Script.fullText chunks) (run.whole granted) (run.whole granted) _ :=
    run.agrees_whole granted hreceived
  exact congrArg Prod.fst
    (hagrees.answers rfl (hfilled.trans hagrees.grows).admits_fullText).symm

end Run

namespace Run

/-- The leading part of a parse has halted at a demand at its start, and the input was not
asked for anything before the diagnostic was raised. -/
def HaltsUnasked (run : Run) (granted : Nat) (start : Input π) : Prop :=
  ∃ message, run.leadingPart granted start =
    (.halted (.diagnostic (Diagnostic.expected message run.position start).1),
      (Diagnostic.expected message run.position start).2)

variable {run : Run} {granted : Nat} {chunks : List (Option String)}

/-- As long as nothing of a text that is not empty has been received, nothing was asked. -/
theorem eq_start_of_nothing_received {between : Input Script}
    (hgrows : (Input.ofProducer (Script.ofChunks chunks)).GrowsTo between)
    (htext : 0 < (Script.fullText chunks).length) (hnothing : between.buffer.size = 0) :
    between = Input.ofProducer (Script.ofChunks chunks) := by
  cases hended : between.finished with
  | false => exact hgrows.eq_of_size hended hnothing
  | true =>
      have hall := hgrows.size_eq_of_finished hended
      omega

/-- A diagnostic without its measure, away from the start of the text, was raised before
anything was asked for. -/
theorem haltsUnasked_of_unmeasured {diagnostic : Diagnostic} {after : Input Script}
    (hhalted : run.leadingPart granted (Input.ofProducer (Script.ofChunks chunks)) =
      (.halted (.diagnostic diagnostic.unmeasured), after))
    (hpos : 0 < run.position.offset)
    (hinside : run.position.offset ≤ (Script.fullText chunks).length) :
    run.HaltsUnasked granted (Input.ofProducer (Script.ofChunks chunks)) := by
  obtain ⟨-, message, between, hgrows, hunread, hraised⟩ :=
    (demanded_of_leadingPart hhalted).at_start rfl
  have hnothing := hunread.resolve_left (Nat.ne_of_gt hpos)
  rw [eq_start_of_nothing_received hgrows (Nat.lt_of_lt_of_le hpos hinside) hnothing] at hraised
  exact ⟨message, by rw [hhalted, hraised]⟩

/-- A parse that halts in this way yields a diagnostic whose span starts at zero, as long as
nothing had been received. -/
theorem HaltsUnasked.exists_unmeasured {start : Input π}
    (hunasked : run.HaltsUnasked granted start) (hnothing : start.buffer = #[]) :
    ∃ diagnostic, (run.whole granted start).1 = .error (.diagnostic diagnostic) ∧
      diagnostic.position = run.position ∧ diagnostic.span.first = 0 := by
  obtain ⟨message, hhalted⟩ := hunasked
  refine ⟨(Diagnostic.expected message run.position start).1, by rw [whole, hhalted],
    Diagnostic.position_raise _ _ _ _, ?_⟩
  rw [Diagnostic.expected, raise_eq, Input.slice_of_nothing hnothing]
  rfl

/-- Both directions come down to where the span starts over the complete text: at zero if the
parse starts where the text does, and further on otherwise. -/
theorem arriving_ne_complete_iff
    (hinside : run.position.offset ≤ (Script.fullText chunks).length) :
    (run.whole granted (Input.ofProducer (Script.ofChunks chunks))).1 ≠
        (run.whole granted (Input.ofText (Script.fullText chunks))).1 ↔
      0 < run.position.offset ∧
        run.HaltsUnasked granted (Input.ofProducer (Script.ofChunks chunks)) := by
  constructor
  · intro hdiffer
    have hahead := run.whole_fill_eq_whole_ofText granted hinside
    rcases run.whole_eq_or_unmeasured granted (Input.ofProducer (Script.ofChunks chunks)) rfl with
      hsame | ⟨diagnostic, after, hhalted, harriving, hfilled⟩
    · exact absurd (hsame.trans hahead) hdiffer
    have hpos : 0 < run.position.offset := by
      refine Nat.pos_of_ne_zero fun hzero => hdiffer ?_
      -- At the start of the text there are no bytes to measure.
      have hcomplete := hahead.symm.trans hfilled
      have hmeasured := run.measuredOn_of_whole hinside hcomplete
      have hposition : diagnostic.position = run.position :=
        ((demanded_of_leadingPart hhalted).at_start rfl).1
      rw [Diagnostic.MeasuredOn, hposition, hzero] at hmeasured
      rw [harriving, hcomplete, Diagnostic.unmeasured_eq_self hmeasured]
    exact ⟨hpos, haltsUnasked_of_unmeasured hhalted hpos hinside⟩
  · rintro ⟨hpos, hunasked⟩ hsame
    obtain ⟨diagnostic, harriving, hposition, hfirst⟩ := hunasked.exists_unmeasured rfl
    have hmeasured := run.measuredOn_of_whole hinside (hsame.symm.trans harriving)
    have hbytes := hmeasured.first_pos (hposition ▸ hpos) (Nat.lt_of_lt_of_le hpos hinside)
    omega

end Run

/-- A parse that starts inside a text has the same result however the text arrives, up to
where the span of a diagnostic starts. Over the complete text it starts after the bytes that
stand before the position. Over chunks it starts there too, unless the parse starts further on
than the text does and halts at a demand before it has asked for anything; only then it starts
at zero instead. -/
theorem arriving_result_eq_or_unmeasured (run : Run) (granted : Nat)
    (chunks : List (Option String))
    (hinside : run.position.offset ≤ (Script.fullText chunks).length) :
    let start := Input.ofProducer (Script.ofChunks chunks)
    let complete := (run.whole granted (Input.ofText (Script.fullText chunks))).1
    let arriving := (run.whole granted start).1
    (∀ diagnostic, complete = .error (.diagnostic diagnostic) →
      diagnostic.span.first = (String.ofList
        ((Script.fullText chunks).toList.take diagnostic.position.offset)).utf8ByteSize) ∧
    (arriving = complete ∨
      ∃ diagnostic, complete = .error (.diagnostic diagnostic) ∧
        arriving = .error (.diagnostic { diagnostic with span := ⟨0, diagnostic.span.length⟩ })) ∧
    (arriving ≠ complete ↔ 0 < run.position.offset ∧ run.HaltsUnasked granted start) := by
  intro start complete arriving
  refine ⟨fun _ hcomplete => run.measuredOn_of_whole hinside hcomplete, ?_,
    Run.arriving_ne_complete_iff hinside⟩
  have hahead : (run.whole granted (start.fill run.position.offset)).1 = complete :=
    run.whole_fill_eq_whole_ofText granted hinside
  rcases run.whole_eq_or_unmeasured granted start rfl with
    hsame | ⟨diagnostic, after, -, harriving, hfilled⟩
  · exact .inl (hsame.trans hahead)
  · exact .inr ⟨diagnostic, hahead.symm.trans hfilled, harriving⟩

/-- A demand behind a character of two bytes, which arrives in a chunk of its own. The demand
looks at a character before it fails, so the bytes before it are counted. -/
theorem arriving_result_eq_or_unmeasured_behind_wide_character :
    let run := (Grammar.ofDefinitions
      [("start", .rule ((Pattern.literal "!").demand "no mark"))] "start").run.fromPosition
        ⟨1, 3, 2⟩
    let chunks := [some "é", some "xy"]
    let diagnostic : Diagnostic := ⟨.expected, "no mark", ⟨1, 3, 2⟩, ⟨3, 1⟩⟩
    run.position.offset ≤ (Script.fullText chunks).length ∧
      (run.whole 9 (Input.ofProducer (Script.ofChunks chunks))).1 =
        (run.whole 9 (Input.ofText (Script.fullText chunks))).1 ∧
      (run.whole 9 (Input.ofText (Script.fullText chunks))).1 =
        .error (.diagnostic diagnostic) ∧
      diagnostic.span.first =
        (String.ofList ((Script.fullText chunks).toList.take 2)).utf8ByteSize := by
  intro run chunks diagnostic
  have hinside : run.position.offset ≤ (Script.fullText chunks).length := by decide
  have hcomplete : (run.whole 9 (Input.ofText (Script.fullText chunks))).1 =
      .error (.diagnostic diagnostic) := by cbv
  have hasked : ¬ run.HaltsUnasked 9 (Input.ofProducer (Script.ofChunks chunks)) := by
    intro hunasked
    obtain ⟨given, harriving, -, hfirst⟩ := hunasked.exists_unmeasured rfl
    have hraised : (run.whole 9 (Input.ofProducer (Script.ofChunks chunks))).1 =
        .error (.diagnostic diagnostic) := by cbv
    cases harriving.symm.trans hraised
    cases hfirst
  obtain ⟨hmeasured, -, hdiffer⟩ := arriving_result_eq_or_unmeasured run 9 chunks hinside
  have hsame := not_ne_iff.mp fun hne => hasked (hdiffer.mp hne).2
  exact ⟨hinside, hsame, hcomplete, hmeasured diagnostic hcomplete⟩

/-- A demand that looks at nothing is measured too early: of the byte before it nothing has
been received. -/
theorem not_arriving_span_measured :
    ¬ ∀ (run : Run) (granted : Nat) (chunks : List (Option String)) (diagnostic : Diagnostic),
      run.position.offset ≤ (Script.fullText chunks).length →
      (run.whole granted (Input.ofProducer (Script.ofChunks chunks))).1 =
          .error (.diagnostic diagnostic) →
        diagnostic.span.first = (String.ofList
          ((Script.fullText chunks).toList.take diagnostic.position.offset)).utf8ByteSize := by
  intro hall
  have harriving :
      (((Grammar.ofDefinitions [("start", .rule ((Pattern.choice []).demand "boom"))]
        "start").run.fromPosition ⟨1, 2, 1⟩).whole 9
          (Input.ofProducer (Script.ofChunks [some "ab"]))).1 =
        .error (.diagnostic ⟨.expected, "boom", ⟨1, 2, 1⟩, ⟨0, 1⟩⟩) := by cbv
  exact absurd (hall _ 9 [some "ab"] _ (by decide) harriving) (by decide)

end ScopedGrammar
