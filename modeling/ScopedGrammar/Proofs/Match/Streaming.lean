/-
# Matching what arrives and matching what is there

A pattern may be matched while its input is still arriving. What it comes to is then what
it comes to over any complete text that the input admits afterwards: the same value,
position and scope, or a miss, or the same diagnostic. In particular it does not matter in
which chunks a text arrives, and a parse of what a producer sends has the result of a parse
of the text that was received from it.
-/

import ScopedGrammar.Grammar.Basic
import ScopedGrammar.Proofs.Match.Agreement
import Mathlib

namespace ScopedGrammar

variable {π : Type} [Producer π] {text : String}

namespace Run

theorem agrees_leftOver {place : Position} {input : Input π}
    (hplace : place.offset ≤ input.buffer.size) :
    Agrees text (leftOver place) (leftOver place) input :=
  (agrees_unconsumed hplace).map fun diagnostic => Except.error (Halt.diagnostic diagnostic)

/-- What a parse makes of a success: the value at the end of the input, and otherwise the
error that something is left over. -/
def conclude (value : Value) (place : Position) (input : Input π) :
    Except Halt Value × Input π :=
  match input.isEnd place.offset with
  | (true, last) => (.ok value, last)
  | (false, last) => leftOver place last

theorem agrees_conclude (value : Value) {place : Position} {input : Input π}
    (hplace : place.offset ≤ input.buffer.size) :
    Agrees text (conclude value place) (conclude value place) input := by
  have hasking : Agrees text (Input.isEnd place.offset) (Input.isEnd place.offset) input :=
    agrees_isEnd place.offset input
  rcases hasked : input.isEnd place.offset with ⟨_ | _, last⟩
  · have hlast := Nat.le_trans hplace (hasking.after hasked).size_le
    refine hasking.chain hasked (agrees_leftOver hlast) ?_ ?_
    · rw [conclude, hasked]
    · intro hwhole
      rw [conclude, hwhole]
  · refine hasking.chain hasked (.done (.ok value) last) ?_ ?_
    · rw [conclude, hasked]
    · intro hwhole
      rw [conclude, hwhole]

theorem agrees_leadingPart (run : Run) (granted : Nat) {input : Input π}
    (hplace : run.position.offset ≤ input.buffer.size) :
    Agrees text (run.leadingPart granted) (run.leadingPart granted) input := by
  unfold leadingPart
  cases run.scope.rule? run.start with
  | none => exact .halt _ input
  | some rule =>
      refine .bind ((streams_run text granted).agrees rule run.scope hplace) ?_
      exact fun matched next _ => .succeed _ next

theorem received_of_leadingPart (run : Run) (granted : Nat) {input next : Input π}
    {value : Value} {place : Position}
    (hmatched : run.leadingPart granted input = (.matched (value, place), next))
    (hplace : run.position.offset ≤ input.buffer.size) :
    place.offset ≤ next.buffer.size := by
  unfold leadingPart at hmatched
  cases hrule : run.scope.rule? run.start with
  | none =>
      rw [hrule] at hmatched
      cases hmatched
  | some rule =>
      simp only [hrule, Attempt.bind_eq_andThen, Attempt.pure_eq_succeed,
        Attempt.andThen_eq_matched_iff, Attempt.succeed_eq_matched_iff] at hmatched
      obtain ⟨matched, _, hrun, hresult, rfl⟩ := hmatched
      cases hresult
      exact (streams_run "" granted).received hrun hplace

theorem agrees_whole (run : Run) (granted : Nat) {input : Input π}
    (hplace : run.position.offset ≤ input.buffer.size) :
    Agrees text (run.whole granted) (run.whole granted) input := by
  have hleading : Agrees text (run.leadingPart granted) (run.leadingPart granted) input :=
    agrees_leadingPart run granted hplace
  rcases hending : run.leadingPart granted input with ⟨⟨value, place⟩ | _ | reason, next⟩
  · have hnext := received_of_leadingPart run granted hending hplace
    refine hleading.chain hending (agrees_conclude value hnext) ?_ ?_
    · rw [whole, hending]
      rfl
    · intro hwhole
      rw [whole, hwhole]
      rfl
  · have hnext := Nat.le_trans hplace (hleading.after hending).size_le
    refine hleading.chain hending (agrees_leftOver hnext) ?_ ?_
    · rw [whole, hending]
    · intro hwhole
      rw [whole, hwhole]
  · refine hleading.chain hending (.done (.error reason) next) ?_ ?_
    · rw [whole, hending]
    · intro hwhole
      rw [whole, hwhole]

end Run

omit [Producer π] in
/-- The start of an input is received before anything is. -/
theorem start_received (producer : π) :
    Position.start.offset ≤ (Input.ofProducer producer).buffer.size :=
  Nat.zero_le _

theorem agrees_run_of_producer (text : String) (granted : Nat) (pattern : Pattern)
    (scope : Scope) (producer : π) :
    Agrees text (pattern.run granted scope Position.start)
      (pattern.run granted scope Position.start) (Input.ofProducer producer) :=
  (streams_run text granted).agrees pattern scope (start_received producer)

theorem agrees_parse_of_producer (text : String) (granted : Nat) (grammar : Grammar)
    (producer : π) :
    Agrees text (grammar.run.whole granted) (grammar.run.whole granted)
      (Input.ofProducer producer) :=
  grammar.run.agrees_whole granted (start_received producer)

/-- Matching over an input that arrives comes to what matching over a complete text comes
to, for every text that the input admits afterwards. So it does not matter in which chunks
a text arrives, and a parse of an arriving input has the result of a parse of the text
that it has received. -/
theorem arriving_run_eq_complete_run (granted : Nat) (pattern : Pattern) (scope : Scope) :
    (∀ (producer : π) (text : String),
      (pattern.run granted scope Position.start (Input.ofProducer producer)).2.Admits text →
        pattern.run granted scope Position.start (Input.ofText text) =
          ((pattern.run granted scope Position.start (Input.ofProducer producer)).1,
            Input.ofText text)) ∧
    (∀ chunks : List (Option String),
      (pattern.run granted scope Position.start
          (Input.ofProducer (Script.ofChunks chunks))).1 =
        (pattern.run granted scope Position.start
          (Input.ofText (Script.fullText chunks))).1) ∧
    (∀ (grammar : Grammar) (producer : π),
      (grammar.parseProduced granted producer).result =
        grammar.parse granted (grammar.parseProduced granted producer).received) ∧
    (∀ (grammar : Grammar) (chunks : List (Option String)),
      (grammar.parseProduced granted (Script.ofChunks chunks)).result =
        grammar.parse granted (Script.fullText chunks)) := by
  refine ⟨?_, ?_, ?_, ?_⟩
  · intro producer text hadmits
    exact (agrees_run_of_producer text granted pattern scope producer).answers rfl hadmits
  · intro chunks
    have hagrees := agrees_run_of_producer (Script.fullText chunks) granted pattern scope
      (Script.ofChunks chunks)
    rw [hagrees.answers rfl hagrees.grows.admits_fullText]
  · intro grammar producer
    have hagrees := agrees_parse_of_producer
      (grammar.parseProduced granted producer).received granted grammar producer
    rw [Grammar.parse, hagrees.answers rfl (Input.admits_received _)]
    rfl
  · intro grammar chunks
    have hagrees := agrees_parse_of_producer (Script.fullText chunks) granted grammar
      (Script.ofChunks chunks)
    rw [Grammar.parse, hagrees.answers rfl hagrees.grows.admits_fullText]
    rfl

/-- A first option that fails late, so that the second goes back over what has arrived, and
a demand that is not met. The third chunk is never asked for, so the text may go on in any
way. -/
theorem arriving_run_eq_complete_run_after_two_chunks :
    let pattern := ((Pattern.literal "ab").andThen (.literal "cx")).orElse
      ((Pattern.literal "abc").andThen ((Pattern.literal "\t").demand "tab"))
    let script := Script.ofChunks [some "ab", some "cé", some "more"]
    let ending := pattern.run 9 Scope.empty Position.start (Input.ofProducer script)
    let diagnostic : Diagnostic := ⟨.expected, "tab", ⟨1, 4, 3⟩, ⟨3, 2⟩⟩
    ending.2.Admits "abcé, or so" ∧
      pattern.run 9 Scope.empty Position.start (Input.ofText "abcé, or so") =
        (.halted (.diagnostic diagnostic), Input.ofText "abcé, or so") := by
  intro pattern script ending diagnostic
  have hending : pattern.run 9 Scope.empty Position.start (Input.ofProducer script) =
      (.halted (.diagnostic diagnostic),
        ⟨#['a', 'b', 'c', 'é'], false, 2, ⟨[some "more"], #[.primary, .continuation]⟩⟩) := by
    cbv
  have hadmits : ending.2.Admits "abcé, or so" := by
    show (pattern.run 9 Scope.empty Position.start (Input.ofProducer script)).2.Admits _
    rw [hending]
    exact ⟨by decide, by decide⟩
  refine ⟨hadmits, ?_⟩
  rw [(arriving_run_eq_complete_run 9 pattern Scope.empty).1 script _ hadmits, hending]

end ScopedGrammar
