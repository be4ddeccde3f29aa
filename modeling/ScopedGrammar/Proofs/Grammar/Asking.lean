/-
# Parses that ask for nothing

A parse of produced input comes to the same with more steps than it needs. Whether it asks its
producer for anything is up to the grammar. It has to in order to find the end of the input or
to raise a diagnostic, so a parse that comes to an end without a request has met a defect of
the grammar, and leaves the producer as it was.
-/

import ScopedGrammar.Proofs.Fault.Placement
import ScopedGrammar.Proofs.Match.Steps

namespace ScopedGrammar

variable {π : Type} [Producer π]

/-- A parse that has come to an end: to a value, a diagnostic or a defect. -/
def Transcript.Settled (transcript : Transcript π) : Prop :=
  ∀ reason, transcript.result = .error reason → reason ≠ .exhausted ∧ reason ≠ .overflow

namespace Run

variable {granted more : Nat}

theorem keptBy_leadingPart (run : Run) (hmore : granted ≤ more) :
    (run.leadingPart (π := π) granted).KeptBy (run.leadingPart more) := by
  unfold leadingPart
  cases run.scope.rule? run.start with
  | none => exact .refl _
  | some rule => exact .bind (keptBy_run_of_le hmore rule run.scope run.position) fun _ => .refl _

/-- A parse that does not run out of steps comes to the same with more of them. -/
theorem whole_of_le (run : Run) (hmore : granted ≤ more) {input : Input π}
    (hrun : (run.whole granted input).1 ≠ .error .exhausted) :
    run.whole more input = run.whole granted input := by
  have hkept := run.keptBy_leadingPart hmore input
  rcases hending : run.leadingPart granted input with ⟨⟨value, place⟩ | _ | reason, next⟩ <;>
    rw [hending] at hkept
  · simp only [whole, hending, hkept rfl]
  · simp only [whole, hending, hkept rfl]
  · have hreason : reason.isExhausted = false := by
      cases reason with
      | exhausted => simp [whole, hending] at hrun
      | _ => rfl
    simp only [whole, hending, hkept hreason]

end Run

namespace Grammar

variable {grammar : Grammar} {granted more : Nat} {producer : π}

theorem parseProduced_of_le (hsettled : (grammar.parseProduced granted producer).Settled)
    (hmore : granted ≤ more) :
    grammar.parseProduced more producer = grammar.parseProduced granted producer := by
  have hrun : (grammar.run.whole granted (Input.ofProducer producer)).1 ≠ .error .exhausted :=
    fun hexhausted => (hsettled _ hexhausted).1 rfl
  rw [parseProduced, grammar.run.whole_of_le hmore hrun]
  rfl

/-- There is one transcript that a parse comes to. -/
theorem parseProduced_eq_of_settled
    (hsettled : (grammar.parseProduced granted producer).Settled)
    (hother : (grammar.parseProduced more producer).Settled) :
    grammar.parseProduced granted producer = grammar.parseProduced more producer := by
  rw [← parseProduced_of_le hsettled (Nat.le_max_left granted more),
    parseProduced_of_le hother (Nat.le_max_right granted more)]

end Grammar

/-- An input that has asked its producer: it has ended, or has received something. -/
def Input.Asked (input : Input π) : Prop :=
  input.finished = true ∨ 0 < input.buffer.size

omit [Producer π] in
theorem not_asked_ofProducer (producer : π) : ¬ (Input.ofProducer producer).Asked := by
  rintro (hfinished | hsize)
  · cases hfinished
  · exact Nat.lt_irrefl 0 hsize

theorem asked_charAt (offset : Nat) (input : Input π) : (input.charAt offset).2.Asked :=
  (Input.finished_or_lt_size_fill offset input).imp_right (Nat.zero_lt_of_lt ·)

theorem asked_raise (cause : Diagnostic.Cause) (message : String) (place : Position)
    (input : Input π) : (Diagnostic.raise cause message place input).2.Asked := by
  have hasked := asked_charAt place.offset input
  rw [Diagnostic.raise]
  rcases hanswer : input.charAt place.offset with ⟨_ | c, next⟩ <;>
    rwa [hanswer] at hasked

theorem asked_leftOver (place : Position) (input : Input π) :
    (Run.leftOver place input).2.Asked := by
  rw [Run.leftOver, Diagnostic.unconsumed]
  rcases input.charAt place.offset with ⟨_ | c, next⟩
  · exact asked_raise _ _ place next
  · exact asked_raise _ _ place next

/-- Where the leading part does not halt, an error of the parse is a diagnostic. -/
theorem Run.exists_diagnostic_of_error {run : Run} {granted : Nat} {input : Input π}
    {reason : Halt}
    (hleading : ∀ halt next, run.leadingPart granted input ≠ (.halted halt, next))
    (herror : (run.whole granted input).1 = .error reason) :
    ∃ diagnostic, reason = .diagnostic diagnostic := by
  rcases hending : run.leadingPart granted input with ⟨⟨value, place⟩ | _ | halt, next⟩
  · simp only [whole, hending] at herror
    rcases hanswer : next.isEnd place.offset with ⟨_ | _, last⟩ <;>
      rw [hanswer] at herror <;> cases herror
    exact ⟨_, rfl⟩
  · simp only [whole, hending] at herror
    cases herror
    exact ⟨_, rfl⟩
  · exact absurd hending (hleading halt next)

namespace Grammar

variable {grammar : Grammar} {granted : Nat} {producer : π}

/-- A parse that has asked for nothing has halted, and not with a diagnostic. -/
theorem exists_halt_of_not_asked {input : Input π}
    (hasked : ¬ (grammar.run.whole granted input).2.Asked) :
    ∃ reason, (grammar.run.whole granted input).1 = .error reason ∧
      ∀ diagnostic, reason ≠ .diagnostic diagnostic := by
  rcases hending : grammar.run.leadingPart granted input with
    ⟨⟨value, place⟩ | _ | reason, next⟩ <;>
    simp only [Run.whole, hending] at hasked ⊢
  · refine absurd ?_ hasked
    have hend : (next.isEnd place.offset).2.Asked := asked_charAt place.offset next
    rcases hanswer : next.isEnd place.offset with ⟨_ | _, last⟩
    · exact asked_leftOver place last
    · rwa [hanswer] at hend
  · exact absurd (asked_leftOver _ next) hasked
  · refine ⟨reason, rfl, fun diagnostic hreason => ?_⟩
    subst hreason
    obtain ⟨place, message, between, -, -, hraised⟩ := Run.demanded_of_leadingPart hending
    have hthere : (Diagnostic.expected message place between).2.Asked := asked_raise _ _ _ _
    rw [hraised] at hthere
    exact hasked hthere

/-- A parse without a request leaves its producer as it is, and has received nothing. -/
theorem parseProduced_of_no_request
    (hrequests : (grammar.parseProduced granted producer).requests = 0) :
    grammar.parseProduced granted producer =
      ⟨(grammar.parseProduced granted producer).result, "", 0, producer⟩ := by
  have hgrows := (agrees_parse_of_producer "" granted grammar producer).grows
  have hsame := hgrows.eq_of_requests hrequests
  have hparse : grammar.parseProduced granted producer =
      ⟨(grammar.parseProduced granted producer).result,
        (grammar.run.whole granted (Input.ofProducer producer)).2.received,
        (grammar.run.whole granted (Input.ofProducer producer)).2.requests,
        (grammar.run.whole granted (Input.ofProducer producer)).2.producer⟩ := rfl
  rw [hsame] at hparse
  exact hparse

/-- A parse that comes to an end without a request has met a defect of the grammar. -/
theorem defect_of_no_request (hsettled : (grammar.parseProduced granted producer).Settled)
    (hrequests : (grammar.parseProduced granted producer).requests = 0) :
    ∃ defect, grammar.parseProduced granted producer =
      ⟨.error (.defect defect), "", 0, producer⟩ := by
  have hgrows := (agrees_parse_of_producer "" granted grammar producer).grows
  have hsame := hgrows.eq_of_requests hrequests
  obtain ⟨reason, hresult, hother⟩ := exists_halt_of_not_asked
    (hsame ▸ not_asked_ofProducer producer)
  have hreason : (grammar.parseProduced granted producer).result = .error reason := hresult
  rw [parseProduced_of_no_request hrequests, hreason]
  cases reason with
  | defect defect => exact ⟨defect, rfl⟩
  | diagnostic diagnostic => exact absurd rfl (hother diagnostic)
  | overflow => exact absurd rfl (hsettled _ hreason).2
  | exhausted => exact absurd rfl (hsettled _ hreason).1

end Grammar

end ScopedGrammar
