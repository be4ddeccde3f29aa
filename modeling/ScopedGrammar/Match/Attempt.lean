/-
# Attempts

An attempt to match ends in one of three ways. It succeeds with a result; it misses, and
the caller may try something else at the same place; or it halts, and nothing further is
tried. Attempts thread the input, because even a miss may have received more of it.
-/

import ScopedGrammar.Fault.Defect
import ScopedGrammar.Fault.Diagnostic

namespace ScopedGrammar

/-- Why matching stops for good. -/
inductive Halt where
  /-- The text does not fit the grammar. -/
  | diagnostic (diagnostic : Diagnostic)
  /-- The grammar is at fault. -/
  | defect (defect : Defect)
  /-- An offset, a line or a column would leave the unsigned word of 64 bits that holds it. -/
  | overflow
  /-- The number of nested steps granted to the match is used up. -/
  | exhausted

/-- How an attempt ends. -/
inductive Verdict (α : Type) where
  | matched (result : α)
  | missed
  | halted (reason : Halt)

/-- A step that reads input and ends with a verdict. -/
def Attempt (π α : Type) : Type :=
  Input π → Verdict α × Input π

namespace Attempt

variable {π α β : Type}

/-- The attempt that succeeds with a result and reads nothing. -/
def succeed (result : α) : Attempt π α :=
  fun input => (.matched result, input)

/-- The attempt that misses. -/
def miss : Attempt π α :=
  fun input => (.missed, input)

/-- The attempt that halts. -/
def halt (reason : Halt) : Attempt π α :=
  fun input => (.halted reason, input)

/-- One attempt and, after a success, the next. -/
def andThen (first : Attempt π α) (next : α → Attempt π β) : Attempt π β :=
  fun input =>
    match first input with
    | (.matched result, input) => next result input
    | (.missed, input) => (.missed, input)
    | (.halted reason, input) => (.halted reason, input)

instance : Monad (Attempt π) where
  pure := succeed
  bind := andThen

/-- One attempt and, after a miss, another. -/
def orElse (first second : Attempt π α) : Attempt π α :=
  fun input =>
    match first input with
    | (.missed, input) => second input
    | other => other

/-- The attempt that succeeds where another misses, and misses where it succeeds. -/
def absent (attempt : Attempt π α) : Attempt π Unit :=
  fun input =>
    match attempt input with
    | (.matched _, input) => (.missed, input)
    | (.missed, input) => (.matched (), input)
    | (.halted reason, input) => (.halted reason, input)

/-- A step on the input that always succeeds. -/
def read (step : Input π → α × Input π) : Attempt π α :=
  fun input =>
    let (result, next) := step input
    (.matched result, next)

/-- A resolved term, whose defect halts the match. -/
def resolved : Except Defect α → Attempt π α
  | .ok result => succeed result
  | .error defect => halt (.defect defect)

/-- The sequencing of attempts, as the notation for steps writes it. -/
theorem bind_eq_andThen (first : Attempt π α) (next : α → Attempt π β) :
    (first >>= next) = first.andThen next :=
  rfl

/-- The attempt that only succeeds, as the notation for steps writes it. -/
theorem pure_eq_succeed (result : α) : (pure result : Attempt π α) = succeed result :=
  rfl

/-- The attempt that only succeeds does so with its result. -/
theorem succeed_eq_matched_iff {input after : Input π} {given result : α} :
    succeed given input = (.matched result, after) ↔ given = result ∧ input = after := by
  simp [succeed]

/-- A step on the input succeeds with its answer. -/
theorem read_eq_matched_iff {step : Input π → α × Input π} {input after : Input π}
    {result : α} : read step input = (.matched result, after) ↔ step input = (result, after) := by
  simp [read, Prod.ext_iff]

/-- Two attempts in a row succeed exactly if both do. -/
theorem andThen_eq_matched_iff {first : Attempt π α} {next : α → Attempt π β}
    {input after : Input π} {result : β} :
    first.andThen next input = (.matched result, after) ↔
      ∃ middle between, first input = (.matched middle, between) ∧
        next middle between = (.matched result, after) := by
  unfold andThen
  rcases first input with ⟨_ | _ | _, between⟩ <;> simp [and_assoc]

/-- Two attempts in a row miss exactly if one of them does. -/
theorem andThen_eq_missed_iff {first : Attempt π α} {next : α → Attempt π β}
    {input after : Input π} :
    first.andThen next input = (.missed, after) ↔
      first input = (.missed, after) ∨
        ∃ middle between, first input = (.matched middle, between) ∧
          next middle between = (.missed, after) := by
  unfold andThen
  rcases first input with ⟨_ | _ | _, between⟩ <;> simp [and_assoc]

/-- Two attempts in a row halt exactly if one of them does. -/
theorem andThen_eq_halted_iff {first : Attempt π α} {next : α → Attempt π β}
    {input after : Input π} {reason : Halt} :
    first.andThen next input = (.halted reason, after) ↔
      first input = (.halted reason, after) ∨
        ∃ middle between, first input = (.matched middle, between) ∧
          next middle between = (.halted reason, after) := by
  unfold andThen
  rcases first input with ⟨_ | _ | _, between⟩ <;> simp [and_assoc]

/-- Of two alternatives the second counts only if the first misses. -/
theorem orElse_eq_iff {first second : Attempt π α} {input : Input π}
    {ending : Verdict α × Input π} :
    first.orElse second input = ending ↔
      (∃ between, first input = (.missed, between) ∧ second between = ending) ∨
        (first input = ending ∧ ∀ between, first input ≠ (.missed, between)) := by
  unfold orElse
  rcases first input with ⟨_ | _ | _, between⟩ <;> simp

/-- An absence succeeds exactly where the other attempt misses. -/
theorem absent_eq_matched_iff {attempt : Attempt π α} {input after : Input π} :
    attempt.absent input = (.matched (), after) ↔ attempt input = (.missed, after) := by
  unfold absent
  rcases attempt input with ⟨_ | _ | _, between⟩ <;> simp

/-- An absence misses exactly where the other attempt succeeds. -/
theorem absent_eq_missed_iff {attempt : Attempt π α} {input after : Input π} :
    attempt.absent input = (.missed, after) ↔
      ∃ result, attempt input = (.matched result, after) := by
  unfold absent
  rcases attempt input with ⟨_ | _ | _, between⟩ <;> simp

/-- A resolved term succeeds exactly with its result. -/
theorem resolved_eq_matched_iff {term : Except Defect α} {input after : Input π} {result : α} :
    resolved term input = (.matched result, after) ↔ term = .ok result ∧ input = after := by
  cases term <;> simp [resolved, succeed, halt]

end Attempt

end ScopedGrammar
