/-
# Promises of attempts

An attempt over a complete text upholds a promise if its result is as promised whenever it
matches, and if a halt is one of those that are excused. It may always miss. The ways to
combine attempts keep promises, so what a whole match promises follows from what its parts
do, and each use of this decides for itself which halts to excuse.
-/

import ScopedGrammar.Proofs.Match.Growth

namespace ScopedGrammar

variable {α β : Type} {text : String} {excused : Halt → Prop}

/-- A verdict upholds a promise: a result is as promised, and a halt is excused. -/
def Verdict.Upholds (excused : Halt → Prop) (promise : α → Prop) : Verdict α → Prop
  | .matched result => promise result
  | .missed => True
  | .halted reason => excused reason

/-- Over a complete text, an attempt upholds a promise. -/
def Attempt.Upholds (text : String) (excused : Halt → Prop) (attempt : Attempt Silence α)
    (promise : α → Prop) : Prop :=
  ∃ verdict : Verdict α, attempt (Input.ofText text) = (verdict, Input.ofText text) ∧
    verdict.Upholds excused promise

namespace Attempt.Upholds

variable {first : Attempt Silence α} {next : α → Attempt Silence β} {promise further : α → Prop}
  {last : β → Prop}

theorem succeed {result : α} (hresult : promise result) :
    Attempt.Upholds text excused (Attempt.succeed result) promise :=
  ⟨_, rfl, hresult⟩

theorem miss : Attempt.Upholds text excused Attempt.miss promise :=
  ⟨.missed, rfl, trivial⟩

theorem halt {reason : Halt} (hreason : excused reason) :
    Attempt.Upholds text excused (Attempt.halt reason) promise :=
  ⟨.halted reason, rfl, hreason⟩

theorem resolved {resolution : Except Defect α}
    (hresult : ∀ result, resolution = .ok result → promise result)
    (hdefect : ∀ defect, resolution = .error defect → excused (.defect defect)) :
    (Attempt.resolved resolution).Upholds text excused promise := by
  cases resolution with
  | ok result => exact succeed (hresult result rfl)
  | error defect => exact halt (hdefect defect rfl)

/-- A step on a complete text leaves it as it is. -/
theorem read {step : Input Silence → α × Input Silence} (hstep : Growing step) :
    (Attempt.read step).Upholds text excused fun _ => True :=
  ⟨_, Prod.ext rfl ((hstep (Input.ofText text)).settled rfl), trivial⟩

/-- What is known of every match may be promised. -/
theorem of_matched (hfirst : first.Upholds text excused promise)
    (hmatched : ∀ result, first (Input.ofText text) = (.matched result, Input.ofText text) →
      promise result → further result) : first.Upholds text excused further := by
  obtain ⟨verdict, hending, hkept⟩ := hfirst
  refine ⟨verdict, hending, ?_⟩
  cases verdict with
  | matched result => exact hmatched result hending hkept
  | missed => trivial
  | halted reason => exact hkept

theorem mono (hfirst : first.Upholds text excused promise)
    (hpromise : ∀ result, promise result → further result) :
    first.Upholds text excused further :=
  hfirst.of_matched fun result _ => hpromise result

theorem branch {matched : α → Attempt Silence β} {missed : Attempt Silence β}
    (hfirst : first.Upholds text excused promise)
    (hmatched : ∀ result, promise result → (matched result).Upholds text excused last)
    (hmissed : missed.Upholds text excused last) :
    (first.branch matched missed).Upholds text excused last := by
  obtain ⟨verdict, hending, hkept⟩ := hfirst
  unfold Attempt.Upholds Attempt.branch
  rw [hending]
  cases verdict with
  | matched result => exact hmatched result hkept
  | missed => exact hmissed
  | halted reason => exact halt hkept

theorem bind (hfirst : first.Upholds text excused promise)
    (hnext : ∀ result, promise result → (next result).Upholds text excused last) :
    (first >>= next).Upholds text excused last := by
  rw [Attempt.bind_eq_andThen, Attempt.andThen_eq_branch]
  exact hfirst.branch hnext miss

theorem orElse {second : Attempt Silence α} (hfirst : first.Upholds text excused promise)
    (hsecond : second.Upholds text excused promise) :
    (first.orElse second).Upholds text excused promise := by
  rw [Attempt.orElse_eq_branch]
  exact hfirst.branch (fun _ => succeed) hsecond

theorem absent (hfirst : first.Upholds text excused promise) :
    first.absent.Upholds text excused fun _ => True := by
  rw [Attempt.absent_eq_branch]
  exact hfirst.branch (fun _ _ => miss) (succeed trivial)

end Attempt.Upholds

end ScopedGrammar
