/-
# Granting more steps

The number of steps granted to a match bounds how deep it goes and how often it repeats,
and nothing else depends on it. A match that does not run out of steps comes to the same
with more of them. So what a pattern comes to can be told without a number of steps, as
what it comes to with enough of them.

One attempt is kept by another if the second comes to whatever the first comes to, short
of running out. Running out is never taken for a miss, so the ways to combine attempts keep
this relation.
-/

import ScopedGrammar.Pattern.Build
import ScopedGrammar.Proofs.Match.Growth

namespace ScopedGrammar

variable {π α β : Type}

/-- Whether a match has halted because it ran out of steps. -/
def Halt.isExhausted : Halt → Bool
  | .exhausted => true
  | _ => false

/-- Whether an attempt has run out of steps. -/
def Verdict.isExhausted : Verdict α → Bool
  | .halted reason => reason.isExhausted
  | _ => false

namespace Attempt

/-- One attempt comes to whatever the other comes to, unless that runs out of steps. -/
def KeptBy (attempt longer : Attempt π α) : Prop :=
  ∀ input : Input π, (attempt input).1.isExhausted = false → longer input = attempt input

namespace KeptBy

theorem refl (attempt : Attempt π α) : attempt.KeptBy attempt :=
  fun _ _ => rfl

theorem exhausted (longer : Attempt π α) : KeptBy (Attempt.halt .exhausted) longer := by
  intro input hrun
  cases hrun

theorem branch {attempt longer : Attempt π α} {matched matchedLonger : α → Attempt π β}
    {missed missedLonger : Attempt π β} (hattempt : attempt.KeptBy longer)
    (hmatched : ∀ result, (matched result).KeptBy (matchedLonger result))
    (hmissed : missed.KeptBy missedLonger) :
    (attempt.branch matched missed).KeptBy (longer.branch matchedLonger missedLonger) := by
  intro input hrun
  have hfirst := hattempt input
  unfold Attempt.branch at hrun ⊢
  rcases hending : attempt input with ⟨result | _ | reason, between⟩
  · rw [hending] at hfirst hrun
    rw [hfirst rfl]
    exact hmatched result between hrun
  · rw [hending] at hfirst hrun
    rw [hfirst rfl]
    exact hmissed between hrun
  · rw [hending] at hfirst hrun
    rw [hfirst hrun]

theorem bind {first firstLonger : Attempt π α} {next nextLonger : α → Attempt π β}
    (hfirst : first.KeptBy firstLonger)
    (hnext : ∀ result, (next result).KeptBy (nextLonger result)) :
    KeptBy (first >>= next) (firstLonger >>= nextLonger) := by
  rw [bind_eq_andThen, bind_eq_andThen, andThen_eq_branch, andThen_eq_branch]
  exact hfirst.branch hnext (.refl _)

theorem orElse {first firstLonger second secondLonger : Attempt π α}
    (hfirst : first.KeptBy firstLonger) (hsecond : second.KeptBy secondLonger) :
    (first.orElse second).KeptBy (firstLonger.orElse secondLonger) := by
  rw [orElse_eq_branch, orElse_eq_branch]
  exact hfirst.branch (fun _ => .refl _) hsecond

theorem absent {attempt longer : Attempt π α} (hattempt : attempt.KeptBy longer) :
    attempt.absent.KeptBy longer.absent := by
  rw [absent_eq_branch, absent_eq_branch]
  exact hattempt.branch (fun _ => .refl _) (.refl _)

end KeptBy

end Attempt

namespace Match

open Attempt

/-- One matcher comes to whatever the other comes to, unless that runs out of steps. -/
def KeptBy (matcher longer : Matcher π) : Prop :=
  ∀ pattern scope place, (matcher pattern scope place).KeptBy (longer pattern scope place)

variable {matcher longer : Matcher π}

theorem keptBy_allOf (hmatcher : KeptBy matcher longer) (parts : List Pattern)
    (scope : Scope) (place : Position) :
    (allOf matcher parts scope place).KeptBy (allOf longer parts scope place) := by
  induction parts generalizing scope place with
  | nil => exact .refl _
  | cons part rest ih =>
      exact .bind (hmatcher part scope place) fun first =>
        .bind (ih first.scope first.position) fun _ => .refl _

theorem keptBy_firstOf (hmatcher : KeptBy matcher longer) (options : List Pattern)
    (scope : Scope) (place : Position) :
    (firstOf matcher options scope place).KeptBy (firstOf longer options scope place) := by
  induction options with
  | nil => exact .refl _
  | cons option rest ih => exact .orElse (hmatcher option scope place) ih

theorem keptBy_beforePart (hmatcher : KeptBy matcher longer) (separator : Option Pattern)
    (tally : Tally) :
    (beforePart matcher separator tally).KeptBy (beforePart longer separator tally) := by
  cases separator with
  | none => exact .refl _
  | some between =>
      unfold beforePart
      dsimp only
      split
      · exact .refl _
      · exact .bind (hmatcher between tally.scope tally.position) fun _ => .refl _

theorem keptBy_round (hmatcher : KeptBy matcher longer) (part : Pattern)
    (separator : Option Pattern) (tally : Tally) :
    (round matcher part separator tally).KeptBy (round longer part separator tally) :=
  .bind (keptBy_beforePart hmatcher separator tally) fun ready =>
    .bind (hmatcher part ready.scope ready.position) fun _ => .refl _

theorem keptBy_rounds (hmatcher : KeptBy matcher longer) (part : Pattern)
    (separator : Option Pattern) (most : Option Nat) (granted : Nat) (tally : Tally) :
    Attempt.KeptBy (rounds matcher part separator most granted tally)
      (rounds longer part separator most (granted + 1) tally) := by
  induction granted generalizing tally with
  | zero => exact .exhausted _
  | succ granted ih =>
      rw [rounds_eq_branch, rounds_eq_branch longer]
      split
      · exact .refl _
      · refine .branch (keptBy_round hmatcher part separator tally) ?_ (.refl _)
        intro later
        by_cases hsame : later.position.samePlace tally.position = true
        · simp only [hsame, if_true]
          exact .refl (Attempt.succeed later)
        · simp only [hsame]
          exact ih later

theorem keptBy_repetition (hmatcher : KeptBy matcher longer) (granted : Nat)
    (part : Pattern) (separator : Option Pattern) (keepSeparators : Bool) (least : Nat)
    (most : Option Nat) (scope : Scope) (place : Position) :
    (repetition matcher granted part separator keepSeparators least most scope
      place).KeptBy
      (repetition longer (granted + 1) part separator keepSeparators least most scope
        place) :=
  .bind (keptBy_rounds hmatcher part separator most granted _) fun _ => .refl _

theorem keptBy_keepScope (scope : Scope) {attempt attemptLonger : Attempt π Match}
    (hattempt : attempt.KeptBy attemptLonger) :
    (keepScope scope attempt).KeptBy (keepScope scope attemptLonger) :=
  .bind hattempt fun _ => .refl _

variable [Producer π]

theorem keptBy_follow (hmatcher : KeptBy matcher longer) (term : Term) (scope : Scope)
    (place : Position) (binding : Binding) :
    (follow matcher term scope place binding).KeptBy
      (follow longer term scope place binding) := by
  cases binding with
  | rule pattern => exact keptBy_keepScope scope (hmatcher pattern scope place)
  | value content => exact .refl _

/-- One level of matching is kept if the matcher below it is. -/
theorem keptBy_form (hmatcher : KeptBy matcher longer) (granted : Nat) (shape : Form)
    (scope : Scope) (place : Position) :
    (form matcher granted shape scope place).KeptBy
      (form longer (granted + 1) shape scope place) := by
  cases shape with
  | literal term => exact .refl _
  | charClass members excluded => exact .refl _
  | choice options => exact keptBy_firstOf hmatcher options scope place
  | sequence parts picks =>
      exact .bind (keptBy_allOf hmatcher parts scope place) fun _ => .refl _
  | repetition part least most separator keepSeparators =>
      exact .bind (.refl _) fun _ =>
        keptBy_repetition hmatcher granted part separator keepSeparators _ _ scope place
  | absence inner width =>
      exact .bind (.absent (hmatcher inner scope place)) fun _ => .refl _
  | demand inner message => exact .orElse (hmatcher inner scope place) (.refl _)
  | capture inner name => exact .bind (hmatcher inner scope place) fun _ => .refl _
  | overlay inner bindings =>
      exact .bind (.refl _) fun frame =>
        keptBy_keepScope scope (hmatcher inner (scope.push frame) place)
  | reference term =>
      exact .bind (.refl _) fun binding => keptBy_follow hmatcher term scope place binding
  | finish => exact .refl _

end Match

variable [Producer π]

theorem keptBy_run_succ (granted : Nat) :
    Match.KeptBy (Pattern.run (π := π) granted) (Pattern.run (granted + 1)) := by
  induction granted with
  | zero => exact fun pattern scope place => .exhausted _
  | succ granted ih =>
      exact fun pattern scope place =>
        .bind (Match.keptBy_form ih granted pattern.form scope place) fun _ => .refl _

/-- A function on the result maps the value of a match. -/
theorem Pattern.run_map (granted : Nat) (pattern : Pattern) (make : Value → Value)
    (scope : Scope) (place : Position) :
    (pattern.map make).run (π := π) granted scope place =
      (pattern.run granted scope place >>= fun success =>
        Attempt.succeed { success with value := make success.value }) := by
  obtain ⟨shape, earlier, label⟩ := pattern
  cases granted with
  | zero => rfl
  | succ granted =>
      funext input
      cases earlier <;>
        simp only [map, run, form, finishValue, factory, Attempt.bind_eq_andThen,
          Attempt.pure_eq_succeed, Attempt.andThen] <;>
        rcases Match.form (run granted) granted shape scope place input with
          ⟨_ | _ | _, after⟩ <;>
        rfl

theorem keptBy_run_of_le {granted more : Nat} (hmore : granted ≤ more) :
    Match.KeptBy (Pattern.run (π := π) granted) (Pattern.run more) := by
  induction hmore with
  | refl => exact fun pattern scope place => .refl _
  | @step more _ ih =>
      intro pattern scope place input hrun
      have hmost := ih pattern scope place input hrun
      rw [← hmost] at hrun ⊢
      exact keptBy_run_succ more pattern scope place input hrun

end ScopedGrammar
