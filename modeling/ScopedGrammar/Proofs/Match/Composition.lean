/-
# What sums and alternatives mean

`first.andThen second` and `first.orElse second` make new patterns out of their operands,
which stay as they are. Which pattern they make depends on the left operand: an open
sequence is extended by one more part and an open choice by one more option, while
anything final, and a sequence with picks, is wrapped. What such a pattern comes to does
not depend on this. An alternative comes to what its left operand comes to, or to what its
right operand comes to where that misses. A sum comes to what its operands come to in a
row; only the value tells whether the left operand was extended, since then its items and
not its value are members.

A wrapped operand runs one step deeper than parts that were taken over, so the two sides
of each law need different numbers of steps. The laws are therefore about what a pattern
comes to with any number that is enough.
-/

import ScopedGrammar.Proofs.Match.Erasure
import ScopedGrammar.Proofs.Value.Shifted

namespace ScopedGrammar

variable {π α β γ : Type}

namespace Attempt

/-- Each attempt is kept by the next one. -/
def Rising (attempt : Nat → Attempt π α) : Prop :=
  ∀ granted, (attempt granted).KeptBy (attempt (granted + 1))

/-- How attempts with more and more steps end on an input once they do not run out. -/
def Settles (attempt : Nat → Attempt π α) (input : Input π) (ending : Verdict α × Input π) :
    Prop :=
  ending.1.isExhausted = false ∧ ∃ granted, attempt granted input = ending

/-- Attempts with more and more steps that end alike on every input. -/
def Alike (attempt other : Nat → Attempt π α) : Prop :=
  ∀ input ending, Settles attempt input ending ↔ Settles other input ending

variable {attempt : Nat → Attempt π α}

namespace Rising

theorem const (attempt : Attempt π α) : Rising fun _ => attempt :=
  fun _ => .refl attempt

theorem bind (hattempt : Rising attempt) {next : Nat → α → Attempt π β}
    (hnext : ∀ result, Rising fun granted => next granted result) :
    Rising fun granted => attempt granted >>= next granted :=
  fun granted => .bind (hattempt granted) fun result => hnext result granted

theorem kept_of_le (hattempt : Rising attempt) {granted more : Nat} (hmore : granted ≤ more) :
    (attempt granted).KeptBy (attempt more) := by
  induction hmore with
  | refl => exact .refl _
  | @step more _ ih =>
      intro input hrun
      have hsame := ih input hrun
      rw [← hsame] at hrun ⊢
      exact hattempt more input hrun

/-- Every number of steps from some number on is enough. -/
theorem eventually (hattempt : Rising attempt) {input : Input π}
    {ending : Verdict α × Input π} (hsettles : Settles attempt input ending) :
    ∃ enough, ∀ granted, enough ≤ granted → attempt granted input = ending := by
  obtain ⟨hending, enough, rfl⟩ := hsettles
  exact ⟨enough, fun granted hgranted => hattempt.kept_of_le hgranted input hending⟩

/-- There is at most one way to end. -/
theorem unique (hattempt : Rising attempt) {input : Input π}
    {ending other : Verdict α × Input π} (hsettles : Settles attempt input ending)
    (hother : Settles attempt input other) :
    ending = other := by
  obtain ⟨enough, henough⟩ := hattempt.eventually hsettles
  obtain ⟨further, hfurther⟩ := hattempt.eventually hother
  rw [← henough _ (Nat.le_max_left enough further),
    hfurther _ (Nat.le_max_right enough further)]

end Rising

/-- Where an attempt and what comes after it end: there, unless it halts. -/
theorem branch_apply (attempt : Attempt π α) (matched : α → Attempt π β) (missed : Attempt π β)
    (input : Input π) :
    attempt.branch matched missed input =
      match attempt input with
      | (.matched result, next) => matched result next
      | (.missed, next) => missed next
      | (.halted reason, next) => (.halted reason, next) :=
  rfl

/-- Attempts with others after them settle on what those do, unless they halt. -/
theorem settles_branch_iff (hattempt : Rising attempt) {matched : Nat → α → Attempt π β}
    {missed : Nat → Attempt π β}
    (hmatched : ∀ result, Rising fun granted => matched granted result)
    (hmissed : Rising missed) {input : Input π} {ending : Verdict β × Input π} :
    Settles (fun granted => (attempt granted).branch (matched granted) (missed granted))
        input ending ↔
      (∃ result between, Settles attempt input (.matched result, between) ∧
          Settles (fun granted => matched granted result) between ending) ∨
        (∃ between, Settles attempt input (.missed, between) ∧ Settles missed between ending) ∨
        ∃ reason between, Settles attempt input (.halted reason, between) ∧
          ending = (.halted reason, between) := by
  constructor
  · rintro ⟨hending, granted, hrun⟩
    change (attempt granted).branch (matched granted) (missed granted) input = ending at hrun
    rw [branch_apply] at hrun
    rcases hfirst : attempt granted input with ⟨result | _ | reason, between⟩ <;>
      rw [hfirst] at hrun
    · exact .inl ⟨result, between, ⟨rfl, granted, hfirst⟩, hending, granted, hrun⟩
    · exact .inr (.inl ⟨between, ⟨rfl, granted, hfirst⟩, hending, granted, hrun⟩)
    · subst hrun
      exact .inr (.inr ⟨reason, between, ⟨hending, granted, hfirst⟩, rfl⟩)
  · rintro (⟨result, between, hfirst, hnext⟩ | ⟨between, hfirst, hnext⟩ |
      ⟨reason, between, ⟨hreason, granted, hfirst⟩, rfl⟩)
    · obtain ⟨enough, henough⟩ := hattempt.eventually hfirst
      obtain ⟨further, hfurther⟩ := (hmatched result).eventually hnext
      refine ⟨hnext.1, max enough further, ?_⟩
      change (attempt _).branch _ _ input = ending
      rw [branch_apply, henough _ (Nat.le_max_left _ _)]
      exact hfurther _ (Nat.le_max_right _ _)
    · obtain ⟨enough, henough⟩ := hattempt.eventually hfirst
      obtain ⟨further, hfurther⟩ := hmissed.eventually hnext
      refine ⟨hnext.1, max enough further, ?_⟩
      change (attempt _).branch _ _ input = ending
      rw [branch_apply, henough _ (Nat.le_max_left _ _)]
      exact hfurther _ (Nat.le_max_right _ _)
    · refine ⟨hreason, granted, ?_⟩
      change (attempt granted).branch _ _ input = _
      rw [branch_apply, hfirst]

namespace Alike

variable {other third : Nat → Attempt π α}

theorem refl (attempt : Nat → Attempt π α) : Alike attempt attempt :=
  fun _ _ => .rfl

theorem symm (halike : Alike attempt other) : Alike other attempt :=
  fun input ending => (halike input ending).symm

theorem trans (halike : Alike attempt other) (hnext : Alike other third) :
    Alike attempt third :=
  fun input ending => (halike input ending).trans (hnext input ending)

/-- One more step makes no difference. -/
theorem succ (hattempt : Rising attempt) :
    Alike (fun granted => attempt (granted + 1)) attempt := by
  intro input ending
  constructor
  · rintro ⟨hending, granted, hrun⟩
    exact ⟨hending, granted + 1, hrun⟩
  · rintro ⟨hending, granted, rfl⟩
    exact ⟨hending, granted, hattempt granted input hending⟩

theorem branch (hattempt : Rising attempt) (hother : Rising other) (halike : Alike attempt other)
    {matched matchedOther : Nat → α → Attempt π β} {missed missedOther : Nat → Attempt π β}
    (hmatched : ∀ result, Rising fun granted => matched granted result)
    (hmatchedOther : ∀ result, Rising fun granted => matchedOther granted result)
    (hmissed : Rising missed) (hmissedOther : Rising missedOther)
    (hafter : ∀ result, Alike (fun granted => matched granted result)
      fun granted => matchedOther granted result)
    (hinstead : Alike missed missedOther) :
    Alike (fun granted => (attempt granted).branch (matched granted) (missed granted))
      fun granted => (other granted).branch (matchedOther granted) (missedOther granted) := by
  intro input ending
  rw [settles_branch_iff hattempt hmatched hmissed,
    settles_branch_iff hother hmatchedOther hmissedOther]
  simp only [halike input, hafter _ _ ending, hinstead _ ending]

theorem orElse (hattempt : Rising attempt) (hother : Rising other) (halike : Alike attempt other)
    {second secondOther : Nat → Attempt π α} (hsecond : Rising second)
    (hsecondOther : Rising secondOther) (hinstead : Alike second secondOther) :
    Alike (fun granted => (attempt granted).orElse (second granted))
      fun granted => (other granted).orElse (secondOther granted) := by
  simp only [orElse_eq_branch]
  exact halike.branch hattempt hother (fun result => .const (succeed result))
    (fun result => .const (succeed result)) hsecond hsecondOther
    (fun result => .refl fun _ => succeed result) hinstead

theorem bind (hattempt : Rising attempt) (hother : Rising other) (halike : Alike attempt other)
    {next nextOther : Nat → α → Attempt π β}
    (hnext : ∀ result, Rising fun granted => next granted result)
    (hnextOther : ∀ result, Rising fun granted => nextOther granted result)
    (hafter : ∀ result, Alike (fun granted => next granted result)
      fun granted => nextOther granted result) :
    Alike (fun granted => attempt granted >>= next granted)
      fun granted => other granted >>= nextOther granted := by
  simp only [bind_eq_andThen, andThen_eq_branch]
  exact halike.branch hattempt hother hnext hnextOther (.const miss) (.const miss) hafter
    (.refl fun _ => miss)

end Alike

end Attempt

/-- A verdict on something made out of the result. -/
def Verdict.map (make : α → β) : Verdict α → Verdict β
  | .matched result => .matched (make result)
  | .missed => .missed
  | .halted reason => .halted reason

namespace Attempt

/-- Attempts whose result is made into something settle on what it is made into. -/
theorem settles_bind_succeed_iff {attempt : Nat → Attempt π α} (hattempt : Rising attempt)
    {make : α → β} {input after : Input π} {verdict : Verdict β} :
    Settles (fun granted => attempt granted >>= fun result => succeed (make result)) input
        (verdict, after) ↔
      ∃ given : Verdict α, Settles attempt input (given, after) ∧ given.map make = verdict := by
  simp only [bind_eq_andThen, andThen_eq_branch]
  rw [settles_branch_iff hattempt (fun result => .const (succeed (make result))) (.const miss)]
  constructor
  · rintro (⟨result, between, hresult, -, _, hmade⟩ | ⟨between, hmissed, -, _, hmiss⟩ |
      ⟨reason, between, hreason, hhalt⟩)
    · cases hmade
      exact ⟨.matched result, hresult, rfl⟩
    · cases hmiss
      exact ⟨.missed, hmissed, rfl⟩
    · cases hhalt
      exact ⟨.halted reason, hreason, rfl⟩
  · rintro ⟨result | _ | reason, hgiven, rfl⟩
    · exact .inl ⟨result, after, hgiven, rfl, 0, rfl⟩
    · exact .inr (.inl ⟨after, hgiven, rfl, 0, rfl⟩)
    · exact .inr (.inr ⟨reason, after, hgiven, rfl⟩)

theorem bind_succeed (attempt : Attempt π α) : (attempt >>= succeed) = attempt := by
  funext input
  rw [bind_eq_andThen]
  unfold andThen
  rcases attempt input with ⟨_ | _ | _, between⟩ <;> rfl

theorem succeed_bind (result : α) (next : α → Attempt π β) :
    (succeed result >>= next) = next result :=
  rfl

theorem bind_bind (first : Attempt π α) (next : α → Attempt π β) (last : β → Attempt π γ) :
    (first >>= next >>= last) = first >>= fun result => next result >>= last := by
  funext input
  simp only [bind_eq_andThen, andThen]
  rcases first input with ⟨_ | _ | _, between⟩ <;> rfl

theorem orElse_miss (attempt : Attempt π α) : attempt.orElse miss = attempt := by
  funext input
  unfold orElse
  rcases attempt input with ⟨_ | _ | _, between⟩ <;> rfl

theorem orElse_orElse (first second third : Attempt π α) :
    (first.orElse second).orElse third = first.orElse (second.orElse third) := by
  funext input
  simp only [orElse]
  rcases first input with ⟨_ | _ | _, between⟩ <;> rfl

end Attempt

namespace Match

open Attempt

/-- A further option is tried where all others miss. -/
theorem firstOf_concat (matcher : Matcher π) (options : List Pattern) (option : Pattern)
    (scope : Scope) (place : Position) :
    firstOf matcher (options ++ [option]) scope place =
      (firstOf matcher options scope place).orElse (matcher option scope place) := by
  induction options with
  | nil => exact orElse_miss _
  | cons first rest ih =>
      show (matcher first scope place).orElse (firstOf matcher (rest ++ [option]) scope place) =
        ((matcher first scope place).orElse (firstOf matcher rest scope place)).orElse _
      rw [ih, orElse_orElse]

/-- A further part follows where the last one has ended. -/
theorem allOf_concat (matcher : Matcher π) (parts : List Pattern) (part : Pattern)
    (scope : Scope) (place : Position) :
    allOf matcher (parts ++ [part]) scope place =
      allOf matcher parts scope place >>= fun (values, last, inner) =>
        matcher part inner last >>= fun success =>
          succeed (values ++ [success.value], success.position, success.scope) := by
  induction parts generalizing scope place with
  | nil => rfl
  | cons first rest ih =>
      show (matcher first scope place >>= fun success =>
          allOf matcher (rest ++ [part]) success.scope success.position >>= _) =
        (matcher first scope place >>= fun success =>
          allOf matcher rest success.scope success.position >>= _) >>= _
      simp only [ih, bind_bind]
      rfl

end Match

variable [Producer π]

namespace Pattern

open Attempt

theorem rising_run (pattern : Pattern) (scope : Scope) (place : Position) :
    Rising fun granted => pattern.run (π := π) granted scope place :=
  fun granted => keptBy_run_succ granted pattern scope place

/-- A pattern with neither factory nor label has no factory. -/
theorem factory_of_open {pattern : Pattern} (hopen : pattern.isFinal = false) :
    pattern.factory = none := by
  simp only [isFinal, Bool.or_eq_false_iff, Option.isSome_eq_false_iff, Option.isNone_iff_eq_none]
    at hopen
  exact hopen.1

/-- An open choice is its first option that matches. -/
theorem run_of_choice {pattern : Pattern} {options : List Pattern}
    (hform : pattern.form = .choice options) (hopen : pattern.isFinal = false) (granted : Nat)
    (scope : Scope) (place : Position) :
    pattern.run (π := π) (granted + 1) scope place =
      Match.firstOf (run granted) options scope place := by
  rw [run_succ, hform, factory_of_open hopen]
  exact bind_succeed _

/-- An open sequence is its parts in a row, and their values its items. -/
theorem run_of_sequence {pattern : Pattern} {parts : List Pattern}
    (hform : pattern.form = .sequence parts none) (hopen : pattern.isFinal = false) (granted : Nat)
    (scope : Scope) (place : Position) :
    pattern.run (π := π) (granted + 1) scope place =
      Match.allOf (run granted) parts scope place >>= fun (values, last, inner) =>
        succeed ⟨.list values, last, inner⟩ := by
  rw [run_succ, hform, factory_of_open hopen]
  exact bind_succeed _

variable (first second third : Pattern) (scope : Scope) (place : Position)

/-- One pattern and, after a miss, the other, each with the same number of steps. -/
theorem rising_either :
    Rising fun granted =>
      (first.run (π := π) granted scope place).orElse (second.run granted scope place) :=
  fun granted =>
    .orElse (first.rising_run scope place granted) (second.rising_run scope place granted)

/-- A choice between two is the one and, after a miss, the other. -/
theorem choice_alike :
    Alike (fun granted => (choice [first, second]).run (π := π) granted scope place)
      fun granted => (first.run granted scope place).orElse (second.run granted scope place) := by
  have hpair (granted : Nat) :
      (choice [first, second]).run (π := π) (granted + 1) scope place =
        (first.run granted scope place).orElse (second.run granted scope place) := by
    rw [run_of_choice rfl rfl]
    exact congrArg (first.run granted scope place).orElse (orElse_miss _)
  refine (Alike.succ (rising_run _ scope place)).symm.trans ?_
  simp only [hpair]
  exact .refl _

/-- An alternative is the one and, after a miss, the other. -/
theorem orElse_alike :
    Alike (fun granted => (first.orElse second).run (π := π) granted scope place)
      fun granted => (first.run granted scope place).orElse (second.run granted scope place) := by
  unfold Pattern.orElse
  split
  case h_1 options hform =>
    by_cases hfinal : first.isFinal = true
    · rw [if_pos hfinal]
      exact choice_alike first second scope place
    · rw [if_neg hfinal]
      -- The options run one step deeper than the choice that they belonged to.
      have hextended (granted : Nat) :
          (choice (options ++ [second])).run (π := π) (granted + 1) scope place =
            (first.run (granted + 1) scope place).orElse (second.run granted scope place) := by
        rw [run_of_choice rfl rfl, Match.firstOf_concat,
          run_of_choice hform (Bool.not_eq_true _ ▸ hfinal)]
      refine (Alike.succ (rising_run _ scope place)).symm.trans ?_
      simp only [hextended]
      exact .orElse (fun granted => first.rising_run scope place (granted + 1))
        (first.rising_run scope place) (.succ (first.rising_run scope place))
        (second.rising_run scope place) (second.rising_run scope place) (.refl _)
  case h_2 => exact choice_alike first second scope place

/-- Alternatives may be grouped either way. -/
theorem orElse_assoc_alike :
    Alike (fun granted => ((first.orElse second).orElse third).run (π := π) granted scope place)
      fun granted => (first.orElse (second.orElse third)).run granted scope place := by
  have hleft := (orElse_alike (π := π) (first.orElse second) third scope place).trans
    (.orElse (rising_run _ scope place) (rising_either first second scope place)
      (orElse_alike first second scope place) (third.rising_run scope place)
      (third.rising_run scope place) (.refl _))
  have hright := (orElse_alike (π := π) first (second.orElse third) scope place).trans
    (.orElse (first.rising_run scope place) (first.rising_run scope place) (.refl _)
      (rising_run _ scope place) (rising_either second third scope place)
      (orElse_alike second third scope place))
  simp only [orElse_orElse] at hleft
  exact hleft.trans hright.symm

/-- The value of a sum, from those of its operands: an open sequence gives its items. -/
def join (first : Pattern) (front back : Value) : Value :=
  match first.form with
  | .sequence _ none =>
      if first.isFinal then .list [front, back] else .list (front.items ++ [back])
  | _ => .list [front, back]

/-- One pattern after the other, with a value made out of both. -/
def inTurn (granted : Nat) : Attempt π Match :=
  first.run granted scope place >>= fun front =>
    second.run granted front.scope front.position >>= fun back =>
      succeed { back with value := first.join front.value back.value }

theorem rising_inTurn : Rising fun granted => inTurn (π := π) first second scope place granted :=
  .bind (first.rising_run scope place) fun front =>
    .bind (second.rising_run front.scope front.position) fun _ => .const (succeed _)

/-- A sequence of two is the one after the other. -/
theorem sequence_run (granted : Nat) :
    (sequence [first, second]).run (π := π) (granted + 1) scope place =
      first.run granted scope place >>= fun front =>
        second.run granted front.scope front.position >>= fun back =>
          succeed { back with value := .list [front.value, back.value] } := by
  rw [run_of_sequence rfl rfl]
  show (first.run granted scope place >>= fun front =>
    (second.run granted front.scope front.position >>= fun back => _) >>= _) >>= _ = _
  simp only [bind_bind]
  rfl

/-- A sum is its operands in turn. -/
theorem andThen_alike :
    Alike (fun granted => (first.andThen second).run (π := π) granted scope place)
      fun granted => inTurn first second scope place granted := by
  refine (Alike.succ (rising_run _ scope place)).symm.trans ?_
  unfold Pattern.andThen
  split
  case h_1 parts hform =>
    by_cases hfinal : first.isFinal = true
    · have hwrapped : first.join = fun front back => .list [front, back] := by
        funext front back
        simp only [join, hform, if_pos hfinal]
      simp only [if_pos hfinal, sequence_run, inTurn, hwrapped]
      exact .refl _
    · have hitems : first.join = fun front back => .list (front.items ++ [back]) := by
        funext front back
        simp only [join, hform, if_neg hfinal]
      -- The parts run one step deeper than the sequence that they belonged to.
      have hextended (granted : Nat) :
          (sequence (parts ++ [second])).run (π := π) (granted + 1) scope place =
            first.run (granted + 1) scope place >>= fun front =>
              second.run granted front.scope front.position >>= fun back =>
                succeed { back with value := first.join front.value back.value } := by
        rw [run_of_sequence rfl rfl, Match.allOf_concat,
          run_of_sequence hform (Bool.not_eq_true _ ▸ hfinal), hitems]
        simp only [bind_bind]
        rfl
      simp only [if_neg hfinal, hextended]
      exact .bind (fun granted => first.rising_run scope place (granted + 1))
        (first.rising_run scope place) (.succ (first.rising_run scope place))
        (fun front => .bind (second.rising_run _ _) fun _ => .const (succeed _))
        (fun front => .bind (second.rising_run _ _) fun _ => .const (succeed _))
        fun _ => .refl _
  case h_2 hform =>
    have hwrapped : first.join = fun front back => .list [front, back] := by
      funext front back
      unfold join
      split
      case h_1 parts hparts => exact absurd hparts (hform parts)
      case h_2 => rfl
    simp only [sequence_run, inTurn, hwrapped]
    exact .refl _

/-- What a pattern comes to at a place of an input, with any number of steps that is
enough. -/
def Ends (pattern : Pattern) (scope : Scope) (place : Position) (input : Input π)
    (ending : Verdict Match × Input π) : Prop :=
  Settles (fun granted => pattern.run granted scope place) input ending

/-- A pattern ends in at most one way. -/
theorem Ends.unique {pattern : Pattern} {scope : Scope} {place : Position} {input : Input π}
    {ending other : Verdict Match × Input π} (hends : pattern.Ends scope place input ending)
    (hother : pattern.Ends scope place input other) : ending = other :=
  (pattern.rising_run scope place).unique hends hother

/-- How one pattern and then another end: where the first one matches, as the second one
does at the position and in the scope after it, and otherwise as the first one does. -/
inductive Turns (first second : Pattern) (scope : Scope) (place : Position) (input : Input π) :
    Verdict Match × Input π → Prop where
  | whole {front : Match} {between after : Input π} {verdict : Verdict Match}
      (hfront : first.Ends scope place input (.matched front, between))
      (hback : second.Ends front.scope front.position between (verdict, after)) :
      Turns first second scope place input
        (verdict.map fun back => { back with value := first.join front.value back.value }, after)
  | missed {after : Input π} (hfront : first.Ends scope place input (.missed, after)) :
      Turns first second scope place input (.missed, after)
  | halted {reason : Halt} {after : Input π}
      (hfront : first.Ends scope place input (.halted reason, after)) :
      Turns first second scope place input (.halted reason, after)

/-- A sum ends as its operands do in turn. -/
theorem ends_andThen_iff (input : Input π) (ending : Verdict Match × Input π) :
    (first.andThen second).Ends scope place input ending ↔
      Turns first second scope place input ending := by
  refine (andThen_alike first second scope place input ending).trans ?_
  unfold inTurn
  simp only [bind_eq_andThen (first.run _ scope place), andThen_eq_branch (first.run _ scope place)]
  rw [settles_branch_iff (first.rising_run scope place)
    (fun front => .bind (second.rising_run _ _) fun _ => .const (succeed _)) (.const miss)]
  constructor
  · rintro (⟨front, between, hfront, hback⟩ | ⟨between, hfront, -, _, hmiss⟩ |
      ⟨reason, between, hfront, rfl⟩)
    · obtain ⟨verdict, hverdict, hmade⟩ :=
        (settles_bind_succeed_iff (second.rising_run _ _)).mp hback
      rw [← Prod.eta ending, ← hmade]
      exact .whole hfront hverdict
    · cases hmiss
      exact .missed hfront
    · exact .halted hfront
  · intro hturns
    cases hturns with
    | whole hfront hback =>
        refine .inl ⟨_, _, hfront, ?_⟩
        exact (settles_bind_succeed_iff (second.rising_run _ _)).mpr ⟨_, hback, rfl⟩
    | missed hfront => exact .inr (.inl ⟨_, hfront, rfl, 0, rfl⟩)
    | halted hfront => exact .inr (.inr ⟨_, _, hfront, rfl⟩)

end Pattern

/-- What a match tells apart from how its value is grouped. -/
def Match.spelled (success : Match) : String × Position × Scope :=
  (success.value.spelling, success.position, success.scope)

/-- The items of a value have the texts of the value. -/
theorem Value.leafTextsOfList_items (value : Value) :
    leafTextsOfList value.items = value.leafTexts := by
  cases value <;> simp [items, leafTexts, leafTextsOfList]

namespace Pattern

open Attempt

variable (first second third : Pattern) (scope : Scope) (place : Position)

/-- However a sum groups its members, their texts stand one after the other. -/
theorem spelling_join (front back : Value) :
    (first.join front back).spelling = front.spelling ++ back.spelling := by
  have htexts : (first.join front back).leafTexts = front.leafTexts ++ back.leafTexts := by
    have hpair : (Value.list [front, back]).leafTexts = front.leafTexts ++ back.leafTexts := by
      simp [Value.leafTexts, Value.leafTextsOfList]
    unfold join
    split
    · split
      · exact hpair
      · rw [Value.leafTexts, Value.leafTextsOfList_append, Value.leafTextsOfList_items]
        simp [Value.leafTextsOfList]
    · exact hpair
  rw [Value.spelling, htexts, ← String.toList_inj]
  simp [Value.spelling]

/-- What goes on with the text, the position and the scope of a sum goes on with those of
its operands in turn. -/
theorem andThen_spelled_alike {next : Nat → String × Position × Scope → Attempt π β}
    (hnext : ∀ told, Rising fun granted => next granted told) :
    Alike
      (fun granted => (first.andThen second).run granted scope place >>= fun success =>
        next granted success.spelled)
      fun granted => first.run granted scope place >>= fun front =>
        second.run granted front.scope front.position >>= fun back =>
          next granted
            (front.value.spelling ++ back.value.spelling, back.position, back.scope) := by
  refine (Alike.bind (rising_run _ scope place) (rising_inTurn first second scope place)
    (andThen_alike first second scope place) (fun success => hnext success.spelled)
    (fun success => hnext success.spelled) fun _ => .refl _).trans ?_
  simp only [inTurn, bind_bind, succeed_bind, Match.spelled, spelling_join]
  exact .refl _

/-- A sum of three has the same text, position and scope either way it is grouped. -/
theorem andThen_assoc_alike :
    Alike
      (fun granted => ((first.andThen second).andThen third).run (π := π) granted scope place >>=
        fun success => succeed success.spelled)
      fun granted => (first.andThen (second.andThen third)).run granted scope place >>=
        fun success => succeed success.spelled := by
  have hlast (told : String × Position × Scope) : Rising fun granted =>
      third.run (π := π) granted told.2.2 told.2.1 >>= fun back =>
        succeed (told.1 ++ back.value.spelling, back.position, back.scope) :=
    .bind (third.rising_run _ _) fun _ => .const (succeed _)
  have hleft := ((first.andThen second).andThen_spelled_alike (π := π) third scope place
    (fun told => .const (succeed told))).trans
    (first.andThen_spelled_alike second scope place hlast)
  have hinner (front : Match) :=
    second.andThen_spelled_alike (π := π) third front.scope front.position
      fun told => .const (succeed (front.value.spelling ++ told.1, told.2))
  have hrest (front : Match) : Rising fun granted =>
      (second.andThen third).run (π := π) granted front.scope front.position >>= fun success =>
        succeed (front.value.spelling ++ success.spelled.1, success.spelled.2) :=
    .bind (rising_run _ _ _) fun _ => .const (succeed _)
  have hright := (first.andThen_spelled_alike (π := π) (second.andThen third) scope place
    (fun told => .const (succeed told))).trans
    (Alike.bind (first.rising_run scope place) (first.rising_run scope place) (.refl _) hrest
      (fun front => .bind (second.rising_run _ _) fun middle =>
        .bind (third.rising_run _ _) fun _ => .const (succeed _)) hinner)
  simp only [String.append_assoc] at hleft
  exact hleft.trans hright.symm

/-- Operators keep the meaning of their operands. An alternative ends like the choice between
its operands, and alternatives may be grouped either way. A sum ends as its operands do in
turn. So sums may be grouped either way as well, up to how the value is grouped. -/
theorem operators_keep_meaning (input : Input π) :
    (∀ ending, (first.orElse second).Ends scope place input ending ↔
      (choice [first, second]).Ends scope place input ending) ∧
    (∀ ending, ((first.orElse second).orElse third).Ends scope place input ending ↔
      (first.orElse (second.orElse third)).Ends scope place input ending) ∧
    (∀ ending, (first.andThen second).Ends scope place input ending ↔
      Turns first second scope place input ending) ∧
    ∀ told after,
      (∃ verdict,
        ((first.andThen second).andThen third).Ends scope place input (verdict, after) ∧
          verdict.map Match.spelled = told) ↔
      ∃ verdict,
        (first.andThen (second.andThen third)).Ends scope place input (verdict, after) ∧
          verdict.map Match.spelled = told := by
  refine ⟨fun ending => ?_, fun ending => ?_, fun ending => ?_, fun told after => ?_⟩
  · exact ((orElse_alike first second scope place).trans
      (choice_alike first second scope place).symm) input ending
  · exact orElse_assoc_alike first second third scope place input ending
  · exact ends_andThen_iff first second scope place input ending
  · have halike := andThen_assoc_alike first second third scope place input (told, after)
    rwa [settles_bind_succeed_iff (rising_run _ scope place),
      settles_bind_succeed_iff (rising_run _ scope place)] at halike

end Pattern

end ScopedGrammar
