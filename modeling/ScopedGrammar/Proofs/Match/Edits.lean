/-
# A text and an edited text

A text that is accepted may be edited, and its match followed step by step by the match of the
edited text. Nothing is asked about halts of the first match, since an accepted text does not
come to any. The second match may halt with a diagnostic that is fair, and is followed up to
there. The two matches may be granted different numbers of steps, so that the edited text may
take more of them; running out of them is excused on both sides.

What corresponds in the results of two attempts is up to those who follow them. Here are the
rules for following: what is needed of the parts of a pattern for the pattern, one rule for each
way to combine patterns. Where a match does not depend on steps, what it comes to decides.
-/

import ScopedGrammar.Proofs.Match.Accord
import ScopedGrammar.Proofs.Match.Stopping
import ScopedGrammar.Proofs.Match.Unrolling

namespace ScopedGrammar

/-- A text that is accepted, a text that it is made into, and the diagnostics that the edited
text may be refused with. -/
structure Edit where
  text : String
  edited : String
  fair : Diagnostic → Prop

variable {α β : Type} {edit : Edit}

namespace Edit

/-- Nothing is asked of halts on the first side. -/
def accord (edit : Edit) : Accord Silence Silence where
  inputs input other := input = Input.ofText edit.text ∧ other = Input.ofText edit.edited
  places _ _ := True
  values _ _ := True
  contents _ _ := True
  scopes _ _ := True
  patterns _ _ := True
  terms _ _ := True
  targets _ _ := True
  messages _ _ := True
  halts _ _ := False
  excuses _ := True
  pardons
    | .exhausted => True
    | .diagnostic diagnostic => edit.fair diagnostic
    | _ => False
  steps _ _ := True

/-- The match of the edited text follows that of the text, with results that correspond. -/
abbrev Follows (edit : Edit) (results : α → β → Prop) (attempt : Attempt Silence α)
    (other : Attempt Silence β) : Prop :=
  edit.accord.InStep results attempt other

namespace Follows

variable {results wider : α → β → Prop} {attempt : Attempt Silence α}
  {other : Attempt Silence β}

theorem mono (hstep : edit.Follows results attempt other)
    (hresults : ∀ result otherResult, results result otherResult → wider result otherResult) :
    edit.Follows wider attempt other := by
  intro input otherInput hinputs
  have hends := hstep hinputs
  generalize attempt input = ending at hends
  generalize other otherInput = otherEnding at hends
  cases hends with
  | matched hmatched hafter => exact .matched (hresults _ _ hmatched) hafter
  | missed hafter => exact .missed hafter
  | halted hhalts hafter => exact .halted hhalts hafter
  | excused hexcused => exact .excused hexcused
  | pardoned hpardoned => exact .pardoned hpardoned

/-- What is known of every result of the first match may be added. -/
theorem promised (hstep : edit.Follows results attempt other) (promise : α → Prop)
    (hpromise : ∀ result after, attempt (Input.ofText edit.text) = (.matched result, after) →
      promise result) :
    edit.Follows (fun result otherResult =>
      results result otherResult ∧ promise result) attempt other := by
  rintro _ _ ⟨rfl, rfl⟩
  have hends := hstep ⟨rfl, rfl⟩
  generalize hending : attempt (Input.ofText edit.text) = ending at hends
  generalize other (Input.ofText edit.edited) = otherEnding at hends
  cases hends with
  | matched hmatched hafter => exact .matched ⟨hmatched, hpromise _ _ hending⟩ hafter
  | missed hafter => exact .missed hafter
  | halted hhalts hafter => exact .halted hhalts hafter
  | excused hexcused => exact .excused hexcused
  | pardoned hpardoned => exact .pardoned hpardoned

/-- What is known of every result of the second match may be added. -/
theorem promised_other (hstep : edit.Follows results attempt other) (promise : β → Prop)
    (hpromise : ∀ result after, other (Input.ofText edit.edited) = (.matched result, after) →
      promise result) :
    edit.Follows (fun result otherResult =>
      results result otherResult ∧ promise otherResult) attempt other := by
  rintro _ _ ⟨rfl, rfl⟩
  have hends := hstep ⟨rfl, rfl⟩
  generalize attempt (Input.ofText edit.text) = ending at hends
  generalize hending : other (Input.ofText edit.edited) = otherEnding at hends
  cases hends with
  | matched hmatched hafter => exact .matched ⟨hmatched, hpromise _ _ hending⟩ hafter
  | missed hafter => exact .missed hafter
  | halted hhalts hafter => exact .halted hhalts hafter
  | excused hexcused => exact .excused hexcused
  | pardoned hpardoned => exact .pardoned hpardoned

/-- A first match that halts need not be followed. -/
theorem of_halted {reason : Halt} {after : Input Silence}
    (hhalted : attempt (Input.ofText edit.text) = (.halted reason, after)) :
    edit.Follows results attempt other := by
  rintro _ _ ⟨rfl, rfl⟩
  rw [hhalted]
  exact .excused trivial

/-- A second match that halts with a diagnostic that is fair follows whatever the first does. -/
theorem of_fair {diagnostic : Diagnostic} {after : Input Silence}
    (hhalted : other (Input.ofText edit.edited) = (.halted (.diagnostic diagnostic), after))
    (hfair : edit.fair diagnostic) : edit.Follows results attempt other := by
  rintro _ _ ⟨rfl, rfl⟩
  rw [hhalted]
  exact .pardoned hfair

/-- An attempt that does not miss is followed by one that matches, unless that runs out of
steps. -/
theorem of_ne_missed {result : β}
    (hattempt : ∀ after, attempt (Input.ofText edit.text) ≠ (.missed, after))
    (hgrows : attempt.Grows)
    (hother : other (Input.ofText edit.edited) = (.matched result, Input.ofText edit.edited) ∨
      other (Input.ofText edit.edited) = (.halted .exhausted, Input.ofText edit.edited))
    (hresults : ∀ matched, results matched result) : edit.Follows results attempt other := by
  rintro _ _ ⟨rfl, rfl⟩
  rcases hother with hother | hother
  · rcases hrun : attempt (Input.ofText edit.text) with ⟨matched | _ | reason, after⟩
    · obtain rfl : after = Input.ofText edit.text := (hgrows.after hrun).settled rfl
      rw [hother]
      exact .matched (hresults matched) ⟨rfl, rfl⟩
    · exact absurd hrun (hattempt after)
    · exact .excused trivial
  · rw [hother]
    exact .pardoned trivial

end Follows

theorem Verdict.isExhausted_iff {verdict : Verdict α} :
    verdict.isExhausted = true ↔ verdict = .halted .exhausted := by
  rcases verdict with _ | _ | reason
  · simp [Verdict.isExhausted]
  · simp [Verdict.isExhausted]
  · cases reason <;> simp [Verdict.isExhausted, Halt.isExhausted]

section Coming

variable {results : α → β → Prop} {attempt : Nat → Attempt Silence α}
  {other : Nat → Attempt Silence β} {verdict : Verdict α} {otherVerdict : Verdict β}

/-- Attempts that come to what corresponds may be followed with any numbers of steps. -/
theorem of_comes (hsteady : Steady attempt) (hother : Steady other)
    (hcomes : Comes edit.text attempt verdict) (hcomesOther : Comes edit.edited other otherVerdict)
    (hends : edit.accord.Ends results (verdict, Input.ofText edit.text)
      (otherVerdict, Input.ofText edit.edited)) (granted more : Nat) :
    edit.Follows results (attempt granted) (other more) := by
  rintro _ _ ⟨rfl, rfl⟩
  rcases hrun : attempt granted (Input.ofText edit.text) with ⟨ending, after⟩
  rcases hrunOther : other more (Input.ofText edit.edited) with ⟨otherEnding, otherAfter⟩
  by_cases hexhausted : ending.isExhausted = true
  · rw [Verdict.isExhausted_iff.mp hexhausted]
    exact .excused trivial
  by_cases hexhaustedOther : otherEnding.isExhausted = true
  · rw [Verdict.isExhausted_iff.mp hexhaustedOther]
    exact .pardoned trivial
  rw [Bool.not_eq_true] at hexhausted hexhaustedOther
  have hsame := hcomes.eq_of_run hsteady (by rw [hrun]; exact hexhausted)
  have hsameOther := hcomesOther.eq_of_run hother (by rw [hrunOther]; exact hexhaustedOther)
  rw [← hrun, ← hrunOther, hsame, hsameOther]
  exact hends

end Coming

section Patterns

variable {results raw : Match → Match → Prop} {pattern inner rule : Pattern}
  {parts options : List Pattern} {picks : Option (List Nat)} {name : String} {granted more : Nat}
  {scope otherScope : Scope} {place otherPlace : Position}

theorem of_matches {success other : Match}
    (hmatches : pattern.Matches edit.text scope place success)
    (hother : pattern.Matches edit.edited otherScope otherPlace other)
    (hresults : results success other) (granted more : Nat) :
    edit.Follows results (pattern.run granted scope place)
      (pattern.run more otherScope otherPlace) :=
  of_comes (.run pattern scope place) (.run pattern otherScope otherPlace) hmatches hother
    (.matched hresults ⟨rfl, rfl⟩) granted more

theorem of_misses (hmisses : pattern.Misses edit.text scope place)
    (hother : pattern.Misses edit.edited otherScope otherPlace) (granted more : Nat) :
    edit.Follows results (pattern.run granted scope place)
      (pattern.run more otherScope otherPlace) :=
  of_comes (.run pattern scope place) (.run pattern otherScope otherPlace) hmisses hother
    (.missed ⟨rfl, rfl⟩) granted more

/-- A pattern that stops on the first text need not be followed. -/
theorem of_stops {reason : Halt} (hstops : pattern.Stops edit.text scope place reason)
    (granted more : Nat) :
    edit.Follows results (pattern.run granted scope place)
      (pattern.run more otherScope otherPlace) := by
  rcases hrun : pattern.run granted scope place (Input.ofText edit.text) with ⟨verdict, after⟩
  by_cases hexhausted : verdict.isExhausted = true
  · rw [Verdict.isExhausted_iff.mp hexhausted] at hrun
    exact .of_halted hrun
  · rw [Bool.not_eq_true] at hexhausted
    exact .of_halted (hstops.eq_of_run (.run pattern scope place) (by rw [hrun]; exact hexhausted))

/-- A pattern that stops on the edited text with a diagnostic that is fair follows whatever the
first match does. -/
theorem of_refused {diagnostic : Diagnostic}
    (hstops : pattern.Stops edit.edited otherScope otherPlace (.diagnostic diagnostic))
    (hfair : edit.fair diagnostic) (attempt : Attempt Silence Match) (more : Nat) :
    edit.Follows results attempt (pattern.run more otherScope otherPlace) := by
  rcases hrun : pattern.run more otherScope otherPlace (Input.ofText edit.edited) with
    ⟨verdict, after⟩
  by_cases hexhausted : verdict.isExhausted = true
  · rw [Verdict.isExhausted_iff.mp hexhausted] at hrun
    rintro _ _ ⟨rfl, rfl⟩
    rw [hrun]
    exact .pardoned trivial
  · rw [Bool.not_eq_true] at hexhausted
    exact .of_fair (hstops.eq_of_run (.run pattern otherScope otherPlace)
      (by rw [hrun]; exact hexhausted)) hfair

/-- A pattern is followed as its form is, with the values that its factory makes. -/
theorem follows_run (raw : Match → Match → Prop)
    (hform : ∀ steps < granted, ∀ more, edit.Follows raw
      (Match.form (Pattern.run steps) steps pattern.form scope place)
      (Match.form (Pattern.run more) more pattern.form otherScope otherPlace))
    (hmake : ∀ success other, raw success other →
      results { success with value := pattern.finishValue success.value }
        { other with value := pattern.finishValue other.value }) :
    edit.Follows results (pattern.run granted scope place)
      (pattern.run more otherScope otherPlace) := by
  cases granted with
  | zero => exact .excused trivial _
  | succ granted =>
      cases more with
      | zero => exact .pardoned _ trivial
      | succ more =>
          refine .bind (hform granted (Nat.lt_succ_self granted) more) fun hraw => ?_
          exact .succeed (hmake _ _ hraw)

/-- The values that a row of a pattern yields are picked and made into results. -/
def Picked (pattern : Pattern) (picks : Option (List Nat)) (results : Match → Match → Prop)
    (row other : List Value × Position × Scope) : Prop :=
  ∃ value otherValue, Match.pickValues row.1 picks = .ok value ∧
    Match.pickValues other.1 picks = .ok otherValue ∧
    results ⟨pattern.finishValue value, row.2.1, row.2.2⟩
      ⟨pattern.finishValue otherValue, other.2.1, other.2.2⟩

theorem follows_sequence (hform : pattern.form = .sequence parts picks)
    (hrow : ∀ steps < granted, ∀ more, edit.Follows
      (Picked pattern picks results) (Match.allOf (Pattern.run steps) parts scope place)
      (Match.allOf (Pattern.run more) parts otherScope otherPlace)) :
    edit.Follows results (pattern.run granted scope place)
      (pattern.run more otherScope otherPlace) := by
  refine follows_run (fun success other =>
    results { success with value := pattern.finishValue success.value }
      { other with value := pattern.finishValue other.value }) ?_ fun _ _ hraw => hraw
  intro steps hsteps more
  rw [hform]
  refine .bind (hrow steps hsteps more) ?_
  rintro ⟨values, stop, inner⟩ ⟨others, otherStop, otherInner⟩
    ⟨value, other, hvalue, hother, hresults⟩
  dsimp only at hvalue hother ⊢
  rw [hvalue, hother]
  exact .succeed hresults

/-- The first part of a row is followed, and then the others from where it ends. -/
theorem follows_row_cons {first : Match → Match → Prop}
    {last : List Value × Position × Scope → List Value × Position × Scope → Prop}
    {matcher other : Matcher Silence} {part : Pattern}
    (hfirst : edit.Follows first (matcher part scope place)
      (other part otherScope otherPlace))
    (hrest : ∀ success otherSuccess, first success otherSuccess →
      edit.Follows
        (fun row otherRow => last (success.value :: row.1, row.2)
          (otherSuccess.value :: otherRow.1, otherRow.2))
        (Match.allOf matcher parts success.scope success.position)
        (Match.allOf other parts otherSuccess.scope otherSuccess.position)) :
    edit.Follows last (Match.allOf matcher (part :: parts) scope place)
      (Match.allOf other (part :: parts) otherScope otherPlace) :=
  .bind hfirst fun {success otherSuccess} hmatched =>
    .bind (hrest success otherSuccess hmatched) fun hlast => .succeed hlast

/-- Where neither match goes on with the first part, neither goes on with the row. -/
theorem follows_row_closed
    {last : List Value × Position × Scope → List Value × Position × Scope → Prop}
    {matcher other : Matcher Silence} {part : Pattern}
    (hfirst : edit.Follows (fun _ _ => False) (matcher part scope place)
      (other part otherScope otherPlace)) :
    edit.Follows last (Match.allOf matcher (part :: parts) scope place)
      (Match.allOf other (part :: parts) otherScope otherPlace) :=
  follows_row_cons hfirst fun _ _ => False.elim

theorem follows_row_nil
    {last : List Value × Position × Scope → List Value × Position × Scope → Prop}
    {matcher other : Matcher Silence}
    (hlast : last ([], place, scope) ([], otherPlace, otherScope)) :
    edit.Follows last (Match.allOf matcher [] scope place)
      (Match.allOf other [] otherScope otherPlace) :=
  .succeed hlast

theorem follows_choice (hform : pattern.form = .choice options)
    (hoptions : ∀ option ∈ options, ∀ steps < granted, ∀ more,
      edit.Follows
        (fun success other => results { success with value := pattern.finishValue success.value }
          { other with value := pattern.finishValue other.value })
        (option.run steps scope place) (option.run more otherScope otherPlace)) :
    edit.Follows results (pattern.run granted scope place)
      (pattern.run more otherScope otherPlace) := by
  refine follows_run _ ?_ fun _ _ hraw => hraw
  intro steps hsteps more
  rw [hform]
  show edit.Follows _ (Match.firstOf (Pattern.run steps) options scope place)
    (Match.firstOf (Pattern.run more) options otherScope otherPlace)
  clear hform
  induction options with
  | nil => exact .miss
  | cons first rest ih =>
      rw [List.forall_mem_cons] at hoptions
      exact .orElse (hoptions.1 steps hsteps more) (ih hoptions.2)

/-- A name that means a rule is followed as the rule is, and hands the scopes back. -/
theorem follows_named (hrule : scope.rule? name = some rule)
    (hother : otherScope.rule? name = some rule)
    (hrun : ∀ steps < granted, ∀ more, edit.Follows
      (fun success other => results { success with scope } { other with scope := otherScope })
      (rule.run steps scope place) (rule.run more otherScope otherPlace)) :
    edit.Follows results ((Pattern.named name).run granted scope place)
      ((Pattern.named name).run more otherScope otherPlace) := by
  refine follows_run results ?_ fun _ _ hraw => hraw
  intro steps hsteps more
  show edit.Follows _ (Match.form (Pattern.run steps) steps
    (.reference (.name name)) scope place) (Match.form (Pattern.run more) more
      (.reference (.name name)) otherScope otherPlace)
  simp only [Match.form, Pattern.resolve_name hrule, Pattern.resolve_name hother]
  show edit.Follows _ (Match.keepScope scope (rule.run steps scope place))
    (Match.keepScope otherScope (rule.run more otherScope otherPlace))
  exact .bind (hrun steps hsteps more) fun hraw => .succeed hraw

theorem follows_map {make : Value → Value}
    (hrun : edit.Follows
      (fun success other => results { success with value := make success.value }
        { other with value := make other.value })
      (pattern.run granted scope place) (pattern.run more otherScope otherPlace)) :
    edit.Follows results ((pattern.map make).run granted scope place)
      ((pattern.map make).run more otherScope otherPlace) := by
  rw [Pattern.run_map, Pattern.run_map]
  exact .bind hrun fun hresults => .succeed hresults

theorem follows_labelled (label : String)
    (hrun : edit.Follows results (pattern.run granted scope place)
      (pattern.run more otherScope otherPlace)) :
    edit.Follows results ((pattern.labelled label).run granted scope place)
      ((pattern.labelled label).run more otherScope otherPlace) := by
  have hsame (steps : Nat) : (pattern.labelled label).run steps =
      (pattern.run steps : Scope → Position → Attempt Silence Match) := by
    cases steps <;> rfl
  rw [hsame, hsame]
  exact hrun

/-- A demand is followed as the pattern is: the first match does not complain. -/
theorem follows_demand {template : String}
    (hinner : ∀ steps < granted, ∀ more, edit.Follows results
      (inner.run steps scope place) (inner.run more otherScope otherPlace)) :
    edit.Follows results ((inner.demand template).run granted scope place)
      ((inner.demand template).run more otherScope otherPlace) := by
  refine follows_run results ?_ fun _ _ hraw => hraw
  intro steps hsteps more
  exact .orElse (hinner steps hsteps more)
    (Follows.of_halted (Match.complain_ofText edit.text (Message.ofTemplate template) scope place))

theorem follows_capture (hinner : ∀ steps < granted, ∀ more, edit.Follows
      (fun success other => results
        { success with scope := success.scope.bind name (.value success.value) }
        { other with scope := other.scope.bind name (.value other.value) })
      (inner.run steps scope place) (inner.run more otherScope otherPlace)) :
    edit.Follows results ((inner.capture name).run granted scope place)
      ((inner.capture name).run more otherScope otherPlace) := by
  refine follows_run results ?_ fun _ _ hraw => hraw
  intro steps hsteps more
  exact .bind (hinner steps hsteps more) fun hraw => .succeed hraw

/-- Where a pattern is looked for ahead, nothing is taken. -/
theorem follows_notAhead (hinner : ∀ steps < granted, ∀ more,
      edit.Follows (fun _ _ => True)
        (inner.run steps scope place) (inner.run more otherScope otherPlace))
    (hresults : results ⟨.token (Token.nothingAt place), place, scope⟩
      ⟨.token (Token.nothingAt otherPlace), otherPlace, otherScope⟩) :
    edit.Follows results (inner.notAhead.run granted scope place)
      (inner.notAhead.run more otherScope otherPlace) := by
  refine follows_run results ?_ fun _ _ hraw => hraw
  intro steps hsteps more
  refine .bind (hinner steps hsteps more).absent fun _ => ?_
  have hnothing (text : String) (scope : Scope) (place : Position) :
      Match.wide 0 scope place (Input.ofText text) =
        (.matched ⟨.token (Token.nothingAt place), place, scope⟩, Input.ofText text) := by
    have hsees : place.Sees text ([] ++ text.toList.drop place.offset) := rfl
    exact Match.captureToken_eq hsees
  rintro _ _ ⟨rfl, rfl⟩
  rw [hnothing edit.text, hnothing edit.edited]
  exact .matched hresults ⟨rfl, rfl⟩

/-- An overlay hands the scopes back. -/
theorem follows_overlay {bindings : List (String × Term)}
    (hinner : ∀ frame, scope.resolveAll bindings = .ok frame →
      ∃ otherFrame, otherScope.resolveAll bindings = .ok otherFrame ∧
        ∀ steps < granted, ∀ more, edit.Follows
          (fun success other => results { success with scope } { other with scope := otherScope })
          (inner.run steps (scope.push frame) place)
          (inner.run more (otherScope.push otherFrame) otherPlace)) :
    edit.Follows results
      ((Pattern.ofForm (.overlay inner bindings)).run granted scope place)
      ((Pattern.ofForm (.overlay inner bindings)).run more otherScope otherPlace) := by
  refine follows_run results ?_ fun _ _ hraw => hraw
  intro steps hsteps more
  show edit.Follows _ (Match.form (Pattern.run steps) steps
    (.overlay inner bindings) scope place) (Match.form (Pattern.run more) more
      (.overlay inner bindings) otherScope otherPlace)
  simp only [Match.form]
  cases hframe : scope.resolveAll bindings with
  | error defect => exact Follows.of_halted rfl
  | ok frame =>
      obtain ⟨otherFrame, hother, hrun⟩ := hinner frame hframe
      rw [hother]
      show edit.Follows _ (Match.keepScope scope (inner.run steps (scope.push frame) place))
        (Match.keepScope otherScope (inner.run more (otherScope.push otherFrame) otherPlace))
      exact .bind (hrun steps hsteps more) fun hraw => .succeed hraw

end Patterns

section Repetitions

variable {part : Pattern} {separator : Option Pattern} {most : Option Nat}
  {tallies ends : Match.Tally → Match.Tally → Prop} {strayed : Match.Tally → Prop}
  {tally otherTally : Match.Tally} {steps otherSteps : Nat}

/-- From a tally no further round is made: it is full, or the next round misses. -/
def Stays (text : String) (part : Pattern) (separator : Option Pattern) (most : Option Nat)
    (tally : Match.Tally) : Prop :=
  FullAt most tally.parts.size ∨
    RowMisses text (dueAfter separator tally.parts.size ++ [part]) tally.scope tally.position

theorem rounds_of_stays {text : String} (hstays : Stays text part separator most tally)
    (steps turns : Nat) :
    Match.rounds (Pattern.run steps) part separator most turns tally (Input.ofText text) =
        (.matched tally, Input.ofText text) ∨
      Match.rounds (Pattern.run steps) part separator most turns tally (Input.ofText text) =
        (.halted .exhausted, Input.ofText text) := by
  cases turns with
  | zero => exact .inr rfl
  | succ turns =>
      by_cases hopen : FullAt most tally.parts.size
      · exact .inl (Match.rounds_of_full hopen _)
      have hmisses := hstays.resolve_left hopen
      have hsteady := Steady.allOf (dueAfter separator tally.parts.size ++ [part]) tally.scope
        tally.position
      rcases hrow : Match.allOf (Pattern.run steps) (dueAfter separator tally.parts.size ++ [part])
        tally.scope tally.position (Input.ofText text) with ⟨verdict, after⟩
      obtain rfl := hsteady.settled hrow
      by_cases hexhausted : verdict.isExhausted = true
      · rw [Verdict.isExhausted_iff.mp hexhausted] at hrow
        exact .inr (Match.rounds_of_halted hopen hrow)
      · rw [Bool.not_eq_true] at hexhausted
        have hsame := hmisses.eq_of_run hsteady (by rw [hrow]; exact hexhausted)
        exact .inl (Match.rounds_of_missed hopen hsame)

/-- Rounds that may end with a tally that stays are followed by none at all. -/
theorem follows_stays (hstays : Stays edit.edited part separator most otherTally)
    (hends : ∀ tally, ends tally otherTally) (turns more : Nat) :
    edit.Follows ends (Match.rounds (Pattern.run steps) part separator most turns tally)
      (Match.rounds (Pattern.run otherSteps) part separator most more otherTally) :=
  .of_ne_missed (fun _ => Match.rounds_ne_missed)
    (Match.grows_rounds (grows_run steps) part separator most turns tally)
    (rounds_of_stays hstays otherSteps more) hends

/-- A round is followed as the row of the separator that is due and the part is. -/
theorem follows_round {later : Match.Tally → Match.Tally → Prop}
    (hsize : tally.parts.size = otherTally.parts.size ∨ separator = none)
    (hrow : edit.Follows
      (fun row otherRow => later (tally.withRow row) (otherTally.withRow otherRow))
      (Match.allOf (Pattern.run steps) (dueAfter separator tally.parts.size ++ [part])
        tally.scope tally.position)
      (Match.allOf (Pattern.run otherSteps) (dueAfter separator tally.parts.size ++ [part])
        otherTally.scope otherTally.position)) :
    edit.Follows later (Match.round (Pattern.run steps) part separator tally)
      (Match.round (Pattern.run otherSteps) part separator otherTally) := by
  have hdue : dueAfter separator tally.parts.size = dueAfter separator otherTally.parts.size := by
    rcases hsize with hsize | rfl
    · rw [hsize]
    · rw [dueAfter_none, dueAfter_none]
  rw [Match.round_eq_allOf, Match.round_eq_allOf, ← hdue]
  exact .bind hrow fun hlater => .succeed hlater

/-- How the next rounds of two matches go together: one round of each, or the second match has
strayed, or it makes a round that the first does not make. -/
inductive Turns (edit : Edit) (steps otherSteps : Nat) (part : Pattern)
    (separator : Option Pattern) (most : Option Nat) (tallies : Match.Tally → Match.Tally → Prop)
    (strayed : Match.Tally → Prop) (tally otherTally : Match.Tally) : Prop
  | both (hfull : tally.isFull most = otherTally.isFull most)
      (hround : tally.isFull most = false → edit.Follows
        (fun later otherLater => tallies later otherLater ∧
            (later.position.samePlace tally.position =
              otherLater.position.samePlace otherTally.position) ∨ strayed otherLater)
        (Match.round (Pattern.run steps) part separator tally)
        (Match.round (Pattern.run otherSteps) part separator otherTally))
  | strayed (hstrayed : strayed otherTally)
  | second (row : List Value × Position × Scope) (hopen : ¬ FullAt most otherTally.parts.size)
      (hrow : RowMatches edit.edited (dueAfter separator otherTally.parts.size ++ [part])
        otherTally.scope otherTally.position row.1 row.2.1 row.2.2)
      (hmoved : row.2.1.offset ≠ otherTally.position.offset)
      (htallies : tallies tally (otherTally.withRow row))

/-- A round of the second match alone leads on to what it makes the rounds from there come to. -/
theorem rounds_of_second {text : String} {row : List Value × Position × Scope}
    (hopen : ¬ FullAt most tally.parts.size)
    (hrow : RowMatches text (dueAfter separator tally.parts.size ++ [part]) tally.scope
      tally.position row.1 row.2.1 row.2.2)
    (hmoved : row.2.1.offset ≠ tally.position.offset) (steps turns : Nat) :
    Match.rounds (Pattern.run steps) part separator most (turns + 1) tally (Input.ofText text) =
        Match.rounds (Pattern.run steps) part separator most turns (tally.withRow row)
          (Input.ofText text) ∨
      Match.rounds (Pattern.run steps) part separator most (turns + 1) tally (Input.ofText text) =
        (.halted .exhausted, Input.ofText text) := by
  have hsteady := Steady.allOf (dueAfter separator tally.parts.size ++ [part]) tally.scope
    tally.position
  rcases hending : Match.allOf (Pattern.run steps)
    (dueAfter separator tally.parts.size ++ [part]) tally.scope tally.position
    (Input.ofText text) with ⟨verdict, after⟩
  obtain rfl := hsteady.settled hending
  by_cases hexhausted : verdict.isExhausted = true
  · rw [Verdict.isExhausted_iff.mp hexhausted] at hending
    exact .inr (Match.rounds_of_halted hopen hending)
  · rw [Bool.not_eq_true] at hexhausted
    have hsame := Comes.eq_of_run hrow hsteady (by rw [hending]; exact hexhausted)
    rw [Match.rounds_of_row hopen hsame, if_neg hmoved]
    exact .inl rfl

/-- Rounds are followed one by one, as long as each leads from tallies that correspond to such
tallies, or strays to a tally that stays; by induction on the rounds that are granted to the
second match, since it may make some alone. -/
theorem follows_rounds (tallies : Match.Tally → Match.Tally → Prop) (strayed : Match.Tally → Prop)
    (hturns : ∀ tally otherTally, tallies tally otherTally →
      Turns edit steps otherSteps part separator most tallies strayed tally otherTally)
    (hends : ∀ tally otherTally, tallies tally otherTally ∨ strayed otherTally →
      ends tally otherTally)
    (hstays : ∀ otherTally, strayed otherTally →
      Stays edit.edited part separator most otherTally)
    (turns more : Nat) (htallies : tallies tally otherTally) :
    edit.Follows ends (Match.rounds (Pattern.run steps) part separator most turns tally)
      (Match.rounds (Pattern.run otherSteps) part separator most more otherTally) := by
  induction more generalizing turns tally otherTally with
  | zero => exact .pardoned _ trivial
  | succ more ih =>
      have hstop := hends tally otherTally (.inl htallies)
      cases hturns tally otherTally htallies with
      | both hfull hround =>
          cases turns with
          | zero => exact .excused trivial _
          | succ turns =>
              rw [Match.rounds_eq_branch, Match.rounds_eq_branch, ← hfull]
              split
              · exact .succeed hstop
              next hopen =>
              refine .branch (hround (Bool.not_eq_true _ ▸ hopen)) ?_ (.succeed hstop)
              rintro later otherLater (⟨hlater, hmoved⟩ | hstrayed)
              · rw [hmoved]
                by_cases hstill : otherLater.position.samePlace otherTally.position = true
                · simp only [hstill, if_true]
                  exact .succeed (hends _ _ (.inl hlater))
                · simp only [hstill]
                  exact ih turns hlater
              · -- The first match may go on or not, the second stays where it is.
                refine Follows.of_ne_missed (fun after => ?_) ?_ ?_ fun later =>
                  hends later otherLater (.inr hstrayed)
                · by_cases hstill : later.position.samePlace tally.position = true
                  · simp only [hstill, if_true]
                    exact nofun
                  · simp only [hstill]
                    exact Match.rounds_ne_missed
                · by_cases hstill : later.position.samePlace tally.position = true
                  · simp only [hstill, if_true]
                    exact .succeed later
                  · simp only [hstill]
                    exact Match.grows_rounds (grows_run steps) part separator most turns later
                · by_cases hstill : otherLater.position.samePlace otherTally.position = true
                  · simp only [hstill, if_true]
                    exact .inl trivial
                  · simp only [hstill]
                    exact rounds_of_stays (hstays _ hstrayed) otherSteps more
      | strayed hstrayed =>
          exact follows_stays (hstays _ hstrayed) (fun tally => hends tally _ (.inr hstrayed))
            turns _
      | second _ hopen hrow hmoved hlater =>
          have hrest := ih turns hlater
          rintro _ _ ⟨rfl, rfl⟩
          rcases rounds_of_second hopen hrow hmoved otherSteps more with hsame | hhalted
          · rw [hsame]
            exact hrest ⟨rfl, rfl⟩
          · rw [hhalted]
            exact .pardoned trivial

/-- A repetition is followed as its rounds are, if both matches have enough parts or neither
has. -/
theorem follows_repetition (ends : Match.Tally → Match.Tally → Prop) {pattern : Pattern}
    {results : Match → Match → Prop}
    {granted more low : Nat} {scope otherScope : Scope} {place otherPlace : Position}
    {lower : Term} {upper : Option Term}
    (hform : pattern.form = .repetition part lower upper separator false)
    (hbounds : Match.resolveBounds scope lower upper = .ok (low, most))
    (hother : Match.resolveBounds otherScope lower upper = .ok (low, most))
    (hrounds : ∀ steps < granted, ∀ more, edit.Follows ends
      (Match.upTo (Pattern.run steps) steps part separator most scope place)
      (Match.upTo (Pattern.run more) more part separator most otherScope otherPlace))
    (henough : ∀ tally otherTally, ends tally otherTally →
      (tally.parts.size < low ↔ otherTally.parts.size < low))
    (hresults : ∀ tally otherTally, ends tally otherTally →
      results ⟨pattern.finishValue (.list tally.parts.toList), tally.position, tally.scope⟩
        ⟨pattern.finishValue (.list otherTally.parts.toList), otherTally.position,
          otherTally.scope⟩) :
    edit.Follows results (pattern.run granted scope place)
      (pattern.run more otherScope otherPlace) := by
  refine follows_run (fun success other =>
    results { success with value := pattern.finishValue success.value }
      { other with value := pattern.finishValue other.value }) ?_ fun _ _ hraw => hraw
  intro steps hsteps more
  rw [hform, Match.form_repetition_eq hbounds, Match.form_repetition_eq hother]
  refine .bind (hrounds steps hsteps more) fun {tally otherTally} hends => ?_
  have hsame := henough tally otherTally hends
  by_cases hfew : tally.parts.size < low
  · rw [if_pos hfew, if_pos (hsame.mp hfew)]
    exact .miss
  · rw [if_neg hfew, if_neg (mt hsame.mpr hfew)]
    exact .succeed (hresults tally otherTally hends)

end Repetitions

end Edit

end ScopedGrammar
