/-
# Trails of matches

A match over a complete text leads from one place to a later one, and its scope is that of
its start with captures on top. Both hold of every pattern, so what a pattern yields can be
told from the characters between its ends without looking into the parts that do not matter.

A trail is what a row or a repetition leaves behind: values, each taken between two places,
in the order of the text. What stands between them is not told. Where nothing does, as in a
repetition without separators, the values are chained.
-/

import ScopedGrammar.Proofs.Input.Counting
import ScopedGrammar.Proofs.Match.Contracts
import ScopedGrammar.Proofs.Match.Positions
import ScopedGrammar.Proofs.Match.Scoping

namespace ScopedGrammar

variable {text : String} {scope inner : Scope} {place stop : Position} {success : Match}
  {pattern part : Pattern} {values : List Value}

namespace Pattern

theorem Matches.derives (hmatches : pattern.Matches text scope place success) :
    Derives (.pattern pattern) ⟨scope, place, Input.ofText text⟩ [success.value]
      ⟨success.scope, success.position, Input.ofText text⟩ := by
  obtain ⟨-, granted, hending⟩ := hmatches
  exact derives_of_run_ofText hending

theorem Matches.leads (hmatches : pattern.Matches text scope place success) :
    place.Leads text.toList success.position := by
  simpa [Input.ofText] using hmatches.derives.leads

theorem Matches.extends (hmatches : pattern.Matches text scope place success) :
    Scope.Extends pattern.exposed scope success.scope :=
  hmatches.derives.extends

/-- A pattern that captures nothing for what follows leaves the scope. -/
theorem Matches.scope_eq (hmatches : pattern.Matches text scope place success)
    (hnone : pattern.exposed = []) : success.scope = scope := by
  have hextends := hmatches.extends
  rw [hnone] at hextends
  exact hextends.eq_of_nil

/-- What a contract promises with any number of steps holds of every match. -/
theorem Keeps.sound {before after : Condition} {good : Value → Prop}
    (hkeeps : ∀ steps, pattern.Keeps text steps before good after)
    (hmatches : pattern.Matches text scope place success) (hplace : place.offset ≤ text.length)
    (hbefore : before scope place) :
    good success.value ∧ after success.scope success.position := by
  obtain ⟨-, granted, hending⟩ := hmatches
  obtain ⟨verdict, hverdict, hkept⟩ :=
    hkeeps (granted + 1) granted scope place (Nat.lt_succ_self _) hplace hbefore
  cases hending.symm.trans hverdict
  exact hkept

end Pattern

namespace Position.Leads

/-- A place that is reached from the start of the text is in the text. -/
theorem offset_le_length {text : List Char} {place : Position}
    (hleads : Position.start.Leads text place) : place.offset ≤ text.length := by
  have hmax := hleads.offset_le_max
  rwa [Position.start, Nat.zero_max] at hmax

/-- What is passed over on the way stands between the two places. -/
theorem split {text : String} {place later : Position} {rest : List Char}
    (hleads : place.Leads text.toList later) (hsees : place.Sees text rest) :
    ∃ run after, rest = run ++ after ∧ later = place.past run ∧ later.Sees text after := by
  obtain ⟨run, ⟨after, hafter⟩, rfl⟩ := hleads
  have hrest : rest = run ++ after := (Eq.trans hafter hsees).symm
  rw [hrest] at hsees
  exact ⟨run, after, hrest, rfl, hsees.past⟩

theorem line_le {text : List Char} {place later : Position} (hleads : place.Leads text later) :
    place.line ≤ later.line := by
  obtain ⟨run, -, rfl⟩ := hleads
  rw [Position.line_past]
  exact Nat.le_add_right _ _

end Position.Leads

/-- Characters are passed over between two places of a text. -/
def Position.Passes (text : String) (place : Position) (run : List Char) (later : Position) :
    Prop :=
  ∃ after, place.Sees text (run ++ after) ∧ later = place.past run

namespace Position

theorem Passes.append {run further : List Char} {later : Position}
    (hpasses : place.Passes text run later) (hfurther : later.Passes text further stop) :
    place.Passes text (run ++ further) stop := by
  obtain ⟨after, hsees, rfl⟩ := hpasses
  obtain ⟨last, hlater, rfl⟩ := hfurther
  have hafter : after = further ++ last := Eq.trans (Eq.symm hsees.past) hlater
  rw [hafter, ← List.append_assoc] at hsees
  exact ⟨last, hsees, (Position.past_append ..).symm⟩

theorem Passes.leads {run : List Char} (hpasses : place.Passes text run stop) :
    place.Leads text.toList stop := by
  obtain ⟨after, hsees, rfl⟩ := hpasses
  exact ⟨run, ⟨after, hsees.symm⟩, rfl⟩

end Position

/-- Values that are taken one after the other on the way from one place to another. -/
inductive Trail (text : List Char) (took : Position → Value → Position → Prop) :
    Position → List Value → Position → Prop
  | nil {place stop : Position} (rest : place.Leads text stop) : Trail text took place [] stop
  | cons {place here there stop : Position} {value : Value} {values : List Value}
      (gap : place.Leads text here) (took_value : took here value there)
      (rest : Trail text took there values stop) : Trail text took place (value :: values) stop

namespace Trail

variable {characters : List Char} {took further : Position → Value → Position → Prop}

theorem before {earlier : Position} (hgap : earlier.Leads characters place)
    (htrail : Trail characters took place values stop) :
    Trail characters took earlier values stop := by
  cases htrail with
  | nil rest => exact .nil (hgap.trans rest)
  | cons gap took_value rest => exact .cons (hgap.trans gap) took_value rest

theorem after {later : Position} (htrail : Trail characters took place values stop)
    (hrest : stop.Leads characters later) : Trail characters took place values later := by
  induction htrail with
  | nil rest => exact .nil (rest.trans hrest)
  | cons gap took_value _ ih => exact .cons gap took_value (ih hrest)

theorem append {middle : Position} {others : List Value}
    (hfirst : Trail characters took place values middle)
    (hrest : Trail characters took middle others stop) :
    Trail characters took place (values ++ others) stop := by
  induction hfirst with
  | nil gap => exact hrest.before gap
  | cons gap took_value _ ih => exact .cons gap took_value (ih hrest)

theorem leads (htrail : Trail characters took place values stop)
    (hleads : ∀ here value there, took here value there → here.Leads characters there) :
    place.Leads characters stop := by
  induction htrail with
  | nil rest => exact rest
  | cons gap took_value _ ih => exact (gap.trans (hleads _ _ _ took_value)).trans ih

/-- Every value of a trail was taken somewhere on the way. -/
theorem exists_took (htrail : Trail characters took place values stop)
    (hleads : ∀ here value there, took here value there → here.Leads characters there) :
    ∀ value ∈ values, ∃ here there, place.Leads characters here ∧ took here value there := by
  induction htrail with
  | nil => exact List.forall_mem_nil _
  | cons gap took_value rest ih =>
      refine List.forall_mem_cons.mpr ⟨⟨_, _, gap, took_value⟩, fun value hvalue => ?_⟩
      obtain ⟨here, there, hgap, htook⟩ := ih value hvalue
      exact ⟨here, there, (gap.trans (hleads _ _ _ took_value)).trans hgap, htook⟩

theorem mono (htrail : Trail characters took place values stop)
    (hfurther : ∀ here value there, took here value there → further here value there) :
    Trail characters further place values stop := by
  induction htrail with
  | nil rest => exact .nil rest
  | cons gap took_value _ ih => exact .cons gap (hfurther _ _ _ took_value) ih

/-- What is known of each value from where it was taken. -/
theorem along {start : Position} (htrail : Trail characters took place values stop)
    (hstart : start.Leads characters place)
    (hleads : ∀ here value there, took here value there → here.Leads characters there)
    (hfurther : ∀ here value there, start.Leads characters here → took here value there →
      further here value there) :
    Trail characters further place values stop := by
  induction htrail with
  | nil rest => exact .nil rest
  | cons gap took_value _ ih =>
      have hhere := hstart.trans gap
      exact .cons gap (hfurther _ _ _ hhere took_value)
        (ih (hhere.trans (hleads _ _ _ took_value)))

end Trail

/-- Values that are taken one right after the other, from one place to another. -/
inductive Chained (took : Position → Value → Position → Prop) :
    Position → List Value → Position → Prop
  | nil {place : Position} : Chained took place [] place
  | cons {here there stop : Position} {value : Value} {values : List Value}
      (took_value : took here value there) (rest : Chained took there values stop) :
      Chained took here (value :: values) stop

namespace Chained

variable {characters : List Char} {took further : Position → Value → Position → Prop}

theorem trail (hchained : Chained took place values stop) :
    Trail characters took place values stop := by
  induction hchained with
  | nil => exact .nil (.refl _ _)
  | cons took_value _ ih => exact .cons (.refl _ _) took_value ih

theorem along {start : Position} (hchained : Chained took place values stop)
    (hstart : start.Leads characters place)
    (hleads : ∀ here value there, took here value there → here.Leads characters there)
    (hfurther : ∀ here value there, start.Leads characters here → took here value there →
      further here value there) :
    Chained further place values stop := by
  induction hchained with
  | nil => exact .nil
  | cons took_value _ ih =>
      exact .cons (hfurther _ _ _ hstart took_value)
        (ih (hstart.trans (hleads _ _ _ took_value)))

theorem forall_mem {good : Value → Prop} (hchained : Chained took place values stop)
    (hgood : ∀ here value there, took here value there → good value) :
    ∀ value ∈ values, good value := by
  induction hchained with
  | nil => exact List.forall_mem_nil _
  | cons took_value _ ih => exact List.forall_mem_cons.mpr ⟨hgood _ _ _ took_value, ih⟩

end Chained

/-- The rounds of a repetition without separators are chained, if every round takes a value
on and keeps what is assumed of the scope and of the place. -/
theorem Series.chained {most : Option Nat} {count : Nat}
    {took : Position → Value → Position → Prop} {holds : Condition}
    (hpart : ∀ scope place success, holds scope place → part.Matches text scope place success →
      took place success.value success.position ∧ holds success.scope success.position)
    (hseries : Series text part none most count scope place values stop inner)
    (hholds : holds scope place) : Chained took place values stop := by
  have hround {count : Nat} {scope inner : Scope} {place stop : Position} {front : List Value}
      {value : Value} (hholds : holds scope place)
      (hrow : RowMatches text (dueAfter none count ++ [part]) scope place (front ++ [value]) stop
        inner) : took place value stop ∧ holds inner stop := by
    obtain ⟨-, hmatched⟩ := rowMatches_part_iff.mp hrow
    exact hpart _ _ _ hholds hmatched
  induction hseries with
  | full => exact .nil
  | missed => exact .nil
  | still _ hrow _ => exact .cons (hround hholds hrow).1 .nil
  | moved _ hrow _ _ ih =>
      obtain ⟨htook, hafter⟩ := hround hholds hrow
      exact .cons htook (ih hafter)

/-- The rounds of a repetition leave a trail, if every round takes a value on and keeps
what is assumed of the scope and of the place. -/
theorem Series.trail {separator : Option Pattern} {most : Option Nat} {count : Nat}
    {took : Position → Value → Position → Prop} {holds : Condition}
    (hpart : ∀ scope place success, holds scope place → part.Matches text scope place success →
      took place success.value success.position ∧ holds success.scope success.position)
    (hseparator : ∀ between ∈ separator, ∀ scope place success, holds scope place →
      between.Matches text scope place success → holds success.scope success.position)
    (hseries : Series text part separator most count scope place values stop inner)
    (hholds : holds scope place) :
    Trail text.toList took place values stop ∧ holds inner stop := by
  have hround {count : Nat} {scope inner : Scope} {place stop : Position} {front : List Value}
      {value : Value} (hholds : holds scope place)
      (hrow : RowMatches text (dueAfter separator count ++ [part]) scope place
        (front ++ [value]) stop inner) :
      (∃ here, place.Leads text.toList here ∧ took here value stop) ∧ holds inner stop := by
    cases count with
    | zero =>
        obtain ⟨-, hmatched⟩ := rowMatches_first_iff.mp hrow
        obtain ⟨htook, hafter⟩ := hpart _ _ _ hholds hmatched
        exact ⟨⟨place, .refl _ _, htook⟩, hafter⟩
    | succ count =>
        cases separator with
        | none =>
            obtain ⟨-, hmatched⟩ := rowMatches_part_iff.mp hrow
            obtain ⟨htook, hafter⟩ := hpart _ _ _ hholds hmatched
            exact ⟨⟨place, .refl _ _, htook⟩, hafter⟩
        | some between =>
            obtain ⟨due, hdue, -, hmatched⟩ := rowMatches_later_iff.mp hrow
            have hready := hseparator between rfl _ _ _ hholds hdue
            obtain ⟨htook, hafter⟩ := hpart _ _ _ hready hmatched
            exact ⟨⟨due.position, hdue.leads, htook⟩, hafter⟩
  induction hseries with
  | full => exact ⟨.nil (.refl _ _), hholds⟩
  | missed => exact ⟨.nil (.refl _ _), hholds⟩
  | still _ hrow _ =>
      obtain ⟨⟨here, hgap, htook⟩, hafter⟩ := hround hholds hrow
      exact ⟨.cons hgap htook (.nil (.refl _ _)), hafter⟩
  | moved _ hrow _ _ ih =>
      obtain ⟨⟨here, hgap, htook⟩, hafter⟩ := hround hholds hrow
      obtain ⟨hrest, hlast⟩ := ih hafter
      exact ⟨.cons hgap htook hrest, hlast⟩

end ScopedGrammar
