/-
# What it takes to stop

Over a complete text, a pattern that neither matches nor misses stops for good. It begins with
a demand that is not met, which complains where it stands, and nothing around it gets a chance
to try something else: a row stops at its first part that stops, a choice at its first option
that does not miss, a repetition in its first round that stops, and whatever wraps a pattern
stops as that pattern does. The statements go in this direction only, since they serve to
trace one complaint up to the parse that it ends.
-/

import ScopedGrammar.Proofs.Fault.Placement
import ScopedGrammar.Proofs.Grammar.Parses
import ScopedGrammar.Proofs.Match.Repetition

namespace ScopedGrammar

variable {α β : Type} {text : String} {reason : Halt} {scope inner : Scope}
  {place stop : Position} {success : Match}

/-- A pattern stops for a reason, given enough steps. -/
def Pattern.Stops (text : String) (pattern : Pattern) (scope : Scope) (place : Position)
    (reason : Halt) : Prop :=
  Comes text (fun granted => pattern.run granted scope place) (.halted reason)

/-- A form stops for a reason, given enough steps. -/
def Form.Stops (text : String) (shape : Form) (scope : Scope) (place : Position)
    (reason : Halt) : Prop :=
  Comes text (fun granted => Match.form (Pattern.run granted) granted shape scope place)
    (.halted reason)

/-- One of several patterns in a row stops for a reason, given enough steps. -/
def RowHalts (text : String) (parts : List Pattern) (scope : Scope) (place : Position)
    (reason : Halt) : Prop :=
  Comes text (fun granted => Match.allOf (Pattern.run granted) parts scope place)
    (.halted reason)

theorem comes_bind_halted_of_first {first : Nat → Attempt Silence α}
    {next : Nat → α → Attempt Silence β} (hhalted : Comes text first (.halted reason)) :
    Comes text (fun granted => first granted >>= next granted) (.halted reason) := by
  obtain ⟨hreason, granted, hending⟩ := hhalted
  exact ⟨hreason, granted, Attempt.andThen_eq_halted_iff.mpr (.inl hending)⟩

theorem comes_bind_halted_of_next {first : Nat → Attempt Silence α}
    {next : Nat → α → Attempt Silence β} (hfirst : Steady first)
    (hnext : ∀ result, Steady fun granted => next granted result) {middle : α}
    (hmiddle : Comes text first (.matched middle))
    (hhalted : Comes text (fun granted => next granted middle) (.halted reason)) :
    Comes text (fun granted => first granted >>= next granted) (.halted reason) := by
  obtain ⟨enough, henough⟩ := hmiddle.eventually hfirst
  obtain ⟨further, hfurther⟩ := hhalted.eventually (hnext middle)
  refine ⟨hhalted.1, max enough further, Attempt.andThen_eq_halted_iff.mpr (.inr ?_)⟩
  exact ⟨middle, _, henough _ (Nat.le_max_left _ _), hfurther _ (Nat.le_max_right _ _)⟩

section Rows

variable {part : Pattern} {parts : List Pattern}

theorem rowHalts_of_first (hstops : part.Stops text scope place reason) :
    RowHalts text (part :: parts) scope place reason :=
  comes_bind_halted_of_first hstops

theorem rowHalts_of_rest (hfirst : part.Matches text scope place success)
    (hstops : RowHalts text parts success.scope success.position reason) :
    RowHalts text (part :: parts) scope place reason :=
  comes_bind_halted_of_next (.run part scope place) (steady_after_first parts) hfirst
    (comes_bind_halted_of_first hstops)

end Rows

section Rounds

variable {part : Pattern} {separator : Option Pattern} {most : Option Nat}

/-- Some rounds of a repetition move on, and then one stops. -/
inductive Broken (text : String) (part : Pattern) (separator : Option Pattern)
    (most : Option Nat) (reason : Halt) : Nat → Scope → Position → Prop
  | now {count : Nat} {scope : Scope} {place : Position} (open_ : ¬ FullAt most count)
      (stops : RowHalts text (dueAfter separator count ++ [part]) scope place reason) :
      Broken text part separator most reason count scope place
  | later {count : Nat} {scope within : Scope} {place middle : Position} {front : List Value}
      {value : Value} (open_ : ¬ FullAt most count)
      (row : RowMatches text (dueAfter separator count ++ [part]) scope place
        (front ++ [value]) middle within)
      (moved : middle.offset ≠ place.offset)
      (rest : Broken text part separator most reason (count + 1) within middle) :
      Broken text part separator most reason count scope place

/-- A round without a separator is its part. -/
theorem rowHalts_part {count : Nat} (hstops : part.Stops text scope place reason) :
    RowHalts text (dueAfter none count ++ [part]) scope place reason := by
  rw [dueAfter_none]
  exact rowHalts_of_first hstops

namespace Match

/-- Broken rounds are what a repetition comes to, given enough steps. -/
theorem rounds_of_broken {tally : Tally}
    (hbroken : Broken text part separator most reason tally.parts.size tally.scope
      tally.position) :
    reason.isExhausted = false ∧ ∃ enough, ∀ granted turns, enough ≤ granted → enough ≤ turns →
      rounds (Pattern.run granted) part separator most (turns + 1) tally
        (Input.ofText text) = (.halted reason, Input.ofText text) := by
  generalize hcount : tally.parts.size = count at hbroken
  generalize hscope : tally.scope = scope at hbroken
  generalize hplace : tally.position = place at hbroken
  induction hbroken generalizing tally with
  | now hopen hstops =>
      subst hcount hscope hplace
      obtain ⟨enough, henough⟩ := Comes.eventually hstops (.allOf _ _ _)
      exact ⟨hstops.1, enough,
        fun granted turns hgranted _ => rounds_of_halted hopen (henough granted hgranted)⟩
  | @later _ _ within _ middle front value hopen hrow hmoved hrest ih =>
      subst hcount hscope hplace
      obtain ⟨enough, henough⟩ := Comes.eventually hrow (.allOf _ _ _)
      have hsize : (tally.withRow (front ++ [value], middle, within)).parts.size =
          tally.parts.size + 1 := Array.size_push _
      obtain ⟨hreason, further, hfurther⟩ := ih hsize rfl rfl
      refine ⟨hreason, max enough further + 1, fun granted turns hgranted hturns => ?_⟩
      obtain ⟨turns, rfl⟩ := Nat.exists_eq_add_of_le' (Nat.le_trans (Nat.le_add_left 1 _) hturns)
      rw [rounds_of_row hopen (henough granted (by omega)), if_neg hmoved]
      exact hfurther granted turns (by omega) (by omega)

end Match

/-- A repetition stops in a round. -/
theorem Form.repetition_stops {low : Nat} {lower : Term} {upper : Option Term}
    {keepSeparators : Bool}
    (hbounds : Match.resolveBounds scope lower upper = .ok (low, most))
    (hbroken : Broken text part separator most reason 0 scope place) :
    (Form.repetition part lower upper separator keepSeparators).Stops text scope place
      reason := by
  have hnothing : Broken text part separator most reason
      (Match.Tally.mk #[] #[] place scope).parts.size scope place := hbroken
  obtain ⟨hreason, enough, hrounds⟩ := Match.rounds_of_broken hnothing
  refine ⟨hreason, enough + 1, ?_⟩
  show Match.form (Pattern.run (enough + 1)) (enough + 1) _ scope place _ = _
  rw [Match.form_repetition_eq hbounds]
  exact Attempt.andThen_eq_halted_iff.mpr
    (.inl (hrounds (enough + 1) enough (Nat.le_succ enough) (Nat.le_refl enough)))

end Rounds

/-- The complaint of a demand that is not met at a place of a text. -/
def complaint (text : String) (message : Message) (scope : Scope) (place : Position) :
    Diagnostic :=
  (Diagnostic.expected (message.render scope place (Input.ofText text)).1 place
    (Input.ofText text)).1

theorem message_complaint (text : String) (message : Message) (scope : Scope) (place : Position) :
    (complaint text message scope place).message =
      (message.render scope place (Input.ofText text)).1 :=
  Diagnostic.message_raise _ _ _ _

theorem position_complaint (text : String) (message : Message) (scope : Scope)
    (place : Position) : (complaint text message scope place).position = place :=
  Diagnostic.position_raise _ _ _ _

theorem Match.complain_ofText (text : String) (message : Message) (scope : Scope)
    (place : Position) :
    Match.complain message scope place (Input.ofText text) =
      (.halted (.diagnostic (complaint text message scope place)), Input.ofText text) := by
  have hrendered : (message.render scope place (Input.ofText text)).2 = Input.ofText text :=
    (growing_renderPieces scope place message.pieces (Input.ofText text)).settled rfl
  have hraised := (growing_raise .expected (message.render scope place (Input.ofText text)).1
    place (Input.ofText text)).settled rfl
  have hcomplain : Match.complain message scope place (Input.ofText text) =
      (.halted (.diagnostic (Diagnostic.expected (message.render scope place (Input.ofText text)).1
          place (message.render scope place (Input.ofText text)).2).1),
        (Diagnostic.expected (message.render scope place (Input.ofText text)).1
          place (message.render scope place (Input.ofText text)).2).2) := rfl
  rw [hcomplain, hrendered, complaint]
  exact congrArg _ hraised

namespace Form

variable {option : Pattern} {options : List Pattern}

/-- A demand that is not met complains. -/
theorem demand_stops {message : Message} (hmisses : option.Misses text scope place) :
    (Form.demand option message).Stops text scope place
      (.diagnostic (complaint text message scope place)) := by
  obtain ⟨-, granted, hmissed⟩ := hmisses
  exact ⟨rfl, granted, Attempt.orElse_eq_iff.mpr
    (.inl ⟨_, hmissed, Match.complain_ofText text message scope place⟩)⟩

theorem sequence_stops {parts : List Pattern} {picks : Option (List Nat)}
    (hstops : RowHalts text parts scope place reason) :
    (Form.sequence parts picks).Stops text scope place reason :=
  comes_bind_halted_of_first hstops

theorem choice_stops_of_first (hstops : option.Stops text scope place reason) :
    (Form.choice (option :: options)).Stops text scope place reason := by
  obtain ⟨hreason, granted, hending⟩ := hstops
  have hrun : option.run granted scope place (Input.ofText text) = _ := hending
  refine ⟨hreason, granted, Attempt.orElse_eq_iff.mpr (.inr ⟨hrun, fun between => ?_⟩)⟩
  rw [hrun]
  simp

theorem choice_stops_of_rest (hfirst : option.Misses text scope place)
    (hrest : (Form.choice options).Stops text scope place reason) :
    (Form.choice (option :: options)).Stops text scope place reason := by
  obtain ⟨enough, henough⟩ := Comes.eventually hfirst (.run option scope place)
  obtain ⟨further, hfurther⟩ := Comes.eventually hrest (.firstOf options scope place)
  refine ⟨hrest.1, max enough further, Attempt.orElse_eq_iff.mpr (.inl ?_)⟩
  exact ⟨_, henough _ (Nat.le_max_left _ _), hfurther _ (Nat.le_max_right _ _)⟩

theorem overlay_stops {bindings : List (String × Term)} {frame : Frame}
    (hframe : scope.resolveAll bindings = .ok frame)
    (hstops : option.Stops text (scope.push frame) place reason) :
    (Form.overlay option bindings).Stops text scope place reason := by
  obtain ⟨hreason, granted, hending⟩ := hstops
  refine ⟨hreason, granted, ?_⟩
  simp only [Match.form, hframe, Attempt.bind_eq_andThen, Attempt.andThen_eq_halted_iff]
  exact .inr ⟨frame, _, rfl, Attempt.andThen_eq_halted_iff.mpr (.inl hending)⟩

theorem reference_stops {term : Term} {rule : Pattern}
    (hrule : term.resolve scope = .ok (.rule rule)) (hstops : rule.Stops text scope place reason) :
    (Form.reference term).Stops text scope place reason := by
  obtain ⟨hreason, granted, hending⟩ := hstops
  refine ⟨hreason, granted, ?_⟩
  simp only [Match.form, hrule, Match.follow, Match.keepScope, Attempt.bind_eq_andThen,
    Attempt.andThen_eq_halted_iff]
  exact .inr ⟨_, _, rfl, Attempt.andThen_eq_halted_iff.mpr (.inl hending)⟩

end Form

namespace Pattern

variable {pattern rule : Pattern} {name : String}

/-- A factory does not change whether a pattern stops. -/
theorem stops_iff :
    pattern.Stops text scope place reason ↔ pattern.form.Stops text scope place reason := by
  refine comes_run_iff.trans ⟨?_, comes_bind_halted_of_first⟩
  rintro ⟨hreason, granted, hending⟩
  rcases Attempt.andThen_eq_halted_iff.mp hending with hhalted | ⟨raw, between, -, hpure⟩
  · exact ⟨hreason, granted, hhalted⟩
  · cases hpure

theorem stops_of_form (hstops : pattern.form.Stops text scope place reason) :
    pattern.Stops text scope place reason :=
  stops_iff.mpr hstops

theorem stops_of_row {parts : List Pattern} {picks : Option (List Nat)}
    (hform : pattern.form = .sequence parts picks)
    (hrow : RowHalts text parts scope place reason) : pattern.Stops text scope place reason := by
  apply stops_of_form
  rw [hform]
  exact Form.sequence_stops hrow

theorem Stops.not_misses (hstops : pattern.Stops text scope place reason) :
    ¬ pattern.Misses text scope place := by
  intro hmisses
  cases Comes.unique hstops hmisses (.run pattern scope place)

theorem Stops.not_matches (hstops : pattern.Stops text scope place reason) :
    ¬ pattern.Matches text scope place success := by
  intro hmatches
  cases Comes.unique hstops hmatches (.run pattern scope place)

/-- A label does not change whether a pattern stops. -/
theorem labelled_stops (label : String) (hstops : pattern.Stops text scope place reason) :
    (pattern.labelled label).Stops text scope place reason := by
  have hform := stops_iff.mp hstops
  exact stops_iff.mpr hform

/-- A name that means a rule stops as the rule does. -/
theorem named_stops (hrule : scope.rule? name = some rule)
    (hstops : rule.Stops text scope place reason) :
    (named name).Stops text scope place reason :=
  stops_of_form (Form.reference_stops (resolve_name hrule) hstops)

end Pattern

/-- Where the start rule stops, a parse that is granted enough steps ends with the reason. -/
theorem Ranking.parse_eq_error {ranking : Ranking} {definitions : Frame} {start : String}
    {promised : Entry} {granted : Nat}
    (hadmits : ranking.admitsDefinitions definitions = true)
    (hentry : ranking.promise? start = some promised)
    (hgranted : ranking.limit * (text.length + 1) ≤ granted) {rule : Pattern}
    (hrule : (Grammar.ofDefinitions definitions start).scope.rule? start = some rule)
    (hstops : rule.Stops text (Grammar.ofDefinitions definitions start).scope
      Position.start reason) :
    (Grammar.ofDefinitions definitions start).parse granted text = .error reason := by
  obtain ⟨other, hother, hkeeps⟩ := ranking.rule_of_entry hadmits hentry
  cases hrule.symm.trans hother
  have hrun : (rule.run granted (Grammar.ofDefinitions definitions start).scope
      Position.start (Input.ofText text)).1.isExhausted = false :=
    ranking.run_not_exhausted (ranking.ranks_ofDefinitions start hadmits) hkeeps.admitted
      (Nat.zero_le _) hgranted
  have hhalted := Comes.eq_of_run hstops (.run rule _ Position.start) hrun
  rw [Grammar.parse_eq hrule, hhalted]

end ScopedGrammar
