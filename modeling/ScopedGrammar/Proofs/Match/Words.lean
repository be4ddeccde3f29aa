/-
# Matching in words

A checked match goes the way of the unbounded one, step by step, until a line or a column leaves
its word. So it has the same verdict over the same input, or it halts with an overflow. Over a
text with room enough from the start of the match on, it always has the same verdict. There is
room from the start of every text that is shorter than the bound by two characters or more.

Where only the unbounded match is spoken of, this is what carries over to programs: whatever it
comes to, the checked one comes to as well, unless it overflows.
-/

import ScopedGrammar.Grammar.Basic
import ScopedGrammar.Proofs.Input.Words
import ScopedGrammar.Proofs.Match.Parallel

namespace ScopedGrammar

variable {π : Type} [Producer π]

omit [Producer π] in
/-- What comes after a check happens, or the check halts. -/
theorem Match.keepWords_andThen {α : Type} (place stop : Position) (next : Unit → Attempt π α)
    (input : Input π) :
    (Match.keepWords place stop).andThen next input =
      if (place.past? (input.slice place.offset stop.offset).toList).isSome then next () input
      else (.halted .overflow, input) := by
  rw [keepWords, Attempt.bind_eq_andThen, Attempt.andThen, Attempt.andThen, Attempt.read]
  dsimp only
  by_cases hwords : (place.past? (input.slice place.offset stop.offset).toList).isSome
  · rw [if_pos hwords, if_pos hwords]
    rfl
  · rw [if_neg hwords, if_neg hwords]
    rfl

/-- The accord of a checked match with the unbounded one, over inputs and at positions of which
something is kept. The checked match may have halts that are excused. -/
def Accord.checking (kept : Input π → Prop) (within : Position → Prop) (excuses : Halt → Prop) :
    Accord π π :=
  .overInputs (fun input other => input = other ∧ kept input)
    (fun place other => place = other ∧ within place) Eq excuses

namespace Accord

/-- What is kept of inputs and positions stays so in the course of a match, and where it holds, a
way that leaves the words is excused. -/
structure Keeps (kept : Input π → Prop) (within : Position → Prop) (excuses : Halt → Prop) :
    Prop where
  grows : ∀ {input later : Input π}, input.GrowsTo later → kept input → kept later
  advance : ∀ {place : Position} {input : Input π}, within place → kept input → ∀ count,
    within (place.advance count input).1
  words : ∀ {place stop : Position} {input : Input π}, within place → kept input →
    (place.past? (input.slice place.offset stop.offset).toList).isSome ∨ excuses .overflow

variable {kept : Input π → Prop} {within : Position → Prop} {excuses : Halt → Prop}

theorem reads_checking (hkeeps : Keeps kept within excuses) :
    (checking kept within excuses).Reads := by
  refine reads_overInputs And.left rfl ?_ ?_
  · rintro place input _ - ⟨rfl, hkept⟩ ahead
    exact ⟨rfl, rfl, hkeeps.grows (growing_charAt _ input) hkept⟩
  · rintro place input _ ⟨-, hwithin⟩ ⟨rfl, hkept⟩ count
    exact ⟨rfl, ⟨rfl, hkeeps.advance hwithin hkept count⟩, rfl,
      hkeeps.grows (growing_capture place count input) hkept⟩

theorem scopes_checking (hkeeps : Keeps kept within excuses) :
    (checking kept within excuses).Scopes := by
  refine scopes_overInputs And.left (fun _ => rfl) rfl fun message scope {place} _ => ?_
  refine complain_overInputs ?_ ?_
  · rintro input _ ⟨rfl, hkept⟩
    exact ⟨rfl, rfl, hkeeps.grows (growing_renderPieces scope place message.pieces input) hkept⟩
  · rintro text input _ ⟨rfl, hkept⟩
    exact ⟨rfl, rfl, hkeeps.grows (growing_raise .expected text place input) hkept⟩

/-- To check the way of a match makes no difference to what comes after, or is excused. -/
theorem inStep_keepWords (hkeeps : Keeps kept within excuses) {place stop : Position}
    (hwithin : within place) {α β : Type} {results : α → β → Prop} {attempt : Attempt π α}
    {other : Attempt π β} (hstep : (checking kept within excuses).InStep results attempt other) :
    (checking kept within excuses).InStep results
      (Match.keepWords place stop >>= fun _ => attempt) other := by
  intro input otherInput hinputs
  rw [Attempt.bind_eq_andThen, Match.keepWords_andThen]
  split
  next => exact hstep hinputs
  next hout => exact .excused ((hkeeps.words hwithin hinputs.2).resolve_left hout)

/-- A checked match goes the way of the unbounded one. -/
theorem matchers_checking (hkeeps : Keeps kept within excuses) (granted : Nat) :
    (checking kept within excuses).Matchers (Pattern.checkedRun granted) (Pattern.run granted) := by
  have hreads := reads_checking hkeeps
  have hscopes := scopes_checking hkeeps
  induction granted with
  | zero => exact fun _ _ _ _ _ _ _ _ _ => InStep.halt rfl
  | succ granted ih =>
      rintro pattern _ scope _ place _ rfl rfl ⟨rfl, hwithin⟩
      refine .bind (inStep_form hreads hscopes ih rfl (forms_overInputs pattern.form) rfl
        ⟨rfl, hwithin⟩) ?_
      rintro raw other ⟨hvalues, hplaces, hinner⟩
      refine inStep_keepWords hkeeps hwithin (.succeed ⟨?_, hplaces, hinner⟩)
      exact congrArg pattern.finishValue hvalues

omit [Producer π] in
/-- Ends that are in this accord are the same, or the checked one is excused. -/
theorem eq_or_excused_of_checking {ending other : Verdict Match × Input π}
    (hends : (checking kept within excuses).Ends
      (checking kept within excuses).Successes ending other) :
    ending = other ∨ ∃ reason, excuses reason ∧ ending.1 = .halted reason := by
  cases hends with
  | @matched success otherSuccess input otherInput hresults hinputs =>
      obtain ⟨value, place, scope⟩ := success
      obtain ⟨otherValue, otherPlace, otherScope⟩ := otherSuccess
      obtain ⟨rfl, ⟨rfl, -⟩, rfl⟩ := hresults
      obtain ⟨rfl, -⟩ := hinputs
      exact .inl rfl
  | missed hinputs =>
      obtain ⟨rfl, -⟩ := hinputs
      exact .inl rfl
  | halted hhalts hinputs =>
      obtain rfl := hhalts
      obtain ⟨rfl, -⟩ := hinputs
      exact .inl rfl
  | excused hexcused => exact .inr ⟨_, hexcused, rfl⟩
  | pardoned hpardoned => cases hpardoned

theorem checkedRun_eq_or_excused (hkeeps : Keeps kept within excuses) (granted : Nat)
    (pattern : Pattern) (scope : Scope) {place : Position} {input : Input π}
    (hplace : within place) (hinput : kept input) :
    pattern.checkedRun granted scope place input = pattern.run granted scope place input ∨
      ∃ reason, excuses reason ∧
        (pattern.checkedRun granted scope place input).1 = .halted reason := by
  have hmatchers := matchers_checking hkeeps granted
  exact eq_or_excused_of_checking (hmatchers rfl rfl ⟨rfl, hplace⟩ ⟨rfl, hinput⟩)

end Accord

/-- A checked match has the verdict of the unbounded one, or it halts with an overflow. -/
theorem Pattern.checkedRun_eq_or_overflow (granted : Nat) (pattern : Pattern) (scope : Scope)
    (place : Position) (input : Input π) :
    pattern.checkedRun granted scope place input = pattern.run granted scope place input ∨
      (pattern.checkedRun granted scope place input).1 = .halted .overflow := by
  have hkeeps : Accord.Keeps (π := π) (fun _ => True) (fun _ => True) (· = .overflow) :=
    ⟨fun _ _ => trivial, fun _ _ _ => trivial, fun _ _ => .inr rfl⟩
  rcases Accord.checkedRun_eq_or_excused hkeeps granted pattern scope trivial trivial with
    hsame | ⟨reason, rfl, hhalted⟩
  · exact .inl hsame
  · exact .inr hhalted

/-- Where there is room for the rest of the text, a checked match is the unbounded one. -/
theorem Pattern.checkedRun_eq_of_hasRoom (granted : Nat) (pattern : Pattern) (scope : Scope)
    {place : Position} {text : String} (hroom : place.HasRoom text) :
    pattern.checkedRun granted scope place (Input.ofText text) =
      pattern.run granted scope place (Input.ofText text) := by
  have hkeeps : Accord.Keeps (· = Input.ofText text) (Position.HasRoom text) fun _ => False := by
    refine ⟨?_, ?_, ?_⟩
    · rintro _ later hgrows rfl
      exact hgrows.settled rfl
    · rintro place _ hplace rfl count
      exact hplace.advance count
    · rintro place stop _ hplace rfl
      refine .inl (hplace.isSome_past? ?_)
      rw [Input.toList_slice, Input.toList_buffer_ofText, List.length_take, List.length_drop,
        String.length_toList]
      exact Nat.min_le_right _ _
  rcases Accord.checkedRun_eq_or_excused hkeeps granted pattern scope hroom rfl with
    hsame | ⟨reason, hexcused, -⟩
  · exact hsame
  · cases hexcused

/-- From the start of a text nothing leaves the words, as long as the text has no more characters
than lines and columns can count. -/
theorem Pattern.checkedRun_eq_of_start (granted : Nat) (pattern : Pattern) (scope : Scope)
    {text : String} (hfits : text.length + 1 < offsetBound) :
    pattern.checkedRun granted scope Position.start (Input.ofText text) =
      pattern.run granted scope Position.start (Input.ofText text) :=
  pattern.checkedRun_eq_of_hasRoom granted scope (Position.hasRoom_start hfits)

/-- A parse that is not reported to overflow has a checked match with the verdict of its own. -/
theorem Run.checkedRun_eq_of_overflows {run : Run} {granted : Nat} {input : Input π}
    {rule : Pattern} (hrule : run.scope.rule? run.start = some rule)
    (hoverflows : run.overflows granted input = false) :
    rule.checkedRun granted run.scope run.position input =
      rule.run granted run.scope run.position input := by
  refine (rule.checkedRun_eq_or_overflow granted run.scope run.position input).resolve_right ?_
  intro hhalted
  rw [overflows, hrule] at hoverflows
  dsimp only at hoverflows
  rw [hhalted] at hoverflows
  cases hoverflows

end ScopedGrammar
