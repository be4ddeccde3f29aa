/-
# Repetitions unrolled

A repetition does what its rounds do when they are written out one after the other: part,
separator, part, and so on. How many rounds there are is decided greedily. Another round is
made as long as there may be one, the round before has moved, and the separator with the part
after it match; a round that does not come off leaves neither characters nor bindings behind.

The rounds are told for one matcher and one input, which may still grow, so that the parts of
a repetition and of the sequence that spells it out are asked in the same states.
-/

import ScopedGrammar.Proofs.Match.Repetition

namespace ScopedGrammar

variable {π : Type} [Producer π]

/-- Patterns match one after the other, from one spot to another. -/
def RowLeads (matcher : Matcher π) (parts : List Pattern) (here : Spot π)
    (values : List Value) (there : Spot π) : Prop :=
  Match.allOf matcher parts here.scope here.position here.input =
    (.matched (values, there.position, there.scope), there.input)

/-- One of several patterns in a row misses. -/
def RowStops (matcher : Matcher π) (parts : List Pattern) (here : Spot π)
    (after : Input π) : Prop :=
  Match.allOf matcher parts here.scope here.position here.input = (.missed, after)

namespace RowLeads

variable {matcher : Matcher π} {first second : List Pattern} {here middle there : Spot π}
  {values others : List Value}

omit [Producer π] in
theorem nil_iff : RowLeads matcher [] here values there ↔ values = [] ∧ there = here := by
  obtain ⟨scope, place, input⟩ := here
  obtain ⟨inner, stop, after⟩ := there
  simp only [RowLeads, Match.allOf, Attempt.pure_eq_succeed, Attempt.succeed_eq_matched_iff]
  constructor
  · rintro ⟨hresult, rfl⟩
    cases hresult
    exact ⟨rfl, rfl⟩
  · rintro ⟨rfl, hthere⟩
    cases hthere
    exact ⟨rfl, rfl⟩

omit [Producer π] in
theorem cons_iff {part : Pattern} {rest : List Pattern} :
    RowLeads matcher (part :: rest) here values there ↔
      ∃ success between others,
        matcher part here.scope here.position here.input = (.matched success, between) ∧
          RowLeads matcher rest ⟨success.scope, success.position, between⟩ others there ∧
          values = success.value :: others := by
  simp only [RowLeads, Match.allOf, Attempt.bind_eq_andThen, Attempt.pure_eq_succeed,
    Attempt.andThen_eq_matched_iff, Attempt.succeed_eq_matched_iff]
  constructor
  · rintro ⟨success, between, hfirst, ⟨others, stop, inner⟩, last, hrest, hresult, rfl⟩
    cases hresult
    exact ⟨success, between, others, hfirst, hrest, rfl⟩
  · rintro ⟨success, between, others, hfirst, hrest, rfl⟩
    exact ⟨success, between, hfirst, _, _, hrest, rfl, rfl⟩

omit [Producer π] in
/-- Two rows, one after the other, are one. -/
theorem append (hfirst : RowLeads matcher first here values middle)
    (hsecond : RowLeads matcher second middle others there) :
    RowLeads matcher (first ++ second) here (values ++ others) there := by
  induction first generalizing here values with
  | nil =>
      obtain ⟨rfl, rfl⟩ := nil_iff.mp hfirst
      exact hsecond
  | cons part rest ih =>
      obtain ⟨success, between, further, hpart, hrest, rfl⟩ := cons_iff.mp hfirst
      exact cons_iff.mpr ⟨success, between, further ++ others, hpart, ih hrest, rfl⟩

omit [Producer π] in
theorem length_eq (hleads : RowLeads matcher first here values there) :
    values.length = first.length := by
  induction first generalizing here values with
  | nil =>
      obtain ⟨rfl, -⟩ := nil_iff.mp hleads
      rfl
  | cons part rest ih =>
      obtain ⟨success, between, others, -, hrest, rfl⟩ := cons_iff.mp hleads
      rw [List.length_cons, List.length_cons, ih hrest]

omit [Producer π] in
/-- A row leads to one spot. -/
theorem unique {last : Spot π} (hleads : RowLeads matcher first here values there)
    (hother : RowLeads matcher first here others last) : there = last ∧ values = others := by
  obtain ⟨inner, stop, after⟩ := there
  obtain ⟨within, position, input⟩ := last
  cases hleads.symm.trans hother
  exact ⟨rfl, rfl⟩

end RowLeads

/-- A sequence matches as the row of its parts. -/
theorem Pattern.run_sequence (granted : Nat) (parts : List Pattern) (scope : Scope)
    (place : Position) :
    (Pattern.sequence parts).run (π := π) (granted + 1) scope place =
      (Match.allOf (Pattern.run granted) parts scope place >>= fun row =>
        pure ⟨.list row.1, row.2.1, row.2.2⟩) := by
  funext input
  simp only [Pattern.run, Pattern.sequence, Pattern.ofForm, Pattern.form, Match.form,
    Attempt.bind_eq_andThen, Attempt.andThen]
  rcases Match.allOf (Pattern.run granted) parts scope place input with ⟨_ | _ | _, after⟩ <;>
    rfl

theorem RowLeads.run_sequence {granted : Nat} {parts : List Pattern} {here there : Spot π}
    {values : List Value} (hleads : RowLeads (Pattern.run granted) parts here values there) :
    (Pattern.sequence parts).run (granted + 1) here.scope here.position here.input =
      (.matched ⟨.list values, there.position, there.scope⟩, there.input) := by
  rw [Pattern.run_sequence]
  exact Attempt.andThen_eq_matched_iff.mpr ⟨_, _, hleads, rfl⟩

theorem RowStops.run_sequence {granted : Nat} {parts : List Pattern} {here : Spot π}
    {after : Input π} (hstops : RowStops (Pattern.run granted) parts here after) :
    (Pattern.sequence parts).run (granted + 1) here.scope here.position here.input =
      (.missed, after) := by
  rw [Pattern.run_sequence]
  exact Attempt.andThen_eq_missed_iff.mpr (.inl hstops)

section Greedy

variable (matcher : Matcher π) (part : Pattern) (separator : Option Pattern)
  (most : Option Nat)

/-- The rounds that a repetition makes from a spot on where it has so many parts already:
what they yield, where they lead, and the input that is left when no further round is made. -/
inductive Greedy : Nat → Spot π → List Turn → Spot π → Input π → Prop
  | full {count : Nat} {here : Spot π} (full : FullAt most count) :
      Greedy count here [] here here.input
  | missed {count : Nat} {here : Spot π} {after : Input π} (open_ : ¬ FullAt most count)
      (missed : RowStops matcher (dueAfter separator count ++ [part]) here after) :
      Greedy count here [] here after
  | still {count : Nat} {here there : Spot π} {turn : Turn} (open_ : ¬ FullAt most count)
      (row : RowLeads matcher (dueAfter separator count ++ [part]) here turn.values there)
      (still : there.position.offset = here.position.offset) :
      Greedy count here [turn] there there.input
  | moved {count : Nat} {here middle there : Spot π} {turn : Turn} {turns : List Turn}
      {after : Input π} (open_ : ¬ FullAt most count)
      (row : RowLeads matcher (dueAfter separator count ++ [part]) here turn.values middle)
      (moved : middle.position.offset ≠ here.position.offset)
      (rest : Greedy (count + 1) middle turns there after) :
      Greedy count here (turn :: turns) there after

/-- The rounds that a repetition makes come to one that halts. -/
inductive GreedyHalts : Nat → Spot π → Halt → Input π → Prop
  | row {count : Nat} {here : Spot π} {reason : Halt} {after : Input π}
      (open_ : ¬ FullAt most count)
      (halted : Match.allOf matcher (dueAfter separator count ++ [part]) here.scope
        here.position here.input = (.halted reason, after)) :
      GreedyHalts count here reason after
  | moved {count : Nat} {here middle : Spot π} {turn : Turn} {reason : Halt} {after : Input π}
      (open_ : ¬ FullAt most count)
      (row : RowLeads matcher (dueAfter separator count ++ [part]) here turn.values middle)
      (moved : middle.position.offset ≠ here.position.offset)
      (rest : GreedyHalts (count + 1) middle reason after) :
      GreedyHalts count here reason after

end Greedy

variable {matcher : Matcher π} {part : Pattern} {separator : Option Pattern}
  {most : Option Nat} {count : Nat} {here middle there : Spot π} {turn : Turn}
  {turns earlier : List Turn} {after : Input π}

omit [Producer π] in
/-- A round has a separator unless it is the first, or there is none to have. -/
theorem RowLeads.isSome_separator
    (hrow : RowLeads matcher (dueAfter separator count ++ [part]) here turn.values there) :
    turn.separator.isSome = (separator.isSome && count != 0) := by
  have hlength := hrow.length_eq
  rw [Turn.values, dueAfter] at hlength
  obtain ⟨before, value⟩ := turn
  by_cases hfirst : count = 0 <;> cases before <;> cases separator <;> simp_all

omit [Producer π] in
/-- One more round adds its row to those before. -/
theorem RowLeads.round
    (hearlier : RowLeads matcher (unrolled part separator earlier.length) here
      (earlier.flatMap Turn.values) middle)
    (hrow : RowLeads matcher (dueAfter separator earlier.length ++ [part]) middle turn.values
      there) :
    RowLeads matcher (unrolled part separator (earlier ++ [turn]).length) here
      ((earlier ++ [turn]).flatMap Turn.values) there := by
  have hall := hearlier.append hrow
  simpa [unrolled] using hall

namespace Greedy

omit [Producer π] in
/-- Where rounds come to an end, none of them halts. -/
theorem not_greedyHalts {reason : Halt} {last : Input π}
    (hgreedy : Greedy matcher part separator most count here turns there after) :
    ¬ GreedyHalts matcher part separator most count here reason last := by
  intro hhalts
  induction hgreedy with
  | full full =>
      cases hhalts with
      | row open_ => exact open_ full
      | moved open_ => exact open_ full
  | missed _ missed =>
      cases hhalts with
      | row _ halted => cases missed.symm.trans halted
      | moved _ row => cases missed.symm.trans row
  | still _ row still =>
      cases hhalts with
      | row _ halted => cases row.symm.trans halted
      | moved _ other moved =>
          obtain ⟨rfl, -⟩ := row.unique other
          exact moved still
  | moved _ row moved rest ih =>
      cases hhalts with
      | row _ halted => cases row.symm.trans halted
      | moved _ other _ hrest =>
          obtain ⟨rfl, -⟩ := row.unique other
          exact ih hrest

omit [Producer π] in
theorem length_le {limit : Nat} (hgreedy : Greedy matcher part separator most count here turns
    there after) (hlimit : limit ∈ most) (hcount : count ≤ limit) :
    count + turns.length ≤ limit := by
  induction hgreedy with
  | full full => exact hcount
  | missed open_ missed => exact hcount
  | still open_ row still => exact Nat.lt_of_not_le fun hle => open_ ⟨limit, hlimit, hle⟩
  | moved open_ row moved rest ih =>
      have hnext := ih (Nat.lt_of_not_le fun hle => open_ ⟨limit, hlimit, hle⟩)
      rw [List.length_cons]
      omega

omit [Producer π] in
/-- There is a separator for every round but the first. -/
theorem length_separators (hgreedy : Greedy matcher part separator most count here turns
    there after) :
    (turns.filterMap Turn.separator).length =
      if separator.isSome then (if count = 0 then turns.length - 1 else turns.length) else 0 := by
  induction hgreedy with
  | full full => simp
  | missed open_ missed => simp
  | @still count here there turn open_ row still =>
      have hdue := row.isSome_separator
      obtain ⟨before, value⟩ := turn
      by_cases hfirst : count = 0 <;> cases before <;> cases separator <;> simp_all
  | @moved count here middle there turn turns after open_ row moved rest ih =>
      have hdue := row.isSome_separator
      obtain ⟨before, value⟩ := turn
      by_cases hfirst : count = 0 <;> cases before <;> cases separator <;> simp_all

omit [Producer π] in
/-- The rounds match when they are written out in a row, and come to the same spot. -/
theorem rowLeads {start : Spot π} (hgreedy : Greedy matcher part separator most earlier.length
    here turns there after)
    (hearlier : RowLeads matcher (unrolled part separator earlier.length) start
      (earlier.flatMap Turn.values) here) :
    RowLeads matcher (unrolled part separator (earlier ++ turns).length) start
      ((earlier ++ turns).flatMap Turn.values) there := by
  generalize hcount : earlier.length = count at hgreedy
  induction hgreedy generalizing earlier with
  | full full => simpa [hcount] using hearlier
  | missed open_ missed => simpa [hcount] using hearlier
  | still open_ row still =>
      subst hcount
      exact hearlier.round row
  | moved open_ row moved rest ih =>
      subst hcount
      have hall := ih (hearlier.round row) (by simp)
      simpa using hall

omit [Producer π] in
/-- No further round comes off: there are as many parts as there may be, or the last round
ended where it began, or one more misses. -/
theorem maximal {start : Spot π} (hgreedy : Greedy matcher part separator most earlier.length
    here turns there after)
    (hearlier : RowLeads matcher (unrolled part separator earlier.length) start
      (earlier.flatMap Turn.values) here) :
    (FullAt most (earlier ++ turns).length ∧ after = there.input) ∨
      (∃ before last middle, earlier ++ turns = before ++ [last] ∧
        RowLeads matcher (unrolled part separator before.length) start
          (before.flatMap Turn.values) middle ∧
        middle.position.offset = there.position.offset ∧ after = there.input) ∨
      RowStops matcher (dueAfter separator (earlier ++ turns).length ++ [part]) there after := by
  generalize hcount : earlier.length = count at hgreedy
  induction hgreedy generalizing earlier with
  | full full =>
      rw [List.append_nil, hcount]
      exact .inl ⟨full, rfl⟩
  | missed open_ missed =>
      rw [List.append_nil, hcount]
      exact .inr (.inr missed)
  | still open_ row still => exact .inr (.inl ⟨earlier, _, _, rfl, hearlier, still.symm, rfl⟩)
  | moved open_ row moved rest ih =>
      subst hcount
      have hall := ih (hearlier.round row) (by simp)
      rwa [List.append_assoc, List.singleton_append] at hall

end Greedy

namespace Match

/-- What is collected after some more rounds. -/
def Tally.withTurns (tally : Tally) (turns : List Turn) (there : Spot π) : Tally where
  parts := tally.parts ++ (turns.map Turn.part).toArray
  separators := tally.separators ++ (turns.filterMap Turn.separator).toArray
  position := there.position
  scope := there.scope

omit [Producer π] in
theorem Tally.withTurns_nil (tally : Tally) (input : Input π) :
    tally.withTurns [] ⟨tally.scope, tally.position, input⟩ = tally := by
  simp [withTurns]

omit [Producer π] in
theorem Tally.size_withTurns (tally : Tally) (turn : Turn) (there : Spot π) :
    (tally.withTurns [turn] there).parts.size = tally.parts.size + 1 := by
  simp [withTurns]

omit [Producer π] in
theorem Tally.withTurns_cons (tally : Tally) (turn : Turn) (turns : List Turn)
    (middle there : Spot π) :
    tally.withTurns (turn :: turns) there =
      (tally.withTurns [turn] middle).withTurns turns there := by
  obtain ⟨before, value⟩ := turn
  cases before <;> simp [withTurns]

omit [Producer π] in
theorem Tally.size_withTurns_nothing {place : Position} {scope : Scope} (turns : List Turn)
    (there : Spot π) :
    (Tally.withTurns ⟨#[], #[], place, scope⟩ turns there).parts.size = turns.length := by
  simp [withTurns]

omit [Producer π] in
theorem Tally.value_withTurns_nothing {place : Position} {scope : Scope} (turns : List Turn)
    (there : Spot π) (keepSeparators : Bool) :
    (Tally.withTurns ⟨#[], #[], place, scope⟩ turns there).value keepSeparators =
      Turn.result turns keepSeparators := by
  simp [withTurns, value, Turn.result]

omit [Producer π] in
theorem Tally.withRow_values (tally : Tally) (turn : Turn) (middle : Spot π) :
    tally.withRow (turn.values, middle.position, middle.scope) =
      tally.withTurns [turn] middle := by
  obtain ⟨before, value⟩ := turn
  cases before <;> simp [withRow, withTurns, Turn.values]

omit [Producer π] in
/-- The values of a row that ends with the part are those of a round. -/
theorem exists_turn {values : List Value}
    (hrow : RowLeads matcher (dueAfter separator count ++ [part]) here values there) :
    ∃ turn : Turn, values = turn.values := by
  have hlength := hrow.length_eq
  have hdue : (dueAfter separator count).length ≤ 1 := by
    unfold dueAfter
    split
    · exact Nat.zero_le 1
    · cases separator <;> simp
  rw [List.length_append, List.length_singleton] at hlength
  match values, hlength with
  | [value], _ => exact ⟨⟨none, value⟩, rfl⟩
  | [before, value], _ => exact ⟨⟨some before, value⟩, rfl⟩
  | [], hlength => simp at hlength
  | _ :: _ :: _ :: _, hlength =>
      simp only [List.length_cons] at hlength
      omega

variable {granted : Nat} {tally final : Tally} {input : Input π} {reason : Halt}

omit [Producer π] in
/-- A round that comes off adds its turn, and is the last if it has not moved. -/
theorem rounds_of_turn (hopen : ¬ FullAt most tally.parts.size)
    (hrow : RowLeads matcher (dueAfter separator tally.parts.size ++ [part])
      ⟨tally.scope, tally.position, input⟩ turn.values middle) :
    rounds matcher part separator most (granted + 1) tally input =
      if middle.position.offset = tally.position.offset then
        (.matched (tally.withTurns [turn] middle), middle.input)
      else
        rounds matcher part separator most granted (tally.withTurns [turn] middle)
          middle.input := by
  rw [rounds_of_row hopen hrow, Tally.withRow_values]

omit [Producer π] in
/-- What rounds collect, they have collected greedily. -/
theorem greedy_of_rounds
    (hrounds : rounds matcher part separator most granted tally input =
      (.matched final, after)) :
    ∃ turns there, Greedy matcher part separator most tally.parts.size
        ⟨tally.scope, tally.position, input⟩ turns there after ∧
      final = tally.withTurns turns there := by
  induction granted generalizing tally input with
  | zero => cases hrounds
  | succ granted ih =>
      by_cases hopen : FullAt most tally.parts.size
      · rw [rounds_of_full hopen] at hrounds
        cases hrounds
        exact ⟨[], _, .full hopen, (Tally.withTurns_nil _ _).symm⟩
      rcases hending : allOf matcher (dueAfter separator tally.parts.size ++ [part]) tally.scope
        tally.position input with ⟨⟨values, stop, inner⟩ | _ | reason, next⟩
      · have hrow : RowLeads matcher (dueAfter separator tally.parts.size ++ [part])
            ⟨tally.scope, tally.position, input⟩ values ⟨inner, stop, next⟩ := hending
        obtain ⟨turn, rfl⟩ := exists_turn hrow
        rw [rounds_of_turn hopen hrow] at hrounds
        by_cases hstill : stop.offset = tally.position.offset
        · rw [if_pos hstill] at hrounds
          cases hrounds
          exact ⟨[turn], _, .still hopen hrow hstill, rfl⟩
        · rw [if_neg hstill] at hrounds
          obtain ⟨turns, there, hrest, rfl⟩ := ih hrounds
          rw [Tally.size_withTurns] at hrest
          exact ⟨turn :: turns, there, .moved hopen hrow hstill hrest,
            (Tally.withTurns_cons _ _ _ _ _).symm⟩
      · rw [rounds_of_missed hopen hending] at hrounds
        cases hrounds
        exact ⟨[], _, .missed hopen hending, (Tally.withTurns_nil _ _).symm⟩
      · rw [rounds_of_halted hopen hending] at hrounds
        cases hrounds

omit [Producer π] in
/-- Greedy rounds are what is collected, unless the rounds granted are too few. -/
theorem rounds_of_greedy (granted : Nat)
    (hgreedy : Greedy matcher part separator most tally.parts.size
      ⟨tally.scope, tally.position, input⟩ turns there after) :
    (rounds matcher part separator most granted tally input).1.isExhausted = true ∨
      rounds matcher part separator most granted tally input =
        (.matched (tally.withTurns turns there), after) := by
  generalize hcount : tally.parts.size = count at hgreedy
  generalize hhere : (⟨tally.scope, tally.position, input⟩ : Spot π) = here at hgreedy
  induction hgreedy generalizing granted tally input with
  | full full =>
      subst hcount hhere
      cases granted with
      | zero => exact .inl rfl
      | succ granted => exact .inr (by rw [rounds_of_full full, Tally.withTurns_nil])
  | missed open_ missed =>
      subst hcount hhere
      cases granted with
      | zero => exact .inl rfl
      | succ granted => exact .inr (by rw [rounds_of_missed open_ missed, Tally.withTurns_nil])
  | still open_ row still =>
      subst hcount hhere
      cases granted with
      | zero => exact .inl rfl
      | succ granted => exact .inr (by rw [rounds_of_turn open_ row, if_pos still])
  | @moved count here middle there turn turns after open_ row moved rest ih =>
      subst hcount hhere
      cases granted with
      | zero => exact .inl rfl
      | succ granted =>
          rw [rounds_of_turn open_ row, if_neg moved, Tally.withTurns_cons tally turn turns middle]
          exact ih granted (Tally.size_withTurns _ _ _) rfl

omit [Producer π] in
/-- Rounds halt only where the row of a round does, or where the rounds granted are too
few. -/
theorem greedyHalts_of_rounds
    (hrounds : rounds matcher part separator most granted tally input =
      (.halted reason, after)) :
    reason = .exhausted ∨ GreedyHalts matcher part separator most tally.parts.size
      ⟨tally.scope, tally.position, input⟩ reason after := by
  induction granted generalizing tally input with
  | zero =>
      cases hrounds
      exact .inl rfl
  | succ granted ih =>
      by_cases hopen : FullAt most tally.parts.size
      · rw [rounds_of_full hopen] at hrounds
        cases hrounds
      rcases hending : allOf matcher (dueAfter separator tally.parts.size ++ [part]) tally.scope
        tally.position input with ⟨⟨values, stop, inner⟩ | _ | reason, next⟩
      · have hrow : RowLeads matcher (dueAfter separator tally.parts.size ++ [part])
            ⟨tally.scope, tally.position, input⟩ values ⟨inner, stop, next⟩ := hending
        obtain ⟨turn, rfl⟩ := exists_turn hrow
        rw [rounds_of_turn hopen hrow] at hrounds
        by_cases hstill : stop.offset = tally.position.offset
        · rw [if_pos hstill] at hrounds
          cases hrounds
        · rw [if_neg hstill] at hrounds
          refine (ih hrounds).imp_right fun hrest => ?_
          rw [Tally.size_withTurns] at hrest
          exact .moved hopen hrow hstill hrest
      · rw [rounds_of_missed hopen hending] at hrounds
        cases hrounds
      · rw [rounds_of_halted hopen hending] at hrounds
        cases hrounds
        exact .inr (.row hopen hending)

omit [Producer π] in
/-- Rounds never miss: what misses is only the round that ends them. -/
theorem rounds_ne_missed :
    rounds matcher part separator most granted tally input ≠ (.missed, after) := by
  intro hrounds
  induction granted generalizing tally input with
  | zero => cases hrounds
  | succ granted ih =>
      by_cases hopen : FullAt most tally.parts.size
      · rw [rounds_of_full hopen] at hrounds
        cases hrounds
      rcases hending : allOf matcher (dueAfter separator tally.parts.size ++ [part]) tally.scope
        tally.position input with ⟨row | _ | reason, next⟩
      · rw [rounds_of_row hopen hending] at hrounds
        split at hrounds
        next => cases hrounds
        next => exact ih hrounds
      · rw [rounds_of_missed hopen hending] at hrounds
        cases hrounds
      · rw [rounds_of_halted hopen hending] at hrounds
        cases hrounds

end Match

namespace Pattern

variable {least : Term} {upper : Option Term} {keepSeparators : Bool}
  {factory : Option (Value → Value)} {label : Option String} {granted low : Nat}
  {scope : Scope} {place : Position} {input : Input π}

/-- A repetition matches as its rounds, if there are enough of them. -/
theorem run_repetition (hbounds : Match.resolveBounds scope least upper = .ok (low, most)) :
    (Pattern.mk (.repetition part least upper separator keepSeparators) factory label).run
        (granted + 1) scope place input =
      match Match.rounds (Pattern.run granted) part separator most granted
        ⟨#[], #[], place, scope⟩ input with
      | (.matched tally, after) =>
          if tally.parts.size < low then (.missed, after)
          else
            (.matched
              ⟨(Pattern.mk (.repetition part least upper separator keepSeparators) factory
                label).finishValue (tally.value keepSeparators), tally.position, tally.scope⟩,
              after)
      | (.missed, after) => (.missed, after)
      | (.halted reason, after) => (.halted reason, after) := by
  simp only [Pattern.run, Pattern.form, Match.form_repetition_eq hbounds, Match.repetition,
    Attempt.bind_eq_andThen, Attempt.pure_eq_succeed, Attempt.andThen]
  unfold Match.upTo
  rcases Match.rounds (Pattern.run granted) part separator most granted
    ⟨#[], #[], place, scope⟩ input with ⟨tally | _ | _, after⟩
  · by_cases hfew : tally.parts.size < low
    · simp only [if_pos hfew, Attempt.miss]
    · simp only [if_neg hfew, Attempt.succeed]
  · rfl
  · rfl

/-- Bounds that do not resolve halt a repetition before its first round. -/
theorem run_repetition_of_defect {defect : Defect}
    (hbounds : Match.resolveBounds scope least upper = .error defect) :
    (Pattern.mk (.repetition part least upper separator keepSeparators) factory label).run
        (granted + 1) scope place input = (.halted (.defect defect), input) := by
  simp only [Pattern.run, Pattern.form, Match.form, hbounds, Attempt.bind_eq_andThen,
    Attempt.andThen, Attempt.resolved, Attempt.halt]

variable {success : Match}

/-- What a repetition has matched is what greedy rounds collect. -/
theorem greedy_of_matched (hbounds : Match.resolveBounds scope least upper = .ok (low, most))
    (hmatched : (Pattern.mk (.repetition part least upper separator keepSeparators) factory
      label).run (granted + 1) scope place input = (.matched success, after)) :
    ∃ turns there, Greedy (Pattern.run granted) part separator most 0 ⟨scope, place, input⟩
        turns there after ∧
      low ≤ turns.length ∧
      success = ⟨(Pattern.mk (.repetition part least upper separator keepSeparators) factory
        label).finishValue (Turn.result turns keepSeparators), there.position, there.scope⟩ := by
  rw [run_repetition hbounds] at hmatched
  rcases hrounds : Match.rounds (Pattern.run granted) part separator most granted
    ⟨#[], #[], place, scope⟩ input with ⟨tally | _ | _, next⟩
  · obtain ⟨turns, there, hgreedy, rfl⟩ := Match.greedy_of_rounds hrounds
    simp only [hrounds, Match.Tally.size_withTurns_nothing] at hmatched
    split at hmatched
    next => cases hmatched
    next henough =>
      cases hmatched
      exact ⟨turns, there, hgreedy, Nat.le_of_not_lt henough,
        by rw [Match.Tally.value_withTurns_nothing]; rfl⟩
  · rw [hrounds] at hmatched
    cases hmatched
  · rw [hrounds] at hmatched
    cases hmatched

/-- Unless one of them halts, a repetition makes greedy rounds. -/
theorem exists_greedy (hbounds : Match.resolveBounds scope least upper = .ok (low, most))
    (hexhausted : ¬ ((Pattern.mk (.repetition part least upper separator keepSeparators)
      factory label).run (granted + 1) scope place input).1.isExhausted = true)
    (hhalts : ∀ reason after, GreedyHalts (Pattern.run granted) part separator most 0
      ⟨scope, place, input⟩ reason after → reason = .exhausted) :
    ∃ turns there after, Greedy (Pattern.run granted) part separator most 0
      ⟨scope, place, input⟩ turns there after := by
  rw [run_repetition hbounds] at hexhausted
  rcases hrounds : Match.rounds (Pattern.run granted) part separator most granted
    ⟨#[], #[], place, scope⟩ input with ⟨tally | _ | reason, next⟩
  · obtain ⟨turns, there, hgreedy, -⟩ := Match.greedy_of_rounds hrounds
    exact ⟨turns, there, next, hgreedy⟩
  · exact absurd hrounds Match.rounds_ne_missed
  · rw [hrounds] at hexhausted
    rcases Match.greedyHalts_of_rounds hrounds with rfl | hhalted
    · exact absurd rfl hexhausted
    · obtain rfl := hhalts reason next hhalted
      exact absurd rfl hexhausted

/-- A repetition misses exactly if its greedy rounds are too few. -/
theorem missed_iff_of_greedy
    (hbounds : Match.resolveBounds scope least upper = .ok (low, most))
    (hexhausted : ¬ ((Pattern.mk (.repetition part least upper separator keepSeparators)
      factory label).run (granted + 1) scope place input).1.isExhausted = true)
    (hgreedy : Greedy (Pattern.run granted) part separator most 0 ⟨scope, place, input⟩ turns
      there after) :
    (Pattern.mk (.repetition part least upper separator keepSeparators) factory label).run
        (granted + 1) scope place input = (.missed, after) ↔
      turns.length < low := by
  rw [run_repetition hbounds] at hexhausted ⊢
  have hstart : Greedy (Pattern.run granted) part separator most
      (Match.Tally.mk #[] #[] place scope).parts.size ⟨scope, place, input⟩ turns there
      after := hgreedy
  rcases Match.rounds_of_greedy granted hstart with hnever | hrounds
  · rcases hverdict : Match.rounds (Pattern.run granted) part separator most granted
      ⟨#[], #[], place, scope⟩ input with ⟨tally | _ | reason, next⟩ <;>
      rw [hverdict] at hnever hexhausted
    · cases hnever
    · cases hnever
    · exact absurd hnever hexhausted
  · simp only [hrounds, Match.Tally.size_withTurns_nothing]
    by_cases hfew : turns.length < low <;> simp [hfew]

end Pattern

/-- A repetition is its greedy unrolling.

Where it succeeds, the rounds lie within the bounds, there is one separator less than there
are parts, and the sequence that spells out the rounds leads from the same spot over the same
values to the same position and the same scope; so a separator without a part after it leaves
nothing behind. There could not be more rounds: there are as many as there may be, or the last
one ended at the offset where it began, or a further round misses after the end.

Where the bounds resolve and no round that is made halts, the repetition misses exactly if
there are too few greedy rounds, unless the steps granted run out. -/
theorem repetition_eq_greedy_unrolling (part : Pattern) (separator : Option Pattern)
    (least : Term) (upper : Option Term) (keepSeparators : Bool)
    (factory : Option (Value → Value)) (label : Option String) (granted : Nat) (scope : Scope)
    (place : Position) (input : Input π) :
    let pattern :=
      Pattern.mk (.repetition part least upper separator keepSeparators) factory label
    let start : Spot π := ⟨scope, place, input⟩
    (∀ success after, pattern.run (granted + 1) scope place input = (.matched success, after) →
      ∃ (low : Nat) (most : Option Nat) (turns : List Turn) (there : Spot π),
        Match.resolveBounds scope least upper = .ok (low, most) ∧
        Greedy (Pattern.run granted) part separator most 0 start turns there after ∧
        low ≤ turns.length ∧ (∀ limit ∈ most, turns.length ≤ limit) ∧
        success = ⟨pattern.finishValue (Turn.result turns keepSeparators), there.position,
          there.scope⟩ ∧
        (turns.filterMap Turn.separator).length =
          (if separator.isSome then turns.length - 1 else 0) ∧
        (Pattern.sequence (unrolled part separator turns.length)).run (granted + 1) scope place
            input =
          (.matched ⟨.list (turns.flatMap Turn.values), there.position, there.scope⟩,
            there.input) ∧
        (turns.length ∈ most ∨
          (∃ (count : Nat) (middle : Spot π), turns.length = count + 1 ∧
            (Pattern.sequence (unrolled part separator count)).run (granted + 1) scope place
                input =
              (.matched ⟨.list ((turns.take count).flatMap Turn.values), middle.position,
                middle.scope⟩, middle.input) ∧
            middle.position.offset = there.position.offset) ∨
          (Pattern.sequence (dueAfter separator turns.length ++ [part])).run (granted + 1)
            there.scope there.position there.input = (.missed, after))) ∧
    (∀ low most, Match.resolveBounds scope least upper = .ok (low, most) →
      (∀ reason after,
        GreedyHalts (Pattern.run granted) part separator most 0 start reason after →
          reason = .exhausted) →
      (pattern.run (granted + 1) scope place input).1.isExhausted = true ∨
        (∃ turns there after,
          Greedy (Pattern.run granted) part separator most 0 start turns there after) ∧
        ∀ turns there after,
          Greedy (Pattern.run granted) part separator most 0 start turns there after →
          (pattern.run (granted + 1) scope place input = (.missed, after) ↔
            turns.length < low)) := by
  intro pattern start
  have hnothing : RowLeads (Pattern.run granted)
      (unrolled part separator ([] : List Turn).length) start ([].flatMap Turn.values) start :=
    RowLeads.nil_iff.mpr ⟨rfl, rfl⟩
  constructor
  · intro success after hmatched
    rcases hbounds : Match.resolveBounds scope least upper with defect | ⟨low, most⟩
    · rw [Pattern.run_repetition_of_defect hbounds] at hmatched
      cases hmatched
    obtain ⟨turns, there, hgreedy, henough, rfl⟩ := Pattern.greedy_of_matched hbounds hmatched
    have hrows := hgreedy.rowLeads hnothing
    refine ⟨low, most, turns, there, rfl, hgreedy, henough, ?_, rfl, ?_, hrows.run_sequence, ?_⟩
    · intro limit hlimit
      have hle := hgreedy.length_le hlimit (Nat.zero_le limit)
      rwa [Nat.zero_add] at hle
    · simpa using hgreedy.length_separators
    · rcases hgreedy.maximal hnothing with ⟨⟨limit, hlimit, hle⟩, -⟩ | hstill | hmissed
      · have hleast := hgreedy.length_le hlimit (Nat.zero_le limit)
        have hsame : turns.length = limit := by
          rw [Nat.zero_add] at hleast
          exact Nat.le_antisymm hleast hle
        exact .inl (hsame ▸ hlimit)
      · obtain ⟨before, last, middle, hturns, hbefore, hstill, -⟩ := hstill
        rw [List.nil_append] at hturns
        subst hturns
        refine .inr (.inl ⟨before.length, middle, List.length_append, ?_, hstill⟩)
        rw [List.take_left]
        exact hbefore.run_sequence
      · exact .inr (.inr hmissed.run_sequence)
  · intro low most hbounds hhalts
    by_cases hexhausted : (pattern.run (granted + 1) scope place input).1.isExhausted = true
    · exact .inl hexhausted
    refine .inr ⟨?_, fun turns there after hgreedy => ?_⟩
    · exact Pattern.exists_greedy hbounds hexhausted hhalts
    · exact Pattern.missed_iff_of_greedy hbounds hexhausted hgreedy

/-- Two letters between commas, of which the second has no letter after it: it is not taken,
and what it would bind is not bound. Where three letters are needed, the two are too few. -/
theorem repetition_eq_greedy_unrolling_before_loose_comma :
    let letter := Pattern.literal "a"
    let comma := (Pattern.literal ",").capture "comma"
    let list := fun count : Nat =>
      Pattern.mk (.repetition letter (.ofCount count) none (some comma) true) none none
    let input := Input.ofText "a,a,"
    let success : Match :=
      { value := .list
          [.list [.token ⟨"a", ⟨1, 1, 0⟩, ⟨1, 2, 1⟩⟩, .token ⟨"a", ⟨1, 3, 2⟩, ⟨1, 4, 3⟩⟩],
            .list [.token ⟨",", ⟨1, 2, 1⟩, ⟨1, 3, 2⟩⟩]]
        position := ⟨1, 4, 3⟩
        scope := Scope.empty.bind "comma" (.value (.token ⟨",", ⟨1, 2, 1⟩, ⟨1, 3, 2⟩⟩)) }
    (list 1).run 9 Scope.empty Position.start input = (.matched success, input) ∧
      (∃ (turns : List Turn) (there : Spot Silence),
        success = ⟨Turn.result turns true, there.position, there.scope⟩ ∧
        (Pattern.sequence (unrolled letter (some comma) turns.length)).run 9 Scope.empty
            Position.start input =
          (.matched ⟨.list (turns.flatMap Turn.values), there.position, there.scope⟩,
            there.input)) ∧
      ∃ turns there after,
        Greedy (Pattern.run 8) letter (some comma) none 0 ⟨Scope.empty, Position.start, input⟩
          turns there after ∧
        ((list 3).run 9 Scope.empty Position.start input = (.missed, after) ↔
          turns.length < 3) := by
  intro letter comma list input success
  have hmatched : (list 1).run 9 Scope.empty Position.start input =
      (.matched success, input) := by cbv
  obtain ⟨low, most, turns, there, hbounds, hgreedy, -, -, hsuccess, -, hsequence, -⟩ :=
    (repetition_eq_greedy_unrolling letter (some comma) (.ofCount 1) none true none none 8
      Scope.empty Position.start input).1 success input hmatched
  have hmissed : (list 3).run 9 Scope.empty Position.start input = (.missed, input) := by cbv
  have hone : Match.resolveBounds Scope.empty (.ofCount 1) none = .ok (1, none) := by cbv
  have hthree : Match.resolveBounds Scope.empty (.ofCount 3) none = .ok (3, none) := by cbv
  rw [hone] at hbounds
  cases hbounds
  refine ⟨hmatched, ⟨turns, there, hsuccess, hsequence⟩, turns, there, input, hgreedy, ?_⟩
  have hends : ¬ ((list 3).run 9 Scope.empty Position.start input).1.isExhausted = true := by
    rw [hmissed]
    exact Bool.false_ne_true
  have hother := (repetition_eq_greedy_unrolling letter (some comma) (.ofCount 3) none true none
    none 8 Scope.empty Position.start input).2 3 none hthree
    fun reason after hhalts => absurd hhalts hgreedy.not_greedyHalts
  exact (hother.resolve_left hends).2 turns there input hgreedy

end ScopedGrammar
