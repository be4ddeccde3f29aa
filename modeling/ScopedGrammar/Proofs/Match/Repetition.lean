/-
# What repetitions come to

A repetition matches round by round. A round is the row of the separator that is due and the
part; it matches as a whole or misses as a whole. The rounds of a repetition are therefore a
series of rows, which ends where a row misses, where there are as many parts as there may be,
or after a row that has not moved.

A repetition of single characters takes the longest run of characters that fit, up to the
greatest count.
-/

import Mathlib.Data.List.TakeWhile
import ScopedGrammar.Proofs.Match.Meaning
import ScopedGrammar.Proofs.Match.Tiling

namespace ScopedGrammar

variable {text : String} {part : Pattern} {separator : Option Pattern} {most : Option Nat}
  {scope inner : Scope} {place stop : Position} {success : Match}

namespace Match

/-- What is collected once a row of a round has matched. -/
def Tally.withRow (tally : Tally) (row : List Value × Position × Scope) : Tally where
  parts := tally.parts.push (row.1.getLast?.getD .empty)
  separators := tally.separators ++ row.1.dropLast.toArray
  position := row.2.1
  scope := row.2.2

/-- A round is the row of the separator that is due and the part. -/
theorem round_eq_allOf {π : Type} (matcher : Matcher π) (part : Pattern)
    (separator : Option Pattern) (tally : Tally) :
    round matcher part separator tally =
      (allOf matcher (dueAfter separator tally.parts.size ++ [part]) tally.scope
        tally.position >>= fun row => pure (tally.withRow row)) := by
  funext input
  have hempty : tally.parts.isEmpty = decide (tally.parts.size = 0) := rfl
  by_cases hfirst : tally.parts.size = 0
  · cases separator <;>
      simp only [round, beforePart, dueAfter, hempty, hfirst, decide_true, if_true,
        List.nil_append, allOf, Attempt.bind_eq_andThen, Attempt.pure_eq_succeed,
        Attempt.andThen, Attempt.succeed] <;>
      rcases matcher part tally.scope tally.position input with ⟨_ | _ | _, between⟩ <;>
      simp [Tally.withRow]
  · cases separator with
    | none =>
        simp only [round, beforePart, dueAfter, hfirst, if_false, Option.toList_none,
          List.nil_append, allOf, Attempt.bind_eq_andThen, Attempt.pure_eq_succeed,
          Attempt.andThen, Attempt.succeed]
        rcases matcher part tally.scope tally.position input with ⟨_ | _ | _, between⟩ <;>
          simp [Tally.withRow]
    | some due =>
        simp only [round, beforePart, dueAfter, hempty, hfirst, decide_false, if_false,
          Bool.false_eq_true, Option.toList_some, List.cons_append, List.nil_append, allOf,
          Attempt.bind_eq_andThen, Attempt.pure_eq_succeed, Attempt.andThen,
          Attempt.succeed]
        rcases matcher due tally.scope tally.position input with ⟨ready | _ | _, between⟩
        · dsimp only
          rcases matcher part ready.scope ready.position between with ⟨_ | _ | _, last⟩ <;>
            simp [Tally.withRow]
        · rfl
        · rfl

end Match

/-- Whether so many parts are as many as there may be. -/
def FullAt (most : Option Nat) (count : Nat) : Prop :=
  ∃ limit ∈ most, limit ≤ count

theorem not_fullAt_none {count : Nat} : ¬ FullAt none count :=
  fun ⟨_, hlimit, _⟩ => nomatch hlimit

/-- The rounds of a repetition from where it has some parts already: the parts that they
add, and where and in which scope they end. -/
inductive Series (text : String) (part : Pattern) (separator : Option Pattern)
    (most : Option Nat) : Nat → Scope → Position → List Value → Position → Scope → Prop
  | full {count : Nat} {scope : Scope} {place : Position} (full : FullAt most count) :
      Series text part separator most count scope place [] place scope
  | missed {count : Nat} {scope : Scope} {place : Position} (open_ : ¬ FullAt most count)
      (missed : RowMisses text (dueAfter separator count ++ [part]) scope place) :
      Series text part separator most count scope place [] place scope
  | still {count : Nat} {scope inner : Scope} {place stop : Position} {front : List Value}
      {value : Value} (open_ : ¬ FullAt most count)
      (row : RowMatches text (dueAfter separator count ++ [part]) scope place
        (front ++ [value]) stop inner)
      (still : stop.offset = place.offset) :
      Series text part separator most count scope place [value] stop inner
  | moved {count : Nat} {scope within inner : Scope} {place middle stop : Position}
      {front values : List Value} {value : Value} (open_ : ¬ FullAt most count)
      (row : RowMatches text (dueAfter separator count ++ [part]) scope place
        (front ++ [value]) middle within)
      (moved : middle.offset ≠ place.offset)
      (rest : Series text part separator most (count + 1) within middle values stop inner) :
      Series text part separator most count scope place (value :: values) stop inner

namespace Match

theorem Tally.isFull_iff {tally : Tally} :
    tally.isFull most = true ↔ FullAt most tally.parts.size := by
  cases most <;> simp [Tally.isFull, FullAt]

/-- The values of a row that ends with the part of a round. -/
theorem exists_last_of_row {count : Nat} {values : List Value}
    (hrow : RowMatches text (dueAfter separator count ++ [part]) scope place values stop
      inner) : ∃ front value, values = front ++ [value] := by
  obtain ⟨-, granted, hrun⟩ := hrow
  have hlength := (derives_of_allOf (derives_of_run granted) hrun).length_eq
  refine ⟨values.dropLast, values.getLast ?_, (List.dropLast_append_getLast _).symm⟩
  rintro rfl
  simp at hlength

section Rounds

variable {granted turns : Nat} {tally : Tally}

section Step

variable {π : Type} {matcher : Matcher π} {input next : Input π}

theorem rounds_of_full (hfull : FullAt most tally.parts.size) (input : Input π) :
    rounds matcher part separator most (turns + 1) tally input = (.matched tally, input) := by
  rw [rounds_eq_branch, if_pos (Tally.isFull_iff.mpr hfull)]
  rfl

theorem rounds_of_missed (hopen : ¬ FullAt most tally.parts.size)
    (hmissed : allOf matcher (dueAfter separator tally.parts.size ++ [part]) tally.scope
      tally.position input = (.missed, next)) :
    rounds matcher part separator most (turns + 1) tally input = (.matched tally, next) := by
  rw [rounds_eq_branch, if_neg (mt Tally.isFull_iff.mp hopen), round_eq_allOf]
  simp only [Attempt.branch, Attempt.bind_eq_andThen, Attempt.andThen, hmissed]
  rfl

theorem rounds_of_halted {reason : Halt} (hopen : ¬ FullAt most tally.parts.size)
    (hhalted : allOf matcher (dueAfter separator tally.parts.size ++ [part]) tally.scope
      tally.position input = (.halted reason, next)) :
    rounds matcher part separator most (turns + 1) tally input = (.halted reason, next) := by
  rw [rounds_eq_branch, if_neg (mt Tally.isFull_iff.mp hopen), round_eq_allOf]
  simp only [Attempt.branch, Attempt.bind_eq_andThen, Attempt.andThen, hhalted]

theorem rounds_of_row {row : List Value × Position × Scope}
    (hopen : ¬ FullAt most tally.parts.size)
    (hrow : allOf matcher (dueAfter separator tally.parts.size ++ [part]) tally.scope
      tally.position input = (.matched row, next)) :
    rounds matcher part separator most (turns + 1) tally input =
      if row.2.1.offset = tally.position.offset then (.matched (tally.withRow row), next)
      else rounds matcher part separator most turns (tally.withRow row) next := by
  rw [rounds_eq_branch, if_neg (mt Tally.isFull_iff.mp hopen), round_eq_allOf]
  simp only [Attempt.branch, Attempt.bind_eq_andThen, Attempt.pure_eq_succeed,
    Attempt.andThen, Attempt.succeed, hrow, Tally.withRow, Position.samePlace, beq_iff_eq]

end Step

/-- Rounds that end with a match are a series. -/
theorem series_of_rounds {later : Tally} {after : Input Silence}
    (hmatched : rounds (Pattern.run granted) part separator most turns tally
      (Input.ofText text) = (.matched later, after)) :
    ∃ values, later.parts.toList = tally.parts.toList ++ values ∧
      Series text part separator most tally.parts.size tally.scope tally.position values
        later.position later.scope := by
  induction turns generalizing tally with
  | zero => cases hmatched
  | succ turns ih =>
      by_cases hopen : FullAt most tally.parts.size
      · rw [rounds_of_full hopen] at hmatched
        cases hmatched
        exact ⟨[], (List.append_nil _).symm, .full hopen⟩
      cases hending : allOf (Pattern.run granted)
          (dueAfter separator tally.parts.size ++ [part]) tally.scope tally.position
          (Input.ofText text) with
      | mk verdict next =>
          have hsame := (Steady.allOf _ tally.scope tally.position).settled hending
          subst hsame
          cases verdict with
          | missed =>
              rw [rounds_of_missed hopen hending] at hmatched
              cases hmatched
              exact ⟨[], (List.append_nil _).symm, .missed hopen ⟨rfl, granted, hending⟩⟩
          | halted reason =>
              rw [rounds_of_halted hopen hending] at hmatched
              cases hmatched
          | matched row =>
              have hrow : RowMatches text (dueAfter separator tally.parts.size ++ [part])
                  tally.scope tally.position row.1 row.2.1 row.2.2 := ⟨rfl, granted, hending⟩
              obtain ⟨front, value, hvalues⟩ := exists_last_of_row hrow
              have hparts : (tally.withRow row).parts.toList = tally.parts.toList ++ [value] := by
                simp [Tally.withRow, hvalues]
              rw [hvalues] at hrow
              rw [rounds_of_row hopen hending] at hmatched
              split at hmatched
              next hstill =>
                cases hmatched
                exact ⟨[value], hparts, .still hopen hrow hstill⟩
              next hmoved =>
                obtain ⟨others, hothers, hseries⟩ := ih hmatched
                refine ⟨value :: others, ?_, .moved hopen hrow hmoved ?_⟩
                · rw [hothers, hparts, List.append_assoc, List.singleton_append]
                · rwa [Tally.withRow, Array.size_push] at hseries

/-- A series is what the rounds come to, given enough steps. -/
theorem rounds_of_series {values : List Value}
    (hseries : Series text part separator most tally.parts.size tally.scope tally.position
      values stop inner) :
    ∃ enough later, later.parts.toList = tally.parts.toList ++ values ∧
      later.position = stop ∧ later.scope = inner ∧
      ∀ granted turns, enough ≤ granted → enough ≤ turns →
        rounds (Pattern.run granted) part separator most (turns + 1) tally
          (Input.ofText text) = (.matched later, Input.ofText text) := by
  generalize hcount : tally.parts.size = count at hseries
  generalize hscope : tally.scope = scope at hseries
  generalize hplace : tally.position = place at hseries
  induction hseries generalizing tally with
  | full hfull =>
      subst hcount hscope hplace
      exact ⟨0, tally, (List.append_nil _).symm, rfl, rfl,
        fun granted turns _ _ => rounds_of_full hfull _⟩
  | missed hopen hmissed =>
      subst hcount hscope hplace
      obtain ⟨enough, henough⟩ := Comes.eventually hmissed (.allOf _ _ _)
      exact ⟨enough, tally, (List.append_nil _).symm, rfl, rfl,
        fun granted turns hgranted _ => rounds_of_missed hopen (henough granted hgranted)⟩
  | @still _ _ inner _ stop front value hopen hrow hstill =>
      subst hcount hscope hplace
      obtain ⟨enough, henough⟩ := Comes.eventually hrow (.allOf _ _ _)
      refine ⟨enough, tally.withRow (front ++ [value], stop, inner), by simp [Tally.withRow],
        rfl, rfl, fun granted turns hgranted _ => ?_⟩
      rw [rounds_of_row hopen (henough granted hgranted), if_pos hstill]
  | @moved _ _ within _ _ middle _ front others value hopen hrow hmoved hrest ih =>
      subst hcount hscope hplace
      obtain ⟨enough, henough⟩ := Comes.eventually hrow (.allOf _ _ _)
      have hsize : (tally.withRow (front ++ [value], middle, within)).parts.size =
          tally.parts.size + 1 := Array.size_push _
      obtain ⟨further, later, hparts, hstop, hinner, hfurther⟩ := ih hsize rfl rfl
      refine ⟨max enough further + 1, later, ?_, hstop, hinner,
        fun granted turns hgranted hturns => ?_⟩
      · simp [hparts, Tally.withRow]
      · obtain ⟨turns, rfl⟩ := Nat.exists_eq_add_of_le' (Nat.le_trans (Nat.le_add_left 1 _) hturns)
        rw [rounds_of_row hopen (henough granted (by omega)), if_neg hmoved]
        exact hfurther granted turns (by omega) (by omega)

/-- A series from the start is what a repetition collects, given enough steps. -/
theorem upTo_of_series {values : List Value}
    (hseries : Series text part separator most 0 scope place values stop inner) :
    ∃ enough later, later.parts.toList = values ∧ later.parts.size = values.length ∧
      later.position = stop ∧ later.scope = inner ∧
      ∀ granted, enough ≤ granted →
        upTo (Pattern.run granted) granted part separator most scope place
          (Input.ofText text) = (.matched later, Input.ofText text) := by
  have hnothing : Series text part separator most (Tally.mk #[] #[] place scope).parts.size
      scope place values stop inner := hseries
  obtain ⟨enough, later, hparts, hstop, hinner, hrounds⟩ := rounds_of_series hnothing
  have hvalues : later.parts.toList = values := hparts
  have hsize : later.parts.size = values.length := by
    rw [← Array.length_toList, hvalues]
  refine ⟨enough + 1, later, hvalues, hsize, hstop, hinner, fun granted hgranted => ?_⟩
  obtain ⟨turns, rfl⟩ := Nat.exists_eq_add_of_le' hgranted
  exact hrounds _ (turns + enough) (by omega) (by omega)

end Rounds

end Match

namespace Match

theorem form_repetition_eq {π : Type} [Producer π] {matcher : Matcher π} {granted low : Nat}
    {lower : Term} {upper : Option Term} {keepSeparators : Bool}
    (hbounds : resolveBounds scope lower upper = .ok (low, most)) :
    form matcher granted (.repetition part lower upper separator keepSeparators) scope place =
      repetition matcher granted part separator keepSeparators low most scope place := by
  simp only [form, hbounds]
  rfl

end Match

namespace Form

variable {low : Nat} {lower : Term} {upper : Option Term} {values : List Value}

/-- A repetition without its separators matches exactly as its series of rounds, provided
that there are enough of them. -/
theorem matches_repetition_iff
    (hbounds : Match.resolveBounds scope lower upper = .ok (low, most)) :
    (Form.repetition part lower upper separator false).Matches text scope place success ↔
      ∃ values, Series text part separator most 0 scope place values success.position
          success.scope ∧ low ≤ values.length ∧ success.value = .list values := by
  constructor
  · rintro ⟨-, granted, hending⟩
    dsimp only at hending
    rw [Match.form_repetition_eq hbounds] at hending
    obtain ⟨tally, between, hrounds, hresult⟩ := Attempt.andThen_eq_matched_iff.mp hending
    obtain ⟨values, hparts, hseries⟩ := Match.series_of_rounds hrounds
    have hsize : tally.parts.size = values.length := by
      rw [← Array.length_toList, hparts, List.nil_append]
    split at hresult
    next => cases hresult
    next henough =>
      cases hresult
      refine ⟨values, hseries, hsize ▸ Nat.le_of_not_lt henough, ?_⟩
      simp [Match.Tally.value, hparts]
  · rintro ⟨values, hseries, henough, hvalue⟩
    obtain ⟨enough, later, hparts, hsize, hstop, hinner, hrounds⟩ :=
      Match.upTo_of_series hseries
    have hcollected := hrounds enough (Nat.le_refl enough)
    refine ⟨rfl, enough, ?_⟩
    show Match.form (Pattern.run enough) enough _ scope place _ = _
    rw [Match.form_repetition_eq hbounds]
    refine Attempt.andThen_eq_matched_iff.mpr ⟨later, _, hcollected, ?_⟩
    rw [if_neg (by omega)]
    simp [Match.Tally.value, hparts, hstop, hinner, ← hvalue, Attempt.succeed,
      Attempt.pure_eq_succeed]

theorem repetition_misses
    (hbounds : Match.resolveBounds scope lower upper = .ok (low, most))
    (hseries : Series text part separator most 0 scope place values stop inner)
    (hfew : values.length < low) :
    (Form.repetition part lower upper separator false).Misses text scope place := by
  obtain ⟨enough, later, -, hsize, -, -, hrounds⟩ := Match.upTo_of_series hseries
  have hcollected := hrounds enough (Nat.le_refl enough)
  refine ⟨rfl, enough, ?_⟩
  show Match.form (Pattern.run enough) enough _ scope place _ = _
  rw [Match.form_repetition_eq hbounds]
  refine Attempt.andThen_eq_missed_iff.mpr (.inr ⟨later, _, hcollected, ?_⟩)
  rw [if_pos (by omega)]
  rfl

end Form

/-- The rounds from a place on come to one series only. -/
theorem Series.unique {values others : List Value} {last : Position} {within : Scope}
    (hseries : Series text part separator most 0 scope place values stop inner)
    (hother : Series text part separator most 0 scope place others last within) :
    values = others ∧ stop = last ∧ inner = within := by
  obtain ⟨enough, later, hparts, -, rfl, rfl, hrounds⟩ := Match.upTo_of_series hseries
  obtain ⟨further, lasting, hlasting, -, rfl, rfl, hfurther⟩ := Match.upTo_of_series hother
  have hsame := hrounds (max enough further) (Nat.le_max_left _ _)
  rw [hfurther _ (Nat.le_max_right _ _)] at hsame
  cases hsame
  exact ⟨hparts.symm.trans hlasting, rfl, rfl⟩

theorem dueAfter_none (count : Nat) : dueAfter none count = [] := by
  unfold dueAfter
  split <;> rfl

section Rounds

variable {count : Nat} {front : List Value} {value : Value} {between : Pattern}

/-- A round without a separator is the part. -/
theorem rowMatches_last_iff :
    RowMatches text [part] scope place (front ++ [value]) stop inner ↔
      front = [] ∧ part.Matches text scope place ⟨value, stop, inner⟩ := by
  rw [rowMatches_singleton_iff]
  constructor
  · rintro ⟨other, hpart, hvalues⟩
    obtain ⟨rfl, hvalue⟩ := List.append_eq_singleton_iff.mp hvalues |>.resolve_right (by simp)
    cases hvalue
    exact ⟨rfl, hpart⟩
  · rintro ⟨rfl, hpart⟩
    exact ⟨value, hpart, rfl⟩

theorem rowMatches_part_iff :
    RowMatches text (dueAfter none count ++ [part]) scope place (front ++ [value]) stop inner ↔
      front = [] ∧ part.Matches text scope place ⟨value, stop, inner⟩ := by
  rw [dueAfter_none, List.nil_append, rowMatches_last_iff]

theorem rowMisses_part_iff :
    RowMisses text (dueAfter none count ++ [part]) scope place ↔
      part.Misses text scope place := by
  rw [dueAfter_none, List.nil_append, rowMisses_singleton_iff]

/-- The first round has no separator. -/
theorem rowMatches_first_iff :
    RowMatches text (dueAfter separator 0 ++ [part]) scope place (front ++ [value]) stop
        inner ↔ front = [] ∧ part.Matches text scope place ⟨value, stop, inner⟩ :=
  rowMatches_last_iff

theorem rowMisses_first_iff :
    RowMisses text (dueAfter separator 0 ++ [part]) scope place ↔
      part.Misses text scope place :=
  rowMisses_singleton_iff

/-- A later round is the separator and, after it, the part. -/
theorem rowMatches_later_iff :
    RowMatches text (dueAfter (some between) (count + 1) ++ [part]) scope place
        (front ++ [value]) stop inner ↔
      ∃ due, between.Matches text scope place due ∧ front = [due.value] ∧
        part.Matches text due.scope due.position ⟨value, stop, inner⟩ := by
  refine rowMatches_cons_iff.trans ⟨?_, ?_⟩
  · rintro ⟨due, others, hdue, hpart, hvalues⟩
    obtain ⟨other, hmatched, rfl⟩ := rowMatches_singleton_iff.mp hpart
    have hsplit : front ++ [value] = [due.value] ++ [other] := hvalues
    obtain ⟨hfront, hvalue⟩ := List.append_inj' hsplit rfl
    cases hvalue
    exact ⟨due, hdue, hfront, hmatched⟩
  · rintro ⟨due, hdue, rfl, hpart⟩
    exact ⟨due, [value], hdue, rowMatches_singleton_iff.mpr ⟨value, hpart, rfl⟩, rfl⟩

theorem rowMisses_later_of_separator (hmisses : between.Misses text scope place) :
    RowMisses text (dueAfter (some between) (count + 1) ++ [part]) scope place :=
  rowMisses_of_first hmisses

end Rounds

/-- Rounds without separators, each of which moves on. Nothing is said of what comes after
the last. -/
inductive Moves (text : String) (part : Pattern) (scope : Scope) (place : Position) :
    List Value → Position → Scope → Prop
  | nil : Moves text part scope place [] place scope
  | snoc {values : List Value} {middle stop : Position} {within inner : Scope} {value : Value}
      (before : Moves text part scope place values middle within)
      (round : part.Matches text within middle ⟨value, stop, inner⟩)
      (moved : stop.offset ≠ middle.offset) :
      Moves text part scope place (values ++ [value]) stop inner

/-- Rounds that go on, and then a series, are a series. -/
theorem Moves.series {values more : List Value} {middle : Position} {within : Scope}
    {count : Nat} (hmoves : Moves text part scope place values middle within)
    (hrest : Series text part none none (count + values.length) within middle more stop
      inner) :
    Series text part none none count scope place (values ++ more) stop inner := by
  induction hmoves generalizing more with
  | nil => exact hrest
  | snoc before round moved ih =>
      rw [List.append_assoc]
      rw [List.length_append, ← Nat.add_assoc] at hrest
      exact ih (.moved not_fullAt_none (rowMatches_part_iff.mpr ⟨rfl, round⟩) moved hrest)

/-- A count that fits a signed word is what its term resolves to. -/
theorem Term.count_ofCount {count : Nat} (hcount : count ≤ 0x7FFFFFFFFFFFFFFF) :
    (Term.ofCount count).count scope = .ok count := by
  have hword : (Int64.ofNat (min count 0x7FFFFFFFFFFFFFFF)).toInt = count := by
    rw [Nat.min_eq_left hcount]
    exact Int64.toInt_ofNat_of_lt (by omega)
  simp only [Term.ofCount, Term.count, Term.value, hword, Int.natCast_nonneg, if_true,
    Int.toNat_natCast]

theorem Match.resolveBounds_none {low : Nat} (hlow : low ≤ 0x7FFFFFFFFFFFFFFF) :
    resolveBounds scope (Term.ofCount low) none = .ok (low, none) := by
  simp only [resolveBounds, Term.count_ofCount hlow]

theorem Match.resolveBounds_some {low high : Nat} (hle : low ≤ high)
    (hhigh : high ≤ 0x7FFFFFFFFFFFFFFF) :
    resolveBounds scope (Term.ofCount low) (some (Term.ofCount high)) =
      .ok (low, some high) := by
  simp only [resolveBounds, Term.count_ofCount hhigh, Term.count_ofCount (hle.trans hhigh)]
  rw [if_neg (Nat.not_lt.mpr hle)]

namespace Pattern

/-- A repetition without an upper bound matches as its series of rounds, if there are enough
of them. -/
theorem matches_atLeast_iff {separator : Option Pattern} {low : Nat}
    (hlow : low ≤ 0x7FFFFFFFFFFFFFFF) :
    (ofForm (.repetition part (Term.ofCount low) none separator false)).Matches text scope place
        success ↔
      ∃ values, Series text part separator none 0 scope place values success.position
          success.scope ∧ low ≤ values.length ∧ success.value = .list values :=
  matches_ofForm_iff.trans (Form.matches_repetition_iff (Match.resolveBounds_none hlow))

/-- A repetition collects the rounds up to one that misses. -/
theorem many_matches_of_moves {values : List Value}
    (hmoves : Moves text part scope place values stop inner)
    (hmisses : part.Misses text inner stop) :
    part.many.Matches text scope place ⟨.list values, stop, inner⟩ := by
  have hseries : Series text part none none 0 scope place (values ++ []) stop inner :=
    hmoves.series (.missed not_fullAt_none (rowMisses_part_iff.mpr hmisses))
  rw [List.append_nil] at hseries
  exact (matches_atLeast_iff (Nat.zero_le _)).mpr ⟨values, hseries, Nat.zero_le _, rfl⟩

/-- An optional pattern matches as the pattern does where that matches, and takes nothing
where it misses. -/
theorem matches_optional_iff {pattern : Pattern} :
    pattern.optional.Matches text scope place success ↔
      (∃ inner, pattern.Matches text scope place inner ∧
        success = { inner with value := .list [inner.value] }) ∨
        (pattern.Misses text scope place ∧ success = ⟨.list [], place, scope⟩) := by
  have hbounds : Match.resolveBounds scope (Term.ofCount 0) (some (Term.ofCount 1)) =
      .ok (0, some 1) :=
    Match.resolveBounds_some (Nat.zero_le 1) (by decide)
  have hopen : ¬ FullAt (some 1) 0 := by simp [FullAt]
  have hfull : FullAt (some 1) 1 := ⟨1, rfl, Nat.le_refl 1⟩
  refine matches_ofForm_iff.trans ((Form.matches_repetition_iff hbounds).trans ?_)
  constructor
  · rintro ⟨values, hseries, -, hvalue⟩
    obtain ⟨content, stop, within⟩ := success
    cases hseries with
    | full hnever => exact absurd hnever hopen
    | missed _ hmissed =>
        cases hvalue
        exact .inr ⟨rowMisses_singleton_iff.mp hmissed, rfl⟩
    | still _ hrow _ =>
        cases hvalue
        exact .inl ⟨_, (rowMatches_part_iff.mp hrow).2, rfl⟩
    | moved _ hrow _ hrest =>
        cases hrest with
        | full _ =>
            cases hvalue
            exact .inl ⟨_, (rowMatches_part_iff.mp hrow).2, rfl⟩
        | missed hopened => exact absurd hfull hopened
        | still hopened => exact absurd hfull hopened
        | moved hopened => exact absurd hfull hopened
  · rintro (⟨within, hmatched, rfl⟩ | ⟨hmissed, rfl⟩)
    · have hrow : RowMatches text (dueAfter none 0 ++ [pattern]) scope place
          ([] ++ [within.value]) within.position within.scope :=
        rowMatches_part_iff.mpr ⟨rfl, hmatched⟩
      by_cases hmoved : within.position.offset = place.offset
      · exact ⟨_, .still hopen hrow hmoved, Nat.zero_le _, rfl⟩
      · exact ⟨_, .moved hopen hrow hmoved (.full hfull), Nat.zero_le _, rfl⟩
    · exact ⟨_, .missed hopen (rowMisses_part_iff.mpr hmissed), Nat.zero_le _, rfl⟩

end Pattern

/-- The tokens of the characters of a run, one for each. -/
def charTokens (place : Position) : List Char → List Value
  | [] => []
  | c :: rest =>
      .token ⟨String.ofList [c], place, place.step c⟩ :: charTokens (place.step c) rest

theorem length_charTokens (place : Position) (run : List Char) :
    (charTokens place run).length = run.length := by
  induction run generalizing place with
  | nil => rfl
  | cons c rest ih => rw [charTokens, List.length_cons, ih, List.length_cons]

/-- The tokens of a run spell the run. -/
theorem spelling_charTokens (place : Position) (run : List Char) :
    (Value.list (charTokens place run)).spelling.toList = run := by
  rw [Value.toList_spelling_list]
  induction run generalizing place with
  | nil => rfl
  | cons c rest ih =>
      rw [charTokens, List.flatMap_cons, ih, Value.toList_spelling_token, String.toList_ofList,
        List.singleton_append]

/-- The first characters of a run, if there is a greatest number of them. -/
def capped (most : Option Nat) (run : List Char) : List Char :=
  match most with
  | none => run
  | some limit => run.take limit

theorem capped_nil (most : Option Nat) : capped most [] = [] := by
  cases most with
  | none => rfl
  | some limit => exact List.take_nil

theorem capped_of_full {count : Nat} (hfull : FullAt most count) (run : List Char) :
    capped (most.map (· - count)) run = [] := by
  obtain ⟨limit, hlimit, hle⟩ := hfull
  cases hlimit
  have hnone : limit - count = 0 := by omega
  rw [Option.map_some, hnone]
  rfl

theorem capped_cons {count : Nat} (hopen : ¬ FullAt most count) (c : Char)
    (run : List Char) :
    capped (most.map (· - count)) (c :: run) =
      c :: capped (most.map (· - (count + 1))) run := by
  cases most with
  | none => rfl
  | some limit =>
      have hless : ¬ limit ≤ count := fun hle => hopen ⟨limit, rfl, hle⟩
      have hsome : limit - count = limit - (count + 1) + 1 := by omega
      rw [Option.map_some, hsome]
      rfl

/-- Whether a character belongs to a class. -/
def inClass (members : List Char) (excluded : Bool) (c : Char) : Bool :=
  members.contains c != excluded

/-- The rounds over a class of characters take the longest run of those that fit. -/
theorem series_charTokens (members : List Char) (excluded : Bool) (most : Option Nat)
    (scope : Scope) (count : Nat) {rest : List Char} (hsees : place.Sees text rest) :
    Series text (.ofForm (.charClass members excluded)) none most count scope place
      (charTokens place (capped (most.map (· - count))
        (rest.takeWhile (inClass members excluded))))
      (place.past (capped (most.map (· - count))
        (rest.takeWhile (inClass members excluded)))) scope := by
  induction rest generalizing count place with
  | nil =>
      rw [List.takeWhile_nil, capped_nil]
      by_cases hopen : FullAt most count
      · exact .full hopen
      · apply Series.missed hopen
        apply rowMisses_part_iff.mpr
        exact Pattern.misses_of_form (Form.charClass_misses hsees (by simp))
  | cons c after ih =>
      by_cases hopen : FullAt most count
      · rw [capped_of_full hopen]
        exact .full hopen
      by_cases hfits : inClass members excluded c = true
      · have hseen : place.Sees text ([c] ++ after) := hsees
        rw [List.takeWhile_cons_of_pos hfits, capped_cons hopen]
        have hmoved : (place.step c).offset ≠ place.offset := by
          rw [Position.offset_step]
          exact Nat.succ_ne_self _
        have hchar : (Pattern.ofForm (.charClass members excluded)).Matches text scope place
            ⟨.token ⟨String.ofList [c], place, place.step c⟩, place.step c, scope⟩ :=
          Pattern.matches_ofForm_iff.mpr
            ((Form.matches_charClass_iff hsees).mpr ⟨c, after, rfl, hfits, rfl⟩)
        exact .moved hopen (rowMatches_part_iff.mpr ⟨rfl, hchar⟩) hmoved (ih _ hseen.past)
      · rw [List.takeWhile_cons_of_neg hfits, capped_nil]
        apply Series.missed hopen
        apply rowMisses_part_iff.mpr
        refine Pattern.misses_of_form (Form.charClass_misses hsees ?_)
        simpa [inClass] using hfits

namespace Pattern

variable {members rest : List Char} {excluded : Bool} {low : Nat} {lower : Term}
  {upper : Option Term}

theorem series_of_run (members : List Char) (excluded : Bool) (most : Option Nat)
    (scope : Scope) (hsees : place.Sees text rest) :
    Series text (.ofForm (.charClass members excluded)) none most 0 scope place
      (charTokens place (capped most (rest.takeWhile (inClass members excluded))))
      (place.past (capped most (rest.takeWhile (inClass members excluded)))) scope := by
  have hsame : most.map (· - 0) = most := by cases most <;> rfl
  have hseries := series_charTokens members excluded most scope 0 hsees
  rwa [hsame] at hseries

/-- A repeated class of characters matches exactly if there are enough that fit, and takes
the longest run of them. -/
theorem matches_run_iff (hsees : place.Sees text rest)
    (hbounds : Match.resolveBounds scope lower upper = .ok (low, most)) :
    ((ofForm (.charClass members excluded)).bounded lower upper).Matches text scope place
        success ↔
      low ≤ (capped most (rest.takeWhile (inClass members excluded))).length ∧
        success =
          ⟨.list (charTokens place (capped most (rest.takeWhile (inClass members excluded)))),
            place.past (capped most (rest.takeWhile (inClass members excluded))), scope⟩ := by
  have hseries := series_of_run members excluded most scope hsees
  refine matches_ofForm_iff.trans ((Form.matches_repetition_iff hbounds).trans ?_)
  constructor
  · rintro ⟨values, hother, henough, hvalue⟩
    obtain ⟨rfl, hstop, hinner⟩ := hother.unique hseries
    obtain ⟨content, stop, within⟩ := success
    cases hvalue
    cases hstop
    cases hinner
    rw [length_charTokens] at henough
    exact ⟨henough, rfl⟩
  · rintro ⟨henough, rfl⟩
    refine ⟨_, hseries, ?_, rfl⟩
    rwa [length_charTokens]

theorem run_misses (hsees : place.Sees text rest)
    (hbounds : Match.resolveBounds scope lower upper = .ok (low, most))
    (hfew : (capped most (rest.takeWhile (inClass members excluded))).length < low) :
    ((ofForm (.charClass members excluded)).bounded lower upper).Misses text scope place := by
  apply misses_of_form
  apply Form.repetition_misses hbounds (series_of_run members excluded most scope hsees)
  rwa [length_charTokens]

/-- A repeated class of which something is needed misses where no character fits. -/
theorem run_misses_of_head (hsees : place.Sees text rest)
    (hbounds : Match.resolveBounds scope lower upper = .ok (low, most)) (hlow : 0 < low)
    (hrest : ∀ c ∈ rest.head?, inClass members excluded c = false) :
    ((ofForm (.charClass members excluded)).bounded lower upper).Misses text scope place := by
  apply run_misses hsees hbounds
  have hnone : rest.takeWhile (inClass members excluded) = [] := by
    cases rest with
    | nil => rfl
    | cons c further => exact List.takeWhile_cons_of_neg (by simp [hrest c rfl])
  rwa [hnone, capped_nil]

variable {run after : List Char}

/-- A repeated class passes over a run of characters that fit, and stops before one that
does not. -/
theorem run_split (hsees : place.Sees text rest)
    (hbounds : Match.resolveBounds scope lower upper = .ok (low, none))
    (hmatches : ((ofForm (.charClass members excluded)).bounded lower upper).Matches text scope
      place success) :
    ∃ run after, rest = run ++ after ∧ (∀ c ∈ run, inClass members excluded c = true) ∧
      (∀ c ∈ after.head?, inClass members excluded c = false) ∧ low ≤ run.length ∧
      success = ⟨.list (charTokens place run), place.past run, scope⟩ := by
  obtain ⟨hlow, hsuccess⟩ := (matches_run_iff hsees hbounds).mp hmatches
  refine ⟨rest.takeWhile (inClass members excluded), rest.dropWhile (inClass members excluded),
    List.takeWhile_append_dropWhile.symm, fun c hc => List.mem_takeWhile_imp hc, ?_, hlow,
    hsuccess⟩
  intro c hc
  have hstop := List.head?_dropWhile_not (inClass members excluded) rest
  rw [Option.mem_def.mp hc] at hstop
  exact hstop

theorem run_matches (hsees : place.Sees text (run ++ after))
    (hbounds : Match.resolveBounds scope lower upper = .ok (low, none))
    (hrun : ∀ c ∈ run, inClass members excluded c = true)
    (hafter : ∀ c ∈ after.head?, inClass members excluded c = false)
    (hlow : low ≤ run.length) :
    ((ofForm (.charClass members excluded)).bounded lower upper).Matches text scope place
      ⟨.list (charTokens place run), place.past run, scope⟩ := by
  have hlongest : (run ++ after).takeWhile (inClass members excluded) = run := by
    rw [List.takeWhile_append_of_pos hrun]
    cases after with
    | nil => rw [List.takeWhile_nil, List.append_nil]
    | cons c further =>
        have hc := hafter c rfl
        rw [List.takeWhile_cons_of_neg (by simp [hc]), List.append_nil]
  apply (matches_run_iff hsees hbounds).mpr
  rw [hlongest]
  exact ⟨hlow, rfl⟩

/-- A class repeated a number of times passes over so many characters that fit. -/
theorem times_split (hsees : place.Sees text rest)
    (hbounds : Match.resolveBounds scope lower upper = .ok (low, some low))
    (hmatches : ((ofForm (.charClass members excluded)).bounded lower upper).Matches text scope
      place success) :
    ∃ run after, rest = run ++ after ∧ (∀ c ∈ run, inClass members excluded c = true) ∧
      run.length = low ∧ success = ⟨.list (charTokens place run), place.past run, scope⟩ := by
  obtain ⟨hlow, hsuccess⟩ := (matches_run_iff hsees hbounds).mp hmatches
  have hprefix : capped (some low) (rest.takeWhile (inClass members excluded)) <+: rest :=
    (List.take_prefix _ _).trans (List.takeWhile_prefix _)
  obtain ⟨after, hafter⟩ := hprefix
  refine ⟨_, after, hafter.symm, fun c hc => ?_, ?_, hsuccess⟩
  · exact List.mem_takeWhile_imp (List.mem_of_mem_take hc)
  · exact Nat.le_antisymm (List.length_take_le _ _) hlow

theorem times_matches (hsees : place.Sees text (run ++ after))
    (hbounds : Match.resolveBounds scope lower upper = .ok (low, some low))
    (hrun : ∀ c ∈ run, inClass members excluded c = true) (hlow : run.length = low) :
    ((ofForm (.charClass members excluded)).bounded lower upper).Matches text scope place
      ⟨.list (charTokens place run), place.past run, scope⟩ := by
  have hlongest : capped (some low) ((run ++ after).takeWhile (inClass members excluded)) =
      run := by
    rw [List.takeWhile_append_of_pos hrun, ← hlow]
    exact List.take_left
  apply (matches_run_iff hsees hbounds).mpr
  rw [hlongest]
  exact ⟨hlow.ge, rfl⟩

/-- In a scope, a pattern matches exactly where a character comes next. -/
def Marks (text : String) (scope : Scope) (pattern : Pattern) (mark : Char) : Prop :=
  ∀ ⦃place : Position⦄ ⦃rest : List Char⦄, place.Sees text rest →
    ((∃ success, pattern.Matches text scope place success) ↔ rest.head? = some mark)

theorem marks_literal (text : String) (scope : Scope) {expected : String} {mark : Char}
    (hexpected : expected.toList = [mark]) : Marks text scope (literal expected) mark := by
  intro place rest hsees
  rw [List.head?_eq_some_iff]
  constructor
  · rintro ⟨success, hmatches⟩
    obtain ⟨after, hrest, -⟩ := (matches_literal_iff hsees).mp hmatches
    rw [hexpected] at hrest
    exact ⟨after, hrest⟩
  · rintro ⟨after, hrest⟩
    refine ⟨_, (matches_literal_iff hsees).mpr ⟨after, ?_, rfl⟩⟩
    rw [hexpected]
    exact hrest

theorem marks_named {name expected : String} {content : Value} {mark : Char}
    (hbound : scope.find? name = some (.value content)) (hcontent : content.asText? = some expected)
    (hexpected : expected.toList = [mark]) : Marks text scope (named name) mark := by
  intro place rest hsees
  simp only [matches_named_text_iff hbound hcontent]
  exact marks_literal text scope hexpected hsees

/-- Rounds over what is not a mark take everything up to the next mark, or to the end. -/
theorem excluded_series_split {pattern : Pattern} {mark : Char} {count : Nat}
    {values : List Value} (hmark : Marks text scope pattern mark)
    (hseries : Series text pattern.exclude none none count scope place values stop inner)
    (hsees : place.Sees text rest) :
    ∃ run after, rest = run ++ after ∧ mark ∉ run ∧ (∀ c ∈ after.head?, c = mark) ∧
      stop = place.past run ∧ inner = scope := by
  induction hseries generalizing rest with
  | full hfull => exact absurd hfull not_fullAt_none
  | missed _ hmissed =>
      refine ⟨[], rest, rfl, List.not_mem_nil, fun c hc => ?_, rfl, rfl⟩
      rcases Form.absence_one_missed (misses_iff.mp (rowMisses_part_iff.mp hmissed)) with
        hpresent | hend
      · rw [(hmark hsees).mp hpresent] at hc
        exact (Option.some.inj hc).symm
      · cases hsees.symm.trans hend
        cases hc
  | still _ hrow hstill =>
      obtain ⟨-, hpart⟩ := rowMatches_part_iff.mp hrow
      obtain ⟨-, -, c, _, -, hstop⟩ := Form.absence_one_taken (matches_ofForm_iff.mp hpart)
      dsimp only at hstop
      rw [hstop, Position.offset_step] at hstill
      omega
  | moved _ hrow _ _ ih =>
      obtain ⟨-, hpart⟩ := rowMatches_part_iff.mp hrow
      obtain ⟨hmissed, hscope, c, further, hseen, hstop⟩ :=
        Form.absence_one_taken (matches_ofForm_iff.mp hpart)
      dsimp only at hscope hstop
      subst hscope hstop
      cases hsees.symm.trans hseen
      have hnext : Position.Sees text (Position.past _ [c]) further := Position.Sees.past hsees
      obtain ⟨run, after, rfl, hrun, hafter, rfl, hinner⟩ := ih hmark hnext
      refine ⟨c :: run, after, rfl, ?_, hafter, rfl, hinner⟩
      intro hmem
      rcases List.mem_cons.mp hmem with rfl | hlater
      · obtain ⟨success, hmatches⟩ := (hmark hsees).mpr rfl
        exact hmatches.not_misses hmissed
      · exact hrun hlater

/-- A repetition of what is not a mark takes everything up to the next mark, or to the end. -/
theorem excluded_run_split {pattern : Pattern} {mark : Char} (hmark : Marks text scope pattern mark)
    (hmatches : pattern.exclude.many.Matches text scope place success)
    (hsees : place.Sees text rest) :
    ∃ run after, rest = run ++ after ∧ mark ∉ run ∧ (∀ c ∈ after.head?, c = mark) ∧
      success.position = place.past run ∧ success.scope = scope := by
  obtain ⟨values, hseries, -, -⟩ := (matches_atLeast_iff (Nat.zero_le _)).mp hmatches
  exact excluded_series_split hmark hseries hsees

end Pattern

end ScopedGrammar
