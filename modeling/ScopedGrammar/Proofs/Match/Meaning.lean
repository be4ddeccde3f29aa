/-
# What patterns come to

Over a complete text, a pattern matches, with a value, a position and a scope, or it misses,
or it halts. This module says what it takes for each form to match or to miss, in terms of
what the patterns inside it come to and of the characters that a position sees. The
statements about matches are equivalences: they serve to build a match from its parts as
well as to take one apart.
-/

import ScopedGrammar.Proofs.Match.Outcomes
import ScopedGrammar.Proofs.Match.Reach
import ScopedGrammar.Pattern.Build

namespace ScopedGrammar

variable {text : String} {scope inner : Scope} {place stop : Position} {success : Match}

/-- A pattern matches, given enough steps. -/
def Pattern.Matches (text : String) (pattern : Pattern) (scope : Scope) (place : Position)
    (success : Match) : Prop :=
  Comes text (fun granted => pattern.run granted scope place) (.matched success)

/-- A pattern misses, given enough steps. -/
def Pattern.Misses (text : String) (pattern : Pattern) (scope : Scope)
    (place : Position) : Prop :=
  Comes text (fun granted => pattern.run granted scope place) .missed

/-- A form matches, given enough steps. -/
def Form.Matches (text : String) (shape : Form) (scope : Scope) (place : Position)
    (success : Match) : Prop :=
  Comes text (fun granted => Match.form (Pattern.run granted) granted shape scope place)
    (.matched success)

/-- A form misses, given enough steps. -/
def Form.Misses (text : String) (shape : Form) (scope : Scope) (place : Position) : Prop :=
  Comes text (fun granted => Match.form (Pattern.run granted) granted shape scope place)
    .missed

/-- Patterns match one after the other, given enough steps. -/
def RowMatches (text : String) (parts : List Pattern) (scope : Scope) (place : Position)
    (values : List Value) (stop : Position) (inner : Scope) : Prop :=
  Comes text (fun granted => Match.allOf (Pattern.run granted) parts scope place)
    (.matched (values, stop, inner))

/-- One of several patterns in a row misses, given enough steps. -/
def RowMisses (text : String) (parts : List Pattern) (scope : Scope)
    (place : Position) : Prop :=
  Comes text (fun granted => Match.allOf (Pattern.run granted) parts scope place) .missed

/-- The first step of a run is for the form of its pattern. -/
theorem comes_run_iff {pattern : Pattern} {verdict : Verdict Match} :
    Comes text (fun granted => pattern.run granted scope place) verdict ↔
      Comes text
        (fun granted => Match.form (Pattern.run granted) granted pattern.form scope place >>=
          fun raw => pure { raw with value := pattern.finishValue raw.value }) verdict := by
  constructor
  · intro hcomes
    obtain ⟨enough, henough⟩ := hcomes.eventually (.run pattern scope place)
    exact ⟨hcomes.1, enough, henough (enough + 1) (Nat.le_succ enough)⟩
  · rintro ⟨hverdict, granted, hending⟩
    exact ⟨hverdict, granted + 1, hending⟩

namespace Pattern

/-- A pattern matches as its form does, with the value that its factory makes. -/
theorem matches_iff {pattern : Pattern} :
    pattern.Matches text scope place success ↔
      ∃ raw, pattern.form.Matches text scope place raw ∧
        { raw with value := pattern.finishValue raw.value } = success :=
  comes_run_iff.trans (comes_bind_succeed_iff (.form pattern.form scope place))

/-- A factory does not change whether a pattern misses. -/
theorem misses_iff {pattern : Pattern} :
    pattern.Misses text scope place ↔ pattern.form.Misses text scope place := by
  refine comes_run_iff.trans ⟨?_, comes_bind_missed_of_first⟩
  rintro ⟨-, granted, hending⟩
  rcases Attempt.andThen_eq_missed_iff.mp hending with hmissed | ⟨raw, between, -, hpure⟩
  · exact ⟨rfl, granted, hmissed⟩
  · cases hpure

theorem misses_of_form {pattern : Pattern} (hmisses : pattern.form.Misses text scope place) :
    pattern.Misses text scope place :=
  misses_iff.mpr hmisses

/-- A pattern without a factory matches as its form does. -/
theorem matches_ofForm_iff {shape : Form} :
    (ofForm shape).Matches text scope place success ↔
      shape.Matches text scope place success := by
  refine matches_iff.trans ⟨?_, fun hraw => ⟨success, hraw, rfl⟩⟩
  rintro ⟨raw, hraw, rfl⟩
  exact hraw

theorem Matches.unique {pattern : Pattern} {other : Match}
    (hmatches : pattern.Matches text scope place success)
    (hother : pattern.Matches text scope place other) : success = other := by
  have hsame := Comes.unique hmatches hother (.run pattern scope place)
  cases hsame
  rfl

theorem Matches.not_misses {pattern : Pattern}
    (hmatches : pattern.Matches text scope place success) :
    ¬ pattern.Misses text scope place := by
  intro hmisses
  have hsame := Comes.unique hmatches hmisses (.run pattern scope place)
  cases hsame

end Pattern

namespace Match

theorem captureToken_eq {run rest : List Char} (hsees : place.Sees text (run ++ rest)) :
    captureToken run.length scope place (Input.ofText text) =
      (.matched ⟨.token ⟨String.ofList run, place, place.past run⟩, place.past run, scope⟩,
        Input.ofText text) := by
  simp only [captureToken, Attempt.bind_eq_andThen, Attempt.andThen, Attempt.read,
    hsees.capture]
  rfl

/-- What a text comes to depends on whether the text that is seen begins with it. -/
theorem text_eq {expected : String} {rest : List Char} (hsees : place.Sees text rest) :
    Match.text expected scope place (Input.ofText text) =
      if expected.toList.isPrefixOf rest then
        (.matched ⟨.token ⟨expected, place, place.past expected.toList⟩,
          place.past expected.toList, scope⟩, Input.ofText text)
      else (.missed, Input.ofText text) := by
  simp only [Match.text, Attempt.bind_eq_andThen, Attempt.andThen, Attempt.read,
    hsees.startsWith]
  split
  next hprefix =>
    obtain ⟨after, rfl⟩ := List.isPrefixOf_iff_prefix.mp hprefix
    rw [← String.length_toList, captureToken_eq hsees, String.ofList_toList]
  next => rfl

/-- What a character class comes to depends on the first character that is seen. -/
theorem oneChar_eq {members : List Char} {excluded : Bool} {rest : List Char}
    (hsees : place.Sees text rest) :
    oneChar members excluded scope place (Input.ofText text) =
      match rest with
      | c :: _ =>
          if members.contains c != excluded then
            (.matched ⟨.token ⟨String.ofList [c], place, place.step c⟩, place.step c, scope⟩,
              Input.ofText text)
          else (.missed, Input.ofText text)
      | [] => (.missed, Input.ofText text) := by
  simp only [oneChar, Attempt.bind_eq_andThen, Attempt.andThen, Attempt.read, hsees.charAt]
  cases rest with
  | nil => rfl
  | cons c after =>
      dsimp only [List.head?_cons]
      split
      · have hseen : place.Sees text ([c] ++ after) := hsees
        exact captureToken_eq hseen
      · rfl

/-- One character is taken if there is one and if its offset fits a word. -/
theorem wide_one_eq (scope : Scope) {rest : List Char} (hsees : place.Sees text rest) :
    wide 1 scope place (Input.ofText text) =
      if offsetBound ≤ place.offset + 1 then (.halted .overflow, Input.ofText text)
      else
        match rest with
        | c :: _ =>
            (.matched ⟨.token ⟨String.ofList [c], place, place.step c⟩, place.step c, scope⟩,
              Input.ofText text)
        | [] => (.missed, Input.ofText text) := by
  rw [wide, if_neg (by decide)]
  split
  · rfl
  · simp only [Attempt.bind_eq_andThen, Attempt.andThen, Attempt.read, Nat.add_sub_cancel,
      Input.has, hsees.charAt]
    cases rest with
    | nil => rfl
    | cons c after =>
        have hseen : place.Sees text ([c] ++ after) := hsees
        exact captureToken_eq hseen

end Match

namespace Form

variable {rest : List Char}

/-- A text matches where it is seen. -/
theorem matches_literal_iff {expected : String} (hsees : place.Sees text rest) :
    (Form.literal (.const (.text expected))).Matches text scope place success ↔
      ∃ after, rest = expected.toList ++ after ∧
        success = ⟨.token ⟨expected, place, place.past expected.toList⟩,
          place.past expected.toList, scope⟩ := by
  constructor
  · rintro ⟨-, granted, hending⟩
    have htext : Match.text expected scope place (Input.ofText text) =
        (.matched success, Input.ofText text) := hending
    rw [Match.text_eq hsees] at htext
    split at htext
    next hprefix =>
      obtain ⟨after, hafter⟩ := List.isPrefixOf_iff_prefix.mp hprefix
      cases htext
      exact ⟨after, hafter.symm, rfl⟩
    next => cases htext
  · rintro ⟨after, rfl, rfl⟩
    refine ⟨rfl, 0, ?_⟩
    show Match.text expected scope place (Input.ofText text) = _
    rw [Match.text_eq hsees, if_pos (List.isPrefixOf_iff_prefix.mpr (List.prefix_append _ _))]

theorem literal_misses {expected : String} (hsees : place.Sees text rest)
    (hother : ¬ expected.toList <+: rest) :
    (Form.literal (.const (.text expected))).Misses text scope place := by
  refine ⟨rfl, 0, ?_⟩
  show Match.text expected scope place (Input.ofText text) = _
  rw [Match.text_eq hsees, if_neg (mt List.isPrefixOf_iff_prefix.mp hother)]

/-- A character class matches where a character that fits is seen. -/
theorem matches_charClass_iff {members : List Char} {excluded : Bool}
    (hsees : place.Sees text rest) :
    (Form.charClass members excluded).Matches text scope place success ↔
      ∃ c after, rest = c :: after ∧ (members.contains c != excluded) = true ∧
        success = ⟨.token ⟨String.ofList [c], place, place.step c⟩, place.step c, scope⟩ := by
  constructor
  · rintro ⟨-, granted, hending⟩
    have hone : Match.oneChar members excluded scope place (Input.ofText text) =
        (.matched success, Input.ofText text) := hending
    rw [Match.oneChar_eq hsees] at hone
    cases rest with
    | nil => cases hone
    | cons c after =>
        dsimp only at hone
        split at hone
        next hfits =>
          cases hone
          exact ⟨c, after, rfl, hfits, rfl⟩
        next => cases hone
  · rintro ⟨c, after, rfl, hfits, rfl⟩
    refine ⟨rfl, 0, ?_⟩
    show Match.oneChar members excluded scope place (Input.ofText text) = _
    rw [Match.oneChar_eq hsees]
    exact if_pos hfits

theorem charClass_misses {members : List Char} {excluded : Bool}
    (hsees : place.Sees text rest)
    (hother : ∀ c ∈ rest.head?, (members.contains c != excluded) = false) :
    (Form.charClass members excluded).Misses text scope place := by
  refine ⟨rfl, 0, ?_⟩
  show Match.oneChar members excluded scope place (Input.ofText text) = _
  rw [Match.oneChar_eq hsees]
  cases rest with
  | nil => rfl
  | cons c after =>
      have hfits := hother c rfl
      dsimp only
      rw [hfits]
      rfl

theorem finish_eq (hsees : place.Sees text rest) :
    Match.finish scope place (Input.ofText text) =
      if rest = [] then (.matched ⟨.endMark, place, scope⟩, Input.ofText text)
      else (.missed, Input.ofText text) := by
  simp only [Match.finish, Attempt.bind_eq_andThen, Attempt.andThen, Attempt.read, Input.isEnd,
    hsees.charAt]
  cases rest <;> rfl

/-- The end of input matches where nothing is seen. -/
theorem matches_finish_iff (hsees : place.Sees text rest) :
    Form.finish.Matches text scope place success ↔
      rest = [] ∧ success = ⟨.endMark, place, scope⟩ := by
  constructor
  · rintro ⟨-, granted, hending⟩
    have hended : Match.finish scope place (Input.ofText text) =
        (.matched success, Input.ofText text) := hending
    rw [finish_eq hsees] at hended
    split at hended
    next hnothing =>
      cases hended
      exact ⟨hnothing, rfl⟩
    next => cases hended
  · rintro ⟨rfl, rfl⟩
    refine ⟨rfl, 0, ?_⟩
    show Match.finish scope place (Input.ofText text) = _
    rw [finish_eq hsees, if_pos rfl]

theorem finish_misses (hsees : place.Sees text rest) (hrest : rest ≠ []) :
    Form.finish.Misses text scope place := by
  refine ⟨rfl, 0, ?_⟩
  show Match.finish scope place (Input.ofText text) = _
  rw [finish_eq hsees, if_neg hrest]

end Form

variable {part : Pattern} {parts : List Pattern} {values : List Value}

theorem rowMatches_nil_iff : RowMatches text [] scope place values stop inner ↔
    values = [] ∧ stop = place ∧ inner = scope := by
  constructor
  · rintro ⟨-, granted, hending⟩
    cases hending
    exact ⟨rfl, rfl, rfl⟩
  · rintro ⟨rfl, rfl, rfl⟩
    exact ⟨rfl, 0, rfl⟩

theorem steady_after_first (parts : List Pattern) (first : Match) :
    Steady fun granted =>
      Match.allOf (Pattern.run granted) parts first.scope first.position >>= fun row =>
        pure (first.value :: row.1, row.2.1, row.2.2) := by
  have hmade (row : List Value × Position × Scope) :
      Steady fun _ => (pure (first.value :: row.1, row.2.1, row.2.2) : Attempt Silence _) :=
    .const (.succeed _)
  exact (Steady.allOf parts first.scope first.position).bind hmade

/-- A row matches exactly if its first pattern does and, after it, the others do. -/
theorem rowMatches_cons_iff :
    RowMatches text (part :: parts) scope place values stop inner ↔
      ∃ success others, part.Matches text scope place success ∧
        RowMatches text parts success.scope success.position others stop inner ∧
        values = success.value :: others := by
  have hothers (first : Match) := Steady.allOf parts first.scope first.position
  refine (comes_bind_matched_iff (.run part scope place) fun first =>
    steady_after_first parts first).trans ?_
  constructor
  · rintro ⟨first, hfirst, hrest⟩
    obtain ⟨⟨others, last, within⟩, hrow, hresult⟩ :=
      (comes_bind_succeed_iff (hothers first)).mp hrest
    cases hresult
    exact ⟨first, others, hfirst, hrow, rfl⟩
  · rintro ⟨first, others, hfirst, hrow, rfl⟩
    exact ⟨first, hfirst, (comes_bind_succeed_iff (hothers first)).mpr ⟨_, hrow, rfl⟩⟩

theorem rowMisses_of_first (hmisses : part.Misses text scope place) :
    RowMisses text (part :: parts) scope place :=
  comes_bind_missed_of_first hmisses

theorem rowMisses_of_rest (hfirst : part.Matches text scope place success)
    (hmisses : RowMisses text parts success.scope success.position) :
    RowMisses text (part :: parts) scope place := by
  refine comes_bind_missed_of_next (.run part scope place) (steady_after_first parts) hfirst ?_
  exact comes_bind_missed_of_first hmisses

theorem rowMatches_singleton_iff :
    RowMatches text [part] scope place values stop inner ↔
      ∃ value, part.Matches text scope place ⟨value, stop, inner⟩ ∧ values = [value] := by
  refine rowMatches_cons_iff.trans ⟨?_, ?_⟩
  · rintro ⟨success, others, hpart, hrest, rfl⟩
    obtain ⟨rfl, rfl, rfl⟩ := rowMatches_nil_iff.mp hrest
    exact ⟨success.value, hpart, rfl⟩
  · rintro ⟨value, hpart, rfl⟩
    exact ⟨_, [], hpart, rowMatches_nil_iff.mpr ⟨rfl, rfl, rfl⟩, rfl⟩

theorem rowMisses_singleton_iff :
    RowMisses text [part] scope place ↔ part.Misses text scope place := by
  refine ⟨?_, rowMisses_of_first⟩
  rintro ⟨-, granted, hending⟩
  rcases Attempt.andThen_eq_missed_iff.mp hending with hmissed | ⟨middle, between, -, hrest⟩
  · exact ⟨rfl, granted, hmissed⟩
  · cases hrest

theorem RowMatches.cons {middle : Position} {within : Scope} {value : Value}
    (hfirst : part.Matches text scope place ⟨value, middle, within⟩)
    (hrest : RowMatches text parts within middle values stop inner) :
    RowMatches text (part :: parts) scope place (value :: values) stop inner :=
  rowMatches_cons_iff.mpr ⟨_, values, hfirst, hrest, rfl⟩

theorem RowMatches.single {value : Value}
    (honly : part.Matches text scope place ⟨value, stop, inner⟩) :
    RowMatches text [part] scope place [value] stop inner :=
  rowMatches_singleton_iff.mpr ⟨value, honly, rfl⟩

namespace Form

/-- A sequence matches exactly if its parts do in a row, with the values that it picks. -/
theorem matches_sequence_iff {picks : Option (List Nat)} :
    (Form.sequence parts picks).Matches text scope place success ↔
      ∃ values, RowMatches text parts scope place values success.position success.scope ∧
        Match.pickValues values picks = .ok success.value := by
  have hpicks (row : List Value × Position × Scope) :
      Steady fun _ => Attempt.resolved (Match.pickValues row.1 picks) >>= fun value =>
        (pure ⟨value, row.2.1, row.2.2⟩ : Attempt Silence Match) :=
    .const (.bind (.resolved _) fun _ => .succeed _)
  refine (comes_bind_matched_iff (.allOf parts scope place) hpicks).trans ?_
  constructor
  · rintro ⟨⟨values, last, within⟩, hvalues, -, granted, hending⟩
    simp only [Attempt.bind_eq_andThen, Attempt.pure_eq_succeed,
      Attempt.andThen_eq_matched_iff, Attempt.resolved_eq_matched_iff,
      Attempt.succeed_eq_matched_iff] at hending
    obtain ⟨value, _, ⟨hpicked, rfl⟩, rfl, -⟩ := hending
    exact ⟨values, hvalues, hpicked⟩
  · rintro ⟨values, hvalues, hpicked⟩
    refine ⟨_, hvalues, rfl, 0, ?_⟩
    dsimp only
    rw [hpicked]
    rfl

theorem sequence_misses {picks : Option (List Nat)}
    (hmisses : RowMisses text parts scope place) :
    (Form.sequence parts picks).Misses text scope place :=
  comes_bind_missed_of_first hmisses

variable {option : Pattern} {options : List Pattern}

/-- A choice matches exactly if an option does and all options before it miss. -/
theorem matches_choice_cons_iff :
    (Form.choice (option :: options)).Matches text scope place success ↔
      option.Matches text scope place success ∨
        (option.Misses text scope place ∧
          (Form.choice options).Matches text scope place success) := by
  have hoption := Steady.run option scope place
  have hoptions := Steady.firstOf options scope place
  constructor
  · rintro ⟨-, granted, hending⟩
    rcases Attempt.orElse_eq_iff.mp hending with ⟨between, hmissed, hrest⟩ | ⟨hfirst, -⟩
    · have hsame := hoption.settled hmissed
      subst hsame
      exact .inr ⟨⟨rfl, granted, hmissed⟩, ⟨rfl, granted, hrest⟩⟩
    · exact .inl ⟨rfl, granted, hfirst⟩
  · rintro (⟨-, granted, hfirst⟩ | ⟨hmissed, hrest⟩)
    · have hrun : option.run granted scope place (Input.ofText text) = _ := hfirst
      refine ⟨rfl, granted, Attempt.orElse_eq_iff.mpr (.inr ⟨hrun, fun between => ?_⟩)⟩
      rw [hrun]
      simp
    · obtain ⟨enough, henough⟩ := Comes.eventually hmissed hoption
      obtain ⟨further, hfurther⟩ := Comes.eventually hrest hoptions
      refine ⟨rfl, max enough further, Attempt.orElse_eq_iff.mpr (.inl ?_)⟩
      exact ⟨_, henough _ (Nat.le_max_left _ _), hfurther _ (Nat.le_max_right _ _)⟩

theorem not_matches_choice_nil : ¬ (Form.choice []).Matches text scope place success := by
  rintro ⟨-, granted, hending⟩
  cases hending

theorem choice_nil_misses : (Form.choice []).Misses text scope place :=
  ⟨rfl, 0, rfl⟩

theorem choice_cons_misses (hfirst : option.Misses text scope place)
    (hrest : (Form.choice options).Misses text scope place) :
    (Form.choice (option :: options)).Misses text scope place := by
  obtain ⟨enough, henough⟩ := Comes.eventually hfirst (.run option scope place)
  obtain ⟨further, hfurther⟩ := Comes.eventually hrest (.firstOf options scope place)
  refine ⟨rfl, max enough further, Attempt.orElse_eq_iff.mpr (.inl ?_)⟩
  exact ⟨_, henough _ (Nat.le_max_left _ _), hfurther _ (Nat.le_max_right _ _)⟩

theorem choice_misses (hmisses : ∀ option ∈ options, option.Misses text scope place) :
    (Form.choice options).Misses text scope place := by
  induction options with
  | nil => exact choice_nil_misses
  | cons first rest ih =>
      rw [List.forall_mem_cons] at hmisses
      exact choice_cons_misses hmisses.1 (ih hmisses.2)

/-- Where a choice misses, each of its options does. -/
theorem option_misses (hmisses : (Form.choice options).Misses text scope place) :
    ∀ option ∈ options, option.Misses text scope place := by
  induction options with
  | nil => exact List.forall_mem_nil _
  | cons first rest ih =>
      obtain ⟨-, granted, hending⟩ := hmisses
      have hoption := Steady.run first scope place
      rcases Attempt.orElse_eq_iff.mp hending with ⟨between, hmissed, hrest⟩ | ⟨hfirst, hother⟩
      · have hsame := hoption.settled hmissed
        subst hsame
        exact List.forall_mem_cons.mpr ⟨⟨rfl, granted, hmissed⟩, ih ⟨rfl, granted, hrest⟩⟩
      · exact absurd hfirst (hother _)

/-- A choice matches as the option after those that miss. -/
theorem choice_matches {front back : List Pattern}
    (hfront : ∀ other ∈ front, other.Misses text scope place)
    (hoption : option.Matches text scope place success) :
    (Form.choice (front ++ option :: back)).Matches text scope place success := by
  induction front with
  | nil => exact matches_choice_cons_iff.mpr (.inl hoption)
  | cons first rest ih =>
      rw [List.forall_mem_cons] at hfront
      exact matches_choice_cons_iff.mpr (.inr ⟨hfront.1, ih hfront.2⟩)

/-- A demand that matches is one that is met. -/
theorem matches_demand_iff {message : Message} :
    (Form.demand option message).Matches text scope place success ↔
      option.Matches text scope place success := by
  constructor
  · rintro ⟨-, granted, hending⟩
    rcases Attempt.orElse_eq_iff.mp hending with ⟨between, -, hcomplain⟩ | ⟨hmet, -⟩
    · cases hcomplain
    · exact ⟨rfl, granted, hmet⟩
  · rintro ⟨-, granted, hmet⟩
    have hrun : option.run granted scope place (Input.ofText text) = _ := hmet
    refine ⟨rfl, granted, Attempt.orElse_eq_iff.mpr (.inr ⟨hrun, fun between => ?_⟩)⟩
    rw [hrun]
    simp

/-- An absence without a width matches exactly where the other pattern misses. -/
theorem matches_absence_zero_iff :
    (Form.absence option 0).Matches text scope place success ↔
      option.Misses text scope place ∧
        success = ⟨.token (Token.nothingAt place), place, scope⟩ := by
  have hnothing : Match.wide 0 scope place (Input.ofText text) =
      (.matched ⟨.token (Token.nothingAt place), place, scope⟩, Input.ofText text) := by
    have hsees : place.Sees text ([] ++ text.toList.drop place.offset) := rfl
    exact Match.captureToken_eq hsees
  constructor
  · rintro ⟨-, granted, hending⟩
    obtain ⟨⟨⟩, between, habsent, hwide⟩ := Attempt.andThen_eq_matched_iff.mp hending
    have hmissed := Attempt.absent_eq_matched_iff.mp habsent
    have hsame := (Steady.run option scope place).settled hmissed
    subst hsame
    rw [hnothing] at hwide
    cases hwide
    exact ⟨⟨rfl, granted, hmissed⟩, rfl⟩
  · rintro ⟨⟨-, granted, hmissed⟩, rfl⟩
    refine ⟨rfl, granted, Attempt.andThen_eq_matched_iff.mpr ?_⟩
    exact ⟨(), _, Attempt.absent_eq_matched_iff.mpr hmissed, hnothing⟩

theorem absence_misses {width : Nat} (hmatches : option.Matches text scope place success) :
    (Form.absence option width).Misses text scope place := by
  obtain ⟨-, granted, hmatched⟩ := hmatches
  have hrun : option.run granted scope place (Input.ofText text) = _ := hmatched
  refine ⟨rfl, granted, Attempt.andThen_eq_missed_iff.mpr (.inl ?_)⟩
  rw [Attempt.absent, hrun]

/-- An absence of one character takes the next one where the other pattern misses, as long as
offsets stay in their word. -/
theorem absence_one_matches {c : Char} {rest : List Char}
    (hmisses : option.Misses text scope place) (hsees : place.Sees text (c :: rest))
    (hword : place.offset + 1 < offsetBound) :
    (Form.absence option 1).Matches text scope place
      ⟨.token ⟨String.ofList [c], place, place.step c⟩, place.step c, scope⟩ := by
  obtain ⟨-, granted, hmissed⟩ := hmisses
  have hwide := Match.wide_one_eq scope hsees
  rw [if_neg (Nat.not_le.mpr hword)] at hwide
  refine ⟨rfl, granted, Attempt.andThen_eq_matched_iff.mpr ?_⟩
  exact ⟨(), _, Attempt.absent_eq_matched_iff.mpr hmissed, hwide⟩

/-- At the end of the text, there is no character whose absence could be taken. -/
theorem absence_one_misses (hmisses : option.Misses text scope place)
    (hsees : place.Sees text []) (hword : place.offset + 1 < offsetBound) :
    (Form.absence option 1).Misses text scope place := by
  obtain ⟨-, granted, hmissed⟩ := hmisses
  have hwide := Match.wide_one_eq scope hsees
  rw [if_neg (Nat.not_le.mpr hword)] at hwide
  refine ⟨rfl, granted, Attempt.andThen_eq_missed_iff.mpr (.inr ?_)⟩
  exact ⟨(), _, Attempt.absent_eq_matched_iff.mpr hmissed, hwide⟩

/-- What an absence of one character has taken is the next character, where the other pattern
misses. -/
theorem absence_one_taken (hmatches : (Form.absence option 1).Matches text scope place success) :
    option.Misses text scope place ∧ success.scope = scope ∧
      ∃ c rest, place.Sees text (c :: rest) ∧ success.position = place.step c := by
  obtain ⟨-, granted, hending⟩ := hmatches
  obtain ⟨⟨⟩, between, habsent, hwide⟩ := Attempt.andThen_eq_matched_iff.mp hending
  have hmissed := Attempt.absent_eq_matched_iff.mp habsent
  have hsame := (Steady.run option scope place).settled hmissed
  subst hsame
  cases hrest : text.toList.drop place.offset with
  | nil =>
      rw [Match.wide_one_eq scope hrest] at hwide
      split at hwide <;> cases hwide
  | cons c rest =>
      rw [Match.wide_one_eq scope hrest] at hwide
      split at hwide
      · cases hwide
      · cases hwide
        exact ⟨⟨rfl, granted, hmissed⟩, rfl, c, rest, hrest, rfl⟩

/-- An absence of one character is missed where the other pattern matches, or at the end. -/
theorem absence_one_missed (hmisses : (Form.absence option 1).Misses text scope place) :
    (∃ other, option.Matches text scope place other) ∨ place.Sees text [] := by
  obtain ⟨-, granted, hending⟩ := hmisses
  rcases Attempt.andThen_eq_missed_iff.mp hending with hpresent | ⟨⟨⟩, between, habsent, hwide⟩
  · obtain ⟨other, hother⟩ := Attempt.absent_eq_missed_iff.mp hpresent
    exact .inl ⟨other, rfl, granted, hother⟩
  · have hsame := (Steady.run option scope place).settled (Attempt.absent_eq_matched_iff.mp habsent)
    subst hsame
    cases hrest : text.toList.drop place.offset with
    | nil => exact .inr hrest
    | cons c rest =>
        rw [Match.wide_one_eq scope hrest] at hwide
        split at hwide <;> cases hwide

/-- A capture matches as its pattern does, and binds the value for what follows. -/
theorem matches_capture_iff {name : String} :
    (Form.capture option name).Matches text scope place success ↔
      ∃ within, option.Matches text scope place within ∧
        { within with scope := within.scope.bind name (.value within.value) } = success :=
  comes_bind_succeed_iff (.run option scope place)

theorem capture_misses {name : String} (hmisses : option.Misses text scope place) :
    (Form.capture option name).Misses text scope place :=
  comes_bind_missed_of_first hmisses

/-- An overlay matches as its pattern does with the bindings, and leaves the scope. -/
theorem matches_overlay_iff {bindings : List (String × Term)} :
    (Form.overlay option bindings).Matches text scope place success ↔
      ∃ frame within, scope.resolveAll bindings = .ok frame ∧
        option.Matches text (scope.push frame) place
          ⟨success.value, success.position, within⟩ ∧ success.scope = scope := by
  constructor
  · rintro ⟨-, granted, hending⟩
    simp only [Match.form, Match.keepScope, Attempt.bind_eq_andThen,
      Attempt.pure_eq_succeed, Attempt.andThen_eq_matched_iff,
      Attempt.resolved_eq_matched_iff, Attempt.succeed_eq_matched_iff] at hending
    obtain ⟨frame, _, ⟨hframe, rfl⟩, matched, _, hmatched, rfl, rfl⟩ := hending
    exact ⟨frame, matched.scope, hframe, ⟨rfl, granted, hmatched⟩, rfl⟩
  · rintro ⟨frame, within, hframe, ⟨-, granted, hmatched⟩, rfl⟩
    refine ⟨rfl, granted, ?_⟩
    simp only [Match.form, Match.keepScope, Attempt.bind_eq_andThen,
      Attempt.pure_eq_succeed, Attempt.andThen_eq_matched_iff,
      Attempt.resolved_eq_matched_iff, Attempt.succeed_eq_matched_iff]
    exact ⟨frame, _, ⟨hframe, rfl⟩, _, _, hmatched, rfl, rfl⟩

/-- A reference to a rule matches as the rule does, and leaves the scope. -/
theorem matches_reference_iff {term : Term} {rule : Pattern}
    (hrule : term.resolve scope = .ok (.rule rule)) :
    (Form.reference term).Matches text scope place success ↔
      ∃ within, rule.Matches text scope place ⟨success.value, success.position, within⟩ ∧
        success.scope = scope := by
  constructor
  · rintro ⟨-, granted, hending⟩
    simp only [Match.form, hrule, Match.follow, Match.keepScope, Attempt.bind_eq_andThen,
      Attempt.pure_eq_succeed, Attempt.andThen_eq_matched_iff,
      Attempt.resolved_eq_matched_iff] at hending
    obtain ⟨_, _, ⟨hbinding, rfl⟩, hfollow⟩ := hending
    cases hbinding
    simp only [Attempt.andThen_eq_matched_iff, Attempt.succeed_eq_matched_iff] at hfollow
    obtain ⟨matched, _, hmatched, rfl, rfl⟩ := hfollow
    exact ⟨matched.scope, ⟨rfl, granted, hmatched⟩, rfl⟩
  · rintro ⟨within, ⟨-, granted, hmatched⟩, rfl⟩
    refine ⟨rfl, granted, ?_⟩
    simp only [Match.form, hrule, Attempt.bind_eq_andThen, Attempt.andThen_eq_matched_iff,
      Attempt.resolved_eq_matched_iff]
    refine ⟨_, _, ⟨rfl, rfl⟩, ?_⟩
    simp only [Match.follow, Match.keepScope, Attempt.bind_eq_andThen,
      Attempt.pure_eq_succeed, Attempt.andThen_eq_matched_iff,
      Attempt.succeed_eq_matched_iff]
    exact ⟨_, _, hmatched, rfl, rfl⟩

theorem reference_misses {term : Term} {rule : Pattern}
    (hrule : term.resolve scope = .ok (.rule rule)) (hmisses : rule.Misses text scope place) :
    (Form.reference term).Misses text scope place := by
  obtain ⟨-, granted, hmissed⟩ := hmisses
  refine ⟨rfl, granted, ?_⟩
  simp only [Match.form, hrule, Match.follow, Match.keepScope, Attempt.bind_eq_andThen,
    Attempt.andThen_eq_missed_iff]
  right
  refine ⟨_, _, Attempt.resolved_eq_matched_iff.mpr ⟨rfl, rfl⟩, ?_⟩
  exact Attempt.andThen_eq_missed_iff.mpr (.inl hmissed)

/-- A reference to a text matches as the text does. -/
theorem reference_comes_iff {name expected : String} {content : Value} {verdict : Verdict Match}
    (hbound : scope.find? name = some (.value content)) (hcontent : content.asText? = some expected) :
    Comes text (fun granted =>
        Match.form (Pattern.run granted) granted (.reference (.name name)) scope place) verdict ↔
      Comes text (fun granted =>
        Match.form (Pattern.run granted) granted (.literal (.const (.text expected))) scope place)
          verdict := by
  have hresolved : (Term.name name).resolve scope = .ok (.value content) := by
    rw [Term.resolve, Scope.lookup, hbound]
  have hform (granted : Nat) (input : Input Silence) :
      Match.form (Pattern.run granted) granted (.reference (.name name)) scope place input =
        Match.text expected scope place input := by
    simp only [Match.form, hresolved, Attempt.bind_eq_andThen, Attempt.andThen,
      Attempt.resolved, Attempt.succeed, Match.follow, hcontent]
  have hliteral (granted : Nat) (input : Input Silence) :
      Match.form (Pattern.run granted) granted (.literal (.const (.text expected))) scope place
        input = Match.text expected scope place input := rfl
  simp only [Comes, hform, hliteral]

end Form

namespace Pattern

variable {rest : List Char} {rule : Pattern} {name : String}

theorem matches_literal_iff {expected : String} (hsees : place.Sees text rest) :
    (literal expected).Matches text scope place success ↔
      ∃ after, rest = expected.toList ++ after ∧
        success = ⟨.token ⟨expected, place, place.past expected.toList⟩,
          place.past expected.toList, scope⟩ :=
  matches_ofForm_iff.trans (Form.matches_literal_iff hsees)

theorem literal_misses {expected : String} (hsees : place.Sees text rest)
    (hother : ¬ expected.toList <+: rest) : (literal expected).Misses text scope place :=
  misses_of_form (Form.literal_misses hsees hother)

theorem not_prefix_of_head {run rest : List Char} {c : Char} (hrun : run.head? = some c)
    (hrest : ∀ d ∈ rest.head?, d ≠ c) : ¬ run <+: rest := by
  rintro ⟨after, rfl⟩
  rw [List.head?_append, hrun] at hrest
  exact hrest c rfl rfl

/-- A text misses where another character comes next than it begins with. -/
theorem literal_misses_of_head {expected : String} {c : Char} (hsees : place.Sees text rest)
    (hexpected : expected.toList.head? = some c) (hrest : ∀ d ∈ rest.head?, d ≠ c) :
    (literal expected).Misses text scope place :=
  literal_misses hsees (not_prefix_of_head hexpected hrest)

/-- A label does not change what a pattern matches. -/
theorem matches_labelled_iff {pattern : Pattern} (label : String) :
    (pattern.labelled label).Matches text scope place success ↔
      pattern.Matches text scope place success := by
  rw [matches_iff, matches_iff]
  rfl

theorem labelled_misses {pattern : Pattern} (label : String)
    (hmisses : pattern.Misses text scope place) :
    (pattern.labelled label).Misses text scope place := by
  have hform := misses_iff.mp hmisses
  exact misses_iff.mpr hform

/-- A choice matches as an option does before which all options miss. -/
theorem choice_matches {option : Pattern} {front back : List Pattern}
    (hmisses : ∀ other ∈ front, other.Misses text scope place)
    (hmatches : option.Matches text scope place success) :
    (choice (front ++ option :: back)).Matches text scope place success :=
  matches_ofForm_iff.mpr (Form.choice_matches hmisses hmatches)

theorem choice_misses {options : List Pattern}
    (hmisses : ∀ option ∈ options, option.Misses text scope place) :
    (choice options).Misses text scope place :=
  misses_of_form (Form.choice_misses hmisses)

theorem map_matches {pattern : Pattern} (make : Value → Value)
    (hmatches : pattern.Matches text scope place success) :
    (pattern.map make).Matches text scope place
      { success with value := make success.value } := by
  obtain ⟨raw, hraw, rfl⟩ := matches_iff.mp hmatches
  obtain ⟨shape, _ | earlier, label⟩ := pattern <;> exact matches_iff.mpr ⟨raw, hraw, rfl⟩

theorem map_misses {pattern : Pattern} (make : Value → Value)
    (hmisses : pattern.Misses text scope place) : (pattern.map make).Misses text scope place := by
  have hform := misses_iff.mp hmisses
  obtain ⟨shape, _ | earlier, label⟩ := pattern <;> exact misses_iff.mpr hform

theorem matches_demand_iff {pattern : Pattern} {template : String} :
    (pattern.demand template).Matches text scope place success ↔
      pattern.Matches text scope place success :=
  matches_ofForm_iff.trans Form.matches_demand_iff

/-- Where a pattern misses, nothing is taken to see that. -/
theorem notAhead_matches {pattern : Pattern} (hmisses : pattern.Misses text scope place) :
    pattern.notAhead.Matches text scope place
      ⟨.token (Token.nothingAt place), place, scope⟩ :=
  matches_ofForm_iff.mpr (Form.matches_absence_zero_iff.mpr ⟨hmisses, rfl⟩)

theorem notAhead_misses {pattern : Pattern} (hmatches : pattern.Matches text scope place success) :
    pattern.notAhead.Misses text scope place :=
  misses_of_form (Form.absence_misses hmatches)

theorem matches_capture_iff {pattern : Pattern} :
    (pattern.capture name).Matches text scope place success ↔
      ∃ within, pattern.Matches text scope place within ∧
        { within with scope := within.scope.bind name (.value within.value) } = success :=
  matches_ofForm_iff.trans Form.matches_capture_iff

theorem capture_misses {pattern : Pattern} (hmisses : pattern.Misses text scope place) :
    (pattern.capture name).Misses text scope place :=
  misses_of_form (Form.capture_misses hmisses)

theorem resolve_name (hrule : scope.rule? name = some rule) :
    (Term.name name).resolve scope = .ok (.rule rule) := by
  rw [Term.resolve, Scope.lookup, Scope.rule?_eq_some_iff.mp hrule]

/-- A name that means a rule matches as the rule does, and leaves the scope. -/
theorem matches_named_iff (hrule : scope.rule? name = some rule) :
    (named name).Matches text scope place success ↔
      ∃ within, rule.Matches text scope place ⟨success.value, success.position, within⟩ ∧
        success.scope = scope :=
  matches_ofForm_iff.trans (Form.matches_reference_iff (resolve_name hrule))

theorem named_misses (hrule : scope.rule? name = some rule)
    (hmisses : rule.Misses text scope place) : (named name).Misses text scope place :=
  misses_of_form (Form.reference_misses (resolve_name hrule) hmisses)

section Texts

variable {expected : String} {content : Value}

/-- A name that means a text matches as the text does. -/
theorem matches_named_text_iff (hbound : scope.find? name = some (.value content))
    (hcontent : content.asText? = some expected) :
    (named name).Matches text scope place success ↔
      (literal expected).Matches text scope place success := by
  rw [named, reference, literal, literalTerm, matches_ofForm_iff, matches_ofForm_iff]
  exact Form.reference_comes_iff hbound hcontent

theorem named_text_misses (hbound : scope.find? name = some (.value content))
    (hcontent : content.asText? = some expected)
    (hmisses : (literal expected).Misses text scope place) :
    (named name).Misses text scope place :=
  misses_of_form ((Form.reference_comes_iff hbound hcontent).mpr (misses_iff.mp hmisses))

end Texts

section Rows

variable {pattern : Pattern} {parts : List Pattern} {picks : Option (List Nat)}
  {values : List Value} {raw : Value}

/-- A pattern that is a sequence matches if its parts do in a row. -/
theorem matches_of_row (hform : pattern.form = .sequence parts picks)
    (hrow : RowMatches text parts scope place values stop inner)
    (hpicked : Match.pickValues values picks = .ok raw) :
    pattern.Matches text scope place ⟨pattern.finishValue raw, stop, inner⟩ := by
  refine matches_iff.mpr ⟨⟨raw, stop, inner⟩, ?_, rfl⟩
  rw [hform]
  exact Form.matches_sequence_iff.mpr ⟨values, hrow, hpicked⟩

/-- A match of a sequence comes from a row of matches of its parts. -/
theorem row_of_matches (hform : pattern.form = .sequence parts picks)
    (hmatches : pattern.Matches text scope place success) :
    ∃ values raw stop inner, RowMatches text parts scope place values stop inner ∧
      Match.pickValues values picks = .ok raw ∧
      success = ⟨pattern.finishValue raw, stop, inner⟩ := by
  obtain ⟨⟨raw, stop, inner⟩, hraw, rfl⟩ := matches_iff.mp hmatches
  rw [hform] at hraw
  obtain ⟨values, hrow, hpicked⟩ := Form.matches_sequence_iff.mp hraw
  exact ⟨values, raw, stop, inner, hrow, hpicked, rfl⟩

theorem misses_of_row (hform : pattern.form = .sequence parts picks)
    (hrow : RowMisses text parts scope place) : pattern.Misses text scope place := by
  apply misses_of_form
  rw [hform]
  exact Form.sequence_misses hrow

end Rows

end Pattern

end ScopedGrammar
