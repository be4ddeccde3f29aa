/-
# Documents

A text is parsed as a document exactly if the language produces it as an element, and then
with the value it stands for. The rules for values, arrays and objects refer to each other, so
the two directions have different inductions. A match is taken apart by induction on the
characters that are left: brackets take one before anything is nested. A document is put
together by induction on its production. There the blanks in front need care, because those
after an opening bracket are taken by the bracket's rule and not by that of the first element.
So what is proved of an element is that it is matched with any blanks in front of its core.
-/

import ScopedGrammar.Proofs.Grammar.Parses
import ScopedGrammar.Proofs.Json.Rules

namespace ScopedGrammar.Json

open Pattern

variable {text : String} {place : Position} {success : Match} {rest run after : List Char}

/-- The rule for values. -/
def valueRule : Pattern :=
  choice [object, array, named "STRING", number, constant]

theorem rule_string : grammar.scope.rule? "STRING" = some (stringRule.labelled "STRING") :=
  rfl

theorem rule_element : grammar.scope.rule? "ELEMENT" = some (element.labelled "ELEMENT") :=
  rfl

theorem rule_member : grammar.scope.rule? "MEMBER" = some (member.labelled "MEMBER") :=
  rfl

theorem rule_value : grammar.scope.rule? "VALUE" = some (valueRule.labelled "VALUE") :=
  rfl

theorem rule_start : grammar.scope.rule? "start" = some ((named "ELEMENT").labelled "start") :=
  rfl

theorem element_form :
    element.form = .sequence [blanks, named "VALUE", blanks] (some [1]) :=
  rfl

theorem member_form :
    member.form = .sequence
      [blanks, named "STRING", blanks,
        (literal ":").demand
          "expected ':' after object key at line \x7bline\x7d, column \x7bcolumn\x7d",
        (named "ELEMENT").demand "expected a value at line \x7bline\x7d, column \x7bcolumn\x7d"]
      (some [1, 4]) :=
  rfl

/-- A name matches as its rule does, if that leaves the scope. -/
theorem matches_rule_iff {name : String} {rule : Pattern}
    (hrule : grammar.scope.rule? name = some (rule.labelled name)) :
    (named name).Matches text grammar.scope place success ↔
      ∃ within, rule.Matches text grammar.scope place ⟨success.value, success.position, within⟩ ∧
        success.scope = grammar.scope := by
  rw [matches_named_iff hrule]
  simp only [matches_labelled_iff]

/-- Every match of a pattern takes a run that stands for its value, as far as fewer characters
are left than a limit. -/
def SoundBelow (text : String) (limit : Nat) (pattern : Pattern)
    (Item : Value → List Char → Prop) : Prop :=
  ∀ (place : Position) (rest : List Char) (success : Match), rest.length < limit →
    place.Sees text rest → pattern.Matches text grammar.scope place success →
    ∃ run after value, rest = run ++ after ∧ Item value run ∧
      success = ⟨value, place.past run, grammar.scope⟩

/-- Items with commas between them. -/
inductive Separated (Item : Value → List Char → Prop) : List Value → List Char → Prop
  | one {value : Value} {run : List Char} (honly : Item value run) :
      Separated Item [value] run
  | more {value : Value} {values : List Value} {run further : List Char}
      (hfirst : Item value run) (hrest : Separated Item values further) :
      Separated Item (value :: values) (run ++ (',' :: further))

/-- The comma that is due after a number of items. -/
def dueComma (count : Nat) : List Char :=
  if count = 0 then [] else [',']

section Items

variable {Item : Value → List Char → Prop} {item : Pattern} {limit count : Nat}
  {front values : List Value} {value : Value} {stop : Position} {inner : Scope}

theorem round_sound (hitem : SoundBelow text limit item Item) (hlimit : rest.length < limit)
    (hsees : place.Sees text rest)
    (hrow : RowMatches text (dueAfter (some (literal ",")) count ++ [item]) grammar.scope place
      (front ++ [value]) stop inner) :
    ∃ run after, rest = dueComma count ++ run ++ after ∧ Item value run ∧
      stop = place.past (dueComma count ++ run) ∧ inner = grammar.scope := by
  cases count with
  | zero =>
      obtain ⟨run, after, _, rfl, hrun, hsuccess⟩ :=
        hitem _ _ _ hlimit hsees (rowMatches_first_iff.mp hrow).2
      cases hsuccess
      exact ⟨run, after, rfl, hrun, rfl, rfl⟩
  | succ count =>
      obtain ⟨due, hdue, -, hmatched⟩ := rowMatches_later_iff.mp hrow
      obtain ⟨after, rfl, rfl⟩ := (matches_literal_iff hsees).mp hdue
      have hless : after.length < limit := by
        rw [List.length_append] at hlimit
        omega
      obtain ⟨run, last, _, rfl, hrun, hsuccess⟩ := hitem _ _ _ hless hsees.past hmatched
      cases hsuccess
      refine ⟨run, last, (List.append_assoc _ _ _).symm, hrun, ?_, rfl⟩
      rw [Position.past_append]
      rfl

/-- A series of items with commas between them takes such items, and nothing if there are
none. -/
theorem separated_of_series (hitem : SoundBelow text limit item Item)
    (hseries : Series text item (some (literal ",")) none count grammar.scope place values stop
      inner) (hlimit : rest.length < limit) (hsees : place.Sees text rest) :
    ∃ run after, rest = run ++ after ∧ stop = place.past run ∧ inner = grammar.scope ∧
      ((values = [] ∧ run = []) ∨
        ∃ items, run = dueComma count ++ items ∧ Separated Item values items) := by
  generalize hscope : grammar.scope = scope at hseries
  induction hseries generalizing rest with
  | full hfull => exact ⟨[], rest, rfl, rfl, rfl, .inl ⟨rfl, rfl⟩⟩
  | missed hopen hmissed => exact ⟨[], rest, rfl, rfl, rfl, .inl ⟨rfl, rfl⟩⟩
  | still hopen hrow hstill =>
      subst hscope
      obtain ⟨run, after, rfl, hrun, rfl, rfl⟩ := round_sound hitem hlimit hsees hrow
      exact ⟨_, after, rfl, rfl, rfl, .inr ⟨run, rfl, .one hrun⟩⟩
  | @moved count _ _ _ _ _ _ _ _ _ hopen hrow hmoved hrest ih =>
      subst hscope
      obtain ⟨run, after, rfl, hrun, rfl, rfl⟩ := round_sound hitem hlimit hsees hrow
      have hless : after.length < limit := by
        rw [List.length_append] at hlimit
        omega
      obtain ⟨more, last, rfl, rfl, rfl, hmore⟩ := ih hless hsees.past rfl
      refine ⟨dueComma count ++ run ++ more, last, (List.append_assoc _ _ _).symm,
        (Position.past_append _ _ _).symm, rfl, .inr ⟨run ++ more, List.append_assoc _ _ _, ?_⟩⟩
      rcases hmore with ⟨rfl, rfl⟩ | ⟨items, rfl, hitems⟩
      · rw [List.append_nil]
        exact .one hrun
      · exact .more hrun hitems

end Items

/-- Items with commas between them, as containers have them. -/
def commaSeparated (item : Pattern) : Pattern :=
  ofForm (.repetition item (Term.ofCount 0) none (some (literal ",")) false)

/-- A pattern that is a container: brackets around blanks and items. -/
def IsContainer (pattern item : Pattern) (opening closing : String) : Prop :=
  ∃ template, pattern.form = .sequence
    [literal opening, blanks, commaSeparated item, (literal closing).demand template] (some [2])

theorem array_container : IsContainer array (named "ELEMENT") "[" "]" :=
  ⟨_, rfl⟩

theorem object_container : IsContainer object (named "MEMBER") "\x7b" "\x7d" :=
  ⟨_, rfl⟩

section Containers

variable {Item : Value → List Char → Prop} {pattern item : Pattern}
  {opening closing : String} {limit : Nat}

/-- A container takes its opening bracket, blanks, items with commas between them, and its
closing bracket. -/
theorem container_sound (hcontainer : IsContainer pattern item opening closing)
    (hopening : opening.toList ≠ []) (hitem : SoundBelow text limit item Item)
    (hlimit : rest.length ≤ limit) (hsees : place.Sees text rest)
    (hmatches : pattern.Matches text grammar.scope place success) :
    ∃ gap run after values, rest = opening.toList ++ (gap ++ (run ++ closing.toList)) ++ after ∧
      Blank gap ∧ ((values = [] ∧ run = []) ∨ Separated Item values run) ∧
      success = ⟨pattern.finishValue (.list values),
        place.past (opening.toList ++ (gap ++ (run ++ closing.toList))), grammar.scope⟩ := by
  obtain ⟨template, hform⟩ := hcontainer
  obtain ⟨values, value, stop, inner, hrow, hpicked, rfl⟩ := row_of_matches hform hmatches
  obtain ⟨start, others, hstart, hothers, rfl⟩ := rowMatches_cons_iff.mp hrow
  obtain ⟨blank, others, hblank, hitems, rfl⟩ := rowMatches_cons_iff.mp hothers
  obtain ⟨middle, others, hmiddle, hlast, rfl⟩ := rowMatches_cons_iff.mp hitems
  obtain ⟨final, hfinal, rfl⟩ := rowMatches_singleton_iff.mp hlast
  cases hpicked
  obtain ⟨_, _, _, rfl, rfl, -, rfl⟩ := copies_literal _ _ _ _ _ _ hsees hstart
  obtain ⟨gap, _, _, rfl, hgap, -, rfl⟩ := blanks_copies _ _ _ hsees.past hblank
  obtain ⟨values, hseries, -, hvalue⟩ := (matches_atLeast_iff (Nat.zero_le _)).mp hmiddle
  have hopened := List.length_pos_iff.mpr hopening
  rw [List.length_append, List.length_append] at hlimit
  obtain ⟨run, _, rfl, hstop, hinner, hrun⟩ :=
    separated_of_series hitem hseries (by omega) hsees.past.past
  rw [hstop, hinner] at hfinal
  obtain ⟨after, rfl, hsuccess⟩ :=
    (matches_literal_iff hsees.past.past.past).mp (matches_demand_iff.mp hfinal)
  obtain ⟨-, hlast, hscope⟩ := Match.mk.inj hsuccess
  subst hlast hscope
  refine ⟨gap, run, after, values, by simp only [List.append_assoc], hgap, ?_, ?_⟩
  · rcases hrun with hnothing | ⟨items, rfl, hitems⟩
    · exact .inl hnothing
    · exact .inr hitems
  · rw [Position.past_append, Position.past_append, Position.past_append, ← hvalue]
    rfl

end Containers

section Soundness

variable {limit : Nat}

/-- What an element stands for. -/
def IsElement (value : Value) (run : List Char) : Prop :=
  Produces (.element value) run

/-- What a member stands for, as its rule gives it. -/
def IsMember (member : Value) (run : List Char) : Prop :=
  ∃ key value, member = .list [.text key, value] ∧ Produces (.member key value) run

/-- What a string stands for. -/
def IsString (value : Value) (run : List Char) : Prop :=
  ∃ body content, value = .text (String.ofList content) ∧ run = '"' :: (body ++ ['"']) ∧
    Body body content

/-- What a value stands for. -/
def IsValue (value : Value) (run : List Char) : Prop :=
  Produces (.value value) run

theorem produces_elements {values : List Value} (hvalues : Separated IsElement values run) :
    Produces (.elements values) run := by
  induction hvalues with
  | one honly => exact .oneElement honly
  | more hfirst hrest ih => exact .moreElements hfirst ih

theorem memberEntry_eq (key : String) (value : Value) :
    memberEntry (.list [.text key, value]) = (key, value) :=
  rfl

theorem produces_members {members : List Value} (hmembers : Separated IsMember members run) :
    Produces (.members (members.map memberEntry)) run := by
  induction hmembers with
  | one honly =>
      obtain ⟨key, value, rfl, hmember⟩ := honly
      rw [List.map_singleton, memberEntry_eq]
      exact .oneMember hmember
  | more hfirst hrest ih =>
      obtain ⟨key, value, rfl, hmember⟩ := hfirst
      rw [List.map_cons, memberEntry_eq]
      exact .moreMembers hmember ih

/-- A reference takes what its rule takes. -/
theorem sound_of_rule {name : String} {rule : Pattern} {Item : Value → List Char → Prop}
    (hrule : grammar.scope.rule? name = some (rule.labelled name))
    (hsound : SoundBelow text limit rule Item) : SoundBelow text limit (named name) Item := by
  intro place rest success hlimit hsees hmatches
  obtain ⟨within, hmatched, hscope⟩ := (matches_rule_iff hrule).mp hmatches
  obtain ⟨run, after, value, hrest, hitem, hsuccess⟩ := hsound _ _ _ hlimit hsees hmatched
  obtain ⟨hvalue, hstop, -⟩ := Match.mk.inj hsuccess
  obtain ⟨content, stop, inner⟩ := success
  cases hvalue
  cases hscope
  subst hstop
  exact ⟨run, after, _, hrest, hitem, rfl⟩

theorem string_sound : SoundBelow text limit stringRule IsString := by
  intro place rest success _ hsees hmatches
  obtain ⟨run, after, content, rfl, hbody, rfl⟩ := stringRule_sound hsees hmatches
  refine ⟨_, after, _, ?_, ⟨_, _, rfl, rfl, hbody⟩, rfl⟩
  simp only [List.cons_append, List.append_assoc, List.nil_append]

theorem element_sound (hvalue : SoundBelow text limit valueRule IsValue) :
    SoundBelow text limit element IsElement := by
  intro place rest success hlimit hsees hmatches
  obtain ⟨values, value, stop, inner, hrow, hpicked, rfl⟩ := row_of_matches element_form hmatches
  obtain ⟨first, others, hfirst, hothers, rfl⟩ := rowMatches_cons_iff.mp hrow
  obtain ⟨middle, others, hmiddle, hlast, rfl⟩ := rowMatches_cons_iff.mp hothers
  obtain ⟨final, hfinal, rfl⟩ := rowMatches_singleton_iff.mp hlast
  cases hpicked
  obtain ⟨before, _, _, rfl, hbefore, -, rfl⟩ := blanks_copies _ _ _ hsees hfirst
  rw [List.length_append] at hlimit
  obtain ⟨run, _, _, rfl, hrun, rfl⟩ :=
    sound_of_rule rule_value hvalue _ _ _ (by omega) hsees.past hmiddle
  obtain ⟨after, last, _, rfl, hafter, -, hsuccess⟩ := blanks_copies _ _ _ hsees.past.past hfinal
  obtain ⟨-, hstop, hscope⟩ := Match.mk.inj hsuccess
  subst hstop hscope
  refine ⟨_, last, _, ?_, .element hbefore hrun hafter, ?_⟩
  · simp only [List.append_assoc]
  · rw [Position.past_append, Position.past_append]
    rfl

theorem member_sound (hvalue : SoundBelow text limit valueRule IsValue) :
    SoundBelow text limit member IsMember := by
  intro place rest success hlimit hsees hmatches
  obtain ⟨values, value, stop, inner, hrow, hpicked, rfl⟩ := row_of_matches member_form hmatches
  obtain ⟨first, afterFirst, hfirst, hfromKey, rfl⟩ := rowMatches_cons_iff.mp hrow
  obtain ⟨key, afterKey, hkey, hfromGap, rfl⟩ := rowMatches_cons_iff.mp hfromKey
  obtain ⟨gap, afterGap, hgap, hfromColon, rfl⟩ := rowMatches_cons_iff.mp hfromGap
  obtain ⟨colon, others, hcolon, hlast, rfl⟩ := rowMatches_cons_iff.mp hfromColon
  obtain ⟨final, hfinal, rfl⟩ := rowMatches_singleton_iff.mp hlast
  cases hpicked
  obtain ⟨before, _, _, rfl, hbefore, -, rfl⟩ := blanks_copies _ _ _ hsees hfirst
  obtain ⟨name, _, _, rfl, hname, rfl⟩ :=
    sound_of_rule rule_string string_sound _ _ _ (Nat.lt_succ_self _) hsees.past hkey
  obtain ⟨between, _, _, rfl, hbetween, -, rfl⟩ := blanks_copies _ _ _ hsees.past.past hgap
  obtain ⟨_, rfl, rfl⟩ :=
    (matches_literal_iff hsees.past.past.past).mp (matches_demand_iff.mp hcolon)
  simp only [List.length_append] at hlimit
  obtain ⟨run, after, _, rfl, hrun, hsuccess⟩ :=
    sound_of_rule rule_element (element_sound hvalue) _ _ _ (by omega)
      hsees.past.past.past.past (matches_demand_iff.mp hfinal)
  obtain ⟨rfl, rfl, rfl⟩ := Match.mk.inj hsuccess
  obtain ⟨body, content, rfl, rfl, hbody⟩ := hname
  have htaken : before ++ ('"' :: (body ++ ('"' :: (between ++ (':' :: run))))) =
      before ++ ('"' :: (body ++ ['"'])) ++ between ++ ":".toList ++ run := by
    simp only [List.append_assoc, List.cons_append, List.nil_append]
    rfl
  refine ⟨_, after, _, ?_, ⟨_, _, rfl, .member hbefore hbody hbetween hrun⟩, ?_⟩
  · simp only [htaken, List.append_assoc]
  · simp only [htaken, Position.past_append]
    rfl

theorem object_sound (hvalue : SoundBelow text limit valueRule IsValue)
    (hlimit : rest.length ≤ limit) (hsees : place.Sees text rest)
    (hmatches : object.Matches text grammar.scope place success) :
    ∃ run after value, rest = run ++ after ∧ IsValue value run ∧
      success = ⟨value, place.past run, grammar.scope⟩ := by
  obtain ⟨gap, run, after, members, rfl, hgap, hrun, rfl⟩ :=
    container_sound object_container (by decide)
      (sound_of_rule rule_member (member_sound hvalue)) hlimit hsees hmatches
  refine ⟨_, after, _, rfl, ?_, rfl⟩
  rcases hrun with ⟨rfl, rfl⟩ | hmembers
  · exact .emptyObject hgap
  · exact .object hgap (produces_members hmembers)

theorem array_sound (hvalue : SoundBelow text limit valueRule IsValue)
    (hlimit : rest.length ≤ limit) (hsees : place.Sees text rest)
    (hmatches : array.Matches text grammar.scope place success) :
    ∃ run after value, rest = run ++ after ∧ IsValue value run ∧
      success = ⟨value, place.past run, grammar.scope⟩ := by
  obtain ⟨gap, run, after, elements, rfl, hgap, hrun, rfl⟩ :=
    container_sound array_container (by decide)
      (sound_of_rule rule_element (element_sound hvalue)) hlimit hsees hmatches
  refine ⟨_, after, _, rfl, ?_, rfl⟩
  rcases hrun with ⟨rfl, rfl⟩ | helements
  · exact .emptyArray hgap
  · exact .array hgap (produces_elements helements)

/-- A literal with a value of its own. -/
theorem word_sound {word : String} {value : Value} (hsees : place.Sees text rest)
    (hmatches : ((literal word).map fun _ => value).Matches text grammar.scope place success) :
    ∃ after, rest = word.toList ++ after ∧
      success = ⟨value, place.past word.toList, grammar.scope⟩ := by
  obtain ⟨raw, hraw, rfl⟩ := matches_iff.mp hmatches
  obtain ⟨after, rfl, rfl⟩ := (Form.matches_literal_iff hsees).mp hraw
  exact ⟨after, rfl, rfl⟩

theorem constant_sound (hsees : place.Sees text rest)
    (hmatches : constant.Matches text grammar.scope place success) :
    ∃ run after value, rest = run ++ after ∧ IsValue value run ∧
      success = ⟨value, place.past run, grammar.scope⟩ := by
  rcases Form.matches_choice_cons_iff.mp (matches_ofForm_iff.mp hmatches) with
    htrue | ⟨-, hothers⟩
  · obtain ⟨after, rfl, rfl⟩ := word_sound hsees htrue
    exact ⟨_, after, _, rfl, .true, rfl⟩
  rcases Form.matches_choice_cons_iff.mp hothers with hfalse | ⟨-, hothers⟩
  · obtain ⟨after, rfl, rfl⟩ := word_sound hsees hfalse
    exact ⟨_, after, _, rfl, .false, rfl⟩
  rcases Form.matches_choice_cons_iff.mp hothers with hnull | ⟨-, hothers⟩
  · obtain ⟨after, rfl, rfl⟩ := word_sound hsees hnull
    exact ⟨_, after, _, rfl, .null, rfl⟩
  · exact absurd hothers Form.not_matches_choice_nil

/-- Every match of the rule for values takes what the grammar produces for the value. The
induction is on the limit: within brackets fewer characters are left. -/
theorem value_sound (text : String) (limit : Nat) : SoundBelow text limit valueRule IsValue := by
  induction limit with
  | zero => exact fun _ _ _ hlimit => absurd hlimit (Nat.not_lt_zero _)
  | succ limit ih =>
      intro place rest success hlimit hsees hmatches
      have hlimit := Nat.le_of_lt_succ hlimit
      rcases Form.matches_choice_cons_iff.mp (matches_ofForm_iff.mp hmatches) with
        hobject | ⟨-, hothers⟩
      · exact object_sound ih hlimit hsees hobject
      rcases Form.matches_choice_cons_iff.mp hothers with harray | ⟨-, hothers⟩
      · exact array_sound ih hlimit hsees harray
      rcases Form.matches_choice_cons_iff.mp hothers with hstring | ⟨-, hothers⟩
      · obtain ⟨_, after, _, rfl, ⟨body, content, rfl, rfl, hbody⟩, rfl⟩ :=
          sound_of_rule rule_string string_sound _ _ _ (Nat.lt_succ_self _) hsees hstring
        exact ⟨_, after, _, rfl, .string hbody, rfl⟩
      rcases Form.matches_choice_cons_iff.mp hothers with hnumber | ⟨-, hothers⟩
      · obtain ⟨run, after, rfl, hrun, rfl⟩ := number_sound hsees hnumber
        exact ⟨run, after, _, rfl, .number hrun, rfl⟩
      rcases Form.matches_choice_cons_iff.mp hothers with hconstant | ⟨-, hothers⟩
      · exact constant_sound hsees hconstant
      · exact absurd hothers Form.not_matches_choice_nil

end Soundness

end ScopedGrammar.Json
