/-
# What matches of rules are made of

A match of a rule is taken apart into matches of the rules that it uses, each at a place
further on and in a scope where the rules still mean what they mean in the grammar. These
are the steps of an induction on matches: what holds of the parts is told here, and what the
values come to is left to those who ask.
-/

import ScopedGrammar.Proofs.Croco.Contracts
import ScopedGrammar.Proofs.Croco.Spacing
import ScopedGrammar.Proofs.Match.Trails

namespace ScopedGrammar.Croco

open Pattern

variable {text : String} {multiline : Bool} {depth : Nat} {scope inner : Scope}
  {place stop here there : Position} {success : Match} {pattern rule header : Pattern}
  {value : Value} {name : String}

/-- Where a rule is matched: the rules mean what they mean in the grammar, the block has a
depth that is less than the characters so far, and the place has been reached from the start
of the text. -/
structure Reached (text : String) (multiline : Bool) (depth : Nat) (scope : Scope)
    (place : Position) : Prop where
  level : Level multiline depth scope
  deep : depth ≤ place.offset
  fromStart : Position.start.Leads text.toList place

theorem reached_start (text : String) : Reached text false 0 grammar.scope Position.start :=
  ⟨level_grammar, Nat.zero_le _, .refl _ _⟩

/-- The names that patterns of the grammar capture. -/
def captures : List String :=
  ["bracket_opening", "last_op", "quote"]

/-- Captures leave the rules and the depth what they are. -/
theorem Level.extends (hlevel : Level multiline depth scope)
    (hextends : Scope.Extends captures scope inner) : Level multiline depth inner := by
  have hsame : ∀ name ∉ captures, inner.find? name = scope.find? name := fun _ =>
    hextends.find?_eq
  have hother : ∀ name ∈ "SPACES" :: "indent" :: ruleNames, name ∉ captures := by decide
  have hfound : ∀ name ∈ "SPACES" :: "indent" :: ruleNames, inner.find? name = scope.find? name :=
    fun name hname => hsame name (hother name hname)
  have hrule : ∀ name ∈ "SPACES" :: "indent" :: ruleNames, inner.rule? name = scope.rule? name :=
    fun name hname => by rw [Scope.rule?, Scope.rule?, hfound name hname]
  refine ⟨fun name hname => (hrule name (by simp [hname])).trans (hlevel.rules name hname), ?_, ?_⟩
  · exact (hrule "SPACES" (by simp)).trans hlevel.blanks
  · obtain ⟨word, hword, hcount⟩ := hlevel.counts
    exact ⟨word, (hfound "indent" (by simp)).trans hword, hcount⟩

namespace Reached

theorem aligned (hreached : Reached text multiline depth scope place) : Aligned scope place :=
  ⟨multiline, depth, hreached.level, hreached.deep⟩

theorem ready (hreached : Reached text multiline depth scope place) : Ready multiline scope :=
  hreached.level.ready

theorem inText (hreached : Reached text multiline depth scope place) :
    place.offset ≤ text.length := by
  rw [← String.length_toList]
  exact hreached.fromStart.offset_le_length

theorem moved (hreached : Reached text multiline depth scope place)
    (hleads : place.Leads text.toList there) : Reached text multiline depth scope there :=
  ⟨hreached.level, hreached.deep.trans hleads.offset_le, hreached.fromStart.trans hleads⟩

/-- After a match, further rules are matched. -/
theorem after (hreached : Reached text multiline depth scope place)
    (hmatches : pattern.Matches text scope place success)
    (hexposed : pattern.exposed ⊆ captures) :
    Reached text multiline depth success.scope success.position :=
  ⟨hreached.level.extends (hmatches.extends.mono fun _ hname => hexposed hname),
    hreached.deep.trans hmatches.leads.offset_le, hreached.fromStart.trans hmatches.leads⟩

/-- A name means its rule in the grammar. -/
theorem of_named (hreached : Reached text multiline depth scope place) (hname : name ∈ ruleNames)
    (hrule : grammar.scope.rule? name = some (rule.labelled name))
    (hmatches : (named name).Matches text scope place success) :
    ∃ inner, rule.Matches text scope place ⟨success.value, success.position, inner⟩ := by
  obtain ⟨inner, hinner, -⟩ :=
    (matches_named_iff (hreached.level.rule?_eq hname hrule)).mp hmatches
  exact ⟨inner, (matches_labelled_iff name).mp hinner⟩

end Reached

/-- A program is a block, or the text is empty. -/
theorem program_of_parse (hparse : parse text = .ok value) :
    (∃ success, (named "BLOCK").Matches text grammar.scope Position.start success ∧
      success.value = value ∧ success.position.Sees text []) ∨
      (value = .node "block" 1 [] ∧ text.toList = []) := by
  obtain ⟨rule, stop, inner, hrule, hmatches, hend⟩ := Grammar.matches_of_parse hparse
  cases rule_start.symm.trans hrule
  rcases Form.matches_choice_cons_iff.mp
    (matches_ofForm_iff.mp ((matches_labelled_iff "start").mp hmatches)) with hblock | ⟨-, hmore⟩
  · exact .inl ⟨_, hblock, rfl, hend⟩
  rcases Form.matches_choice_cons_iff.mp hmore with hnothing | ⟨-, hnever⟩
  · obtain ⟨raw, hraw, hvalue⟩ := matches_iff.mp hnothing
    obtain ⟨hempty, -⟩ := (Form.matches_finish_iff (Position.Sees.start text)).mp hraw
    cases hvalue
    exact .inr ⟨rfl, hempty⟩
  · exact absurd hnever Form.not_matches_choice_nil

/-- A pattern takes a value between two places, in some scope where rules are matched. -/
def Takes (text : String) (multiline : Bool) (depth : Nat) (pattern : Pattern)
    (here : Position) (value : Value) (there : Position) : Prop :=
  ∃ scope inner, Reached text multiline depth scope here ∧
    pattern.Matches text scope here ⟨value, there, inner⟩

theorem Takes.leads (htakes : Takes text multiline depth pattern here value there) :
    here.Leads text.toList there := by
  obtain ⟨scope, inner, -, hmatches⟩ := htakes
  exact hmatches.leads

/-- A repetition takes values one after the other, if it captures no name of a rule. -/
theorem Reached.trail {separator : Option Pattern} {most : Option Nat} {count : Nat}
    {values : List Value} (hreached : Reached text multiline depth scope place)
    (hseries : Series text pattern separator most count scope place values stop inner)
    (hpattern : pattern.exposed ⊆ captures)
    (hseparator : ∀ between ∈ separator, between.exposed ⊆ captures) :
    Trail text.toList (Takes text multiline depth pattern) place values stop := by
  have hpart (scope : Scope) (place : Position) (success : Match)
      (hreached : Reached text multiline depth scope place)
      (hmatches : pattern.Matches text scope place success) :
      Takes text multiline depth pattern place success.value success.position ∧
        Reached text multiline depth success.scope success.position :=
    ⟨⟨scope, success.scope, hreached, hmatches⟩, hreached.after hmatches hpattern⟩
  exact (hseries.trail hpart (fun between hbetween scope place success hreached hmatches =>
    hreached.after hmatches (hseparator between hbetween)) hreached).1

theorem Reached.chained {most : Option Nat} {count : Nat} {values : List Value}
    (hreached : Reached text multiline depth scope place)
    (hseries : Series text pattern none most count scope place values stop inner)
    (hpattern : pattern.exposed ⊆ captures) :
    Chained (Takes text multiline depth pattern) place values stop :=
  hseries.chained (fun scope _ success hreached hmatches =>
    ⟨⟨scope, success.scope, hreached, hmatches⟩, hreached.after hmatches hpattern⟩) hreached

theorem spaced_form (inner : Pattern) :
    (spaced inner).form = .sequence [named "SPACES", inner, named "SPACES"] (some [1]) :=
  rfl

theorem not_sees_nil {c : Char} {rest : List Char} (hsees : place.Sees text (c :: rest)) :
    ¬ place.Sees text [] := by
  intro hnothing
  cases Eq.trans (Eq.symm hsees) hnothing

/-- The token of an opening bracket is what is captured of it. -/
theorem opening_taken {bracket : Bracket}
    (hmatches : ((literal (String.ofList [bracket.opening])).capture "bracket_opening").Matches
      text scope place success) :
    ¬ place.Sees text [] ∧ success.value = bracket.token place ∧
      success.position = place.past [bracket.opening] := by
  obtain ⟨mark, hmark, rfl⟩ := matches_capture_iff.mp hmatches
  have hsees : place.Sees text (text.toList.drop place.offset) := rfl
  obtain ⟨after, hafter, rfl⟩ := (matches_literal_iff hsees).mp hmark
  rw [String.toList_ofList] at hafter ⊢
  exact ⟨not_sees_nil (hafter ▸ hsees), rfl, rfl⟩

namespace Reached

/-- Blanks stand around a pattern. -/
theorem spaced (hreached : Reached text multiline depth scope place)
    (hmatches : (spaced pattern).Matches text scope place success) :
    ∃ here there inner, place.Leads text.toList here ∧ Reached text multiline depth scope here ∧
      pattern.Matches text scope here ⟨success.value, there, inner⟩ ∧
      there.Leads text.toList success.position := by
  obtain ⟨_, raw, stop, last, hrow, hpicked, rfl⟩ := row_of_matches (spaced_form pattern) hmatches
  obtain ⟨blanks, _, hblanks, hrest, rfl⟩ := rowMatches_cons_iff.mp hrow
  obtain ⟨inside, _, hinside, hlast, rfl⟩ := rowMatches_cons_iff.mp hrest
  obtain ⟨_, hend, rfl⟩ := rowMatches_singleton_iff.mp hlast
  cases hpicked
  have hscope : blanks.scope = scope := hblanks.scope_eq rfl
  rw [hscope] at hinside
  exact ⟨_, _, _, hblanks.leads, hreached.moved hblanks.leads, hinside, hend.leads⟩

theorem bracketBody (hreached : Reached text multiline depth scope place)
    (hmatches : (bracketBody pattern).Matches text scope place success) :
    ∃ here within last, place.Leads text.toList here ∧ Reached text true depth within here ∧
      pattern.Matches text within here ⟨success.value, success.position, last⟩ := by
  obtain ⟨frame, last, hframe, hbody, hscope⟩ :=
    Form.matches_overlay_iff.mp (matches_ofForm_iff.mp hmatches)
  cases hframe
  obtain ⟨_, raw, stop, within, hrow, hpicked, hsuccess⟩ := row_of_matches rfl hbody
  obtain ⟨blanks, _, hblanks, hrest, rfl⟩ := rowMatches_cons_iff.mp hrow
  obtain ⟨value, hinner, rfl⟩ := rowMatches_singleton_iff.mp hrest
  cases hpicked
  have hinside : Reached text true depth (scope.push [("SPACES", .rule (named "MULTILINE_SPACES"))])
      place := ⟨hreached.level.bracketed, hreached.deep, hreached.fromStart⟩
  have hvalue : success.value = value := congrArg Match.value hsuccess
  have hposition : success.position = stop := congrArg Match.position hsuccess
  rw [hvalue, hposition]
  exact ⟨_, _, _, hblanks.leads, hinside.after hblanks (by decide), hinner⟩

/-- What stands between brackets is matched where newlines are blanks. -/
theorem around (bracket : Bracket) {make : Value → Value}
    (hreached : Reached text multiline depth scope place)
    (hmatches : (bracket.around pattern make).Matches text scope place success) :
    ∃ value here there, success.value = make (.list [bracket.token place, value]) ∧
      ¬ place.Sees text [] ∧ place.Leads text.toList here ∧ place.offset < here.offset ∧
      Takes text true depth pattern here value there ∧
      there.Leads text.toList success.position := by
  obtain ⟨message, hform⟩ := around_form bracket pattern make
  obtain ⟨_, raw, stop, last, hrow, hpicked, hsuccess⟩ := row_of_matches hform hmatches
  obtain ⟨opening, _, hopening, hrest, rfl⟩ := rowMatches_cons_iff.mp hrow
  obtain ⟨body, _, hbody, hlast, rfl⟩ := rowMatches_cons_iff.mp hrest
  obtain ⟨_, hclosing, rfl⟩ := rowMatches_singleton_iff.mp hlast
  cases hpicked
  obtain ⟨hsees, htoken, hopened⟩ := opening_taken hopening
  have hafter := hreached.after hopening (by cases bracket <;> decide)
  obtain ⟨here, within, inner, hgap, hhere, hinner⟩ := hafter.bracketBody hbody
  have hless : place.offset < opening.position.offset := by
    rw [hopened, Position.offset_past]
    exact Nat.lt_succ_self _
  refine ⟨body.value, here, body.position, ?_, hsees, hopening.leads.trans hgap,
    Nat.lt_of_lt_of_le hless hgap.offset_le, ⟨within, inner, hhere, hinner⟩, ?_⟩
  · rw [← htoken, hsuccess]
    rfl
  · rw [hsuccess]
    exact hclosing.leads

theorem items (hreached : Reached text multiline depth scope place)
    (hmatches : items.Matches text scope place success) :
    ∃ values, success.value = .list values ∧
      Trail text.toList (Takes text multiline depth (named "EXPRESSION")) place values
        success.position := by
  obtain ⟨values, hseries, -, hvalue⟩ := (matches_atLeast_iff (Nat.zero_le _)).mp hmatches
  exact ⟨values, hvalue, hreached.trail hseries (by decide) (by rintro _ ⟨⟩; decide)⟩

/-- A collection holds expressions. -/
theorem collection (bracket : Bracket) (hreached : Reached text multiline depth scope place)
    (hmatches : bracket.pattern.Matches text scope place success) :
    ∃ members trailing here, success.value = collectionValue bracket.kind
        (.list [bracket.token place, .list [.list members, trailing]]) ∧
      ¬ place.Sees text [] ∧ place.Leads text.toList here ∧ place.offset < here.offset ∧
      Trail text.toList (Takes text true depth (named "EXPRESSION")) here members
        success.position := by
  obtain ⟨value, here, there, hvalue, hsees, hleads, hless, ⟨within, inner, hhere, hinside⟩,
    hlast⟩ := hreached.around bracket hmatches
  obtain ⟨_, raw, stop, last, hrow, hpicked, hsuccess⟩ := row_of_matches rfl hinside
  obtain ⟨list, _, hlist, hrest, rfl⟩ := rowMatches_cons_iff.mp hrow
  obtain ⟨trailing, hcomma, rfl⟩ := rowMatches_singleton_iff.mp hrest
  cases hpicked
  cases hsuccess
  obtain ⟨members, hmembers, htrail⟩ := hhere.items hlist
  rw [hmembers] at hvalue
  exact ⟨members, trailing, here, hvalue, hsees, hleads, hless,
    htrail.after (hcomma.leads.trans hlast)⟩

/-- A primary is a number, a string, a name or a collection, with blanks around it. -/
theorem primary (hreached : Reached text multiline depth scope place)
    (hmatches : (named "PRIMARY").Matches text scope place success) :
    ∃ here there inner, place.Leads text.toList here ∧ Reached text multiline depth scope here ∧
      primaryChoice.Matches text scope here ⟨success.value, there, inner⟩ ∧
      there.Leads text.toList success.position := by
  obtain ⟨inner, hprimary⟩ := hreached.of_named (by decide) rfl hmatches
  have hspaced : (Croco.spaced primaryChoice).Matches text scope place _ := hprimary
  obtain ⟨here, there, within, hlead, hhere, hinside, htrail⟩ := hreached.spaced hspaced
  exact ⟨here, there, within, hlead, hhere, hinside, htrail⟩

/-- What is postfixed is a primary and operations on it. -/
theorem postfixed (hreached : Reached text multiline depth scope place)
    (hmatches : (named (ruleAt postfixRank)).Matches text scope place success) :
    ∃ object operations middle, success.value = foldPostfix (.list [object, .list operations]) ∧
      Takes text multiline depth (named "PRIMARY") place object middle ∧
      Trail text.toList (Takes text multiline depth postfixStep) middle operations
        success.position := by
  obtain ⟨inner, hpostfixed⟩ := hreached.of_named (by decide) rfl hmatches
  obtain ⟨_, raw, stop, last, hrow, hpicked, hsuccess⟩ := row_of_matches postfixed_form hpostfixed
  obtain ⟨object, _, hobject, hrest, rfl⟩ := rowMatches_cons_iff.mp hrow
  obtain ⟨list, _, hlist, hlast, rfl⟩ := rowMatches_cons_iff.mp hrest
  obtain ⟨_, hend, rfl⟩ := rowMatches_singleton_iff.mp hlast
  cases hpicked
  have hmiddle := hreached.after hobject (by decide)
  obtain ⟨operations, hseries, -, hoperations⟩ := (matches_atLeast_iff (Nat.zero_le _)).mp hlist
  refine ⟨object.value, operations, object.position, ?_, ⟨_, _, hreached, hobject⟩, ?_⟩
  · have hvalue : success.value = foldPostfix (.list [object.value, list.value]) :=
      congrArg Match.value hsuccess
    rw [hvalue, hoperations]
  · have hstop : success.position = stop := congrArg Match.position hsuccess
    rw [hstop]
    exact (hmiddle.trail hseries (by decide) (fun _ hnone => nomatch hnone)).after hend.leads

/-- An expression of a tier is an operand and steps, each of an operator and an operand. -/
theorem tier (tier : Tier) (hreached : Reached text multiline depth scope place)
    (hmatches : (named (ruleAt tier.rank)).Matches text scope place success) :
    ∃ first steps middle, success.value = foldOperators tier.kind (.list [first, .list steps]) ∧
      Takes text multiline depth (named (ruleAt (tier.rank + 1))) place first middle ∧
      Trail text.toList (Takes text multiline depth tier.step) middle steps success.position := by
  have hname : ruleAt tier.rank ∈ ruleNames := by cases tier <;> decide
  obtain ⟨inner, hrule⟩ := hreached.of_named hname tier.rule_isRule.2 hmatches
  obtain ⟨_, raw, stop, last, hrow, hpicked, hsuccess⟩ := row_of_matches tier.rule_form hrule
  obtain ⟨first, _, hfirst, hrest, rfl⟩ := rowMatches_cons_iff.mp hrow
  obtain ⟨list, hlist, rfl⟩ := rowMatches_singleton_iff.mp hrest
  cases hpicked
  have hmiddle := hreached.after hfirst (by cases tier <;> decide)
  obtain ⟨steps, hseries, -, hsteps⟩ := (matches_atLeast_iff (Nat.zero_le _)).mp hlist
  have hvalue : success.value = foldOperators tier.kind (.list [first.value, list]) :=
    congrArg Match.value hsuccess
  have hstop : success.position = stop := congrArg Match.position hsuccess
  refine ⟨first.value, steps, first.position, ?_, ⟨_, _, hreached, hfirst⟩, ?_⟩
  · rw [hvalue, show list = .list steps from hsteps]
  · rw [hstop]
    exact hmiddle.trail hseries (by cases tier <;> decide) (fun _ hnone => nomatch hnone)

/-- A step of a tier is an operator and an operand. -/
theorem step (tier : Tier) (hreached : Reached text multiline depth scope place)
    (hmatches : tier.step.Matches text scope place success) :
    ∃ spelling right here, success.value = .list [.text spelling, right] ∧
      place.Leads text.toList here ∧
      Takes text multiline depth (named (ruleAt (tier.rank + 1))) here right
        success.position := by
  obtain ⟨_, raw, stop, last, hrow, hpicked, rfl⟩ := row_of_matches rfl hmatches
  obtain ⟨operator, _, hoperator, hrest, rfl⟩ := rowMatches_cons_iff.mp hrow
  obtain ⟨right, hright, rfl⟩ := rowMatches_singleton_iff.mp hrest
  cases hpicked
  have hhere := hreached.after hoperator (by cases tier <;> decide)
  obtain ⟨spelled, hspelled, hvalue⟩ := matches_capture_iff.mp hoperator
  obtain ⟨words, -, hwords⟩ := matches_iff.mp hspelled
  refine ⟨words.value.spelling, right, operator.position, ?_, hoperator.leads,
    ⟨_, _, hhere, matches_demand_iff.mp hright⟩⟩
  have hword : operator.value = .text words.value.spelling := by
    rw [← hvalue, ← hwords]
    rfl
  rw [← hword]
  rfl

end Reached

theorem simpleLine_form :
    simpleLine.form = .sequence
      [named "INDENT", statements, (named "COMMENT").optional, lineEnd] (some [1]) :=
  rfl

theorem inlineBody_form :
    inlineBody.form = .sequence [statements, (named "COMMENT").optional, lineEnd] (some [0]) :=
  rfl

theorem nestedBody_form :
    nestedBody.form = .sequence [named "SPACES", literal "\n",
      ofForm (.overlay ((named "BLOCK").demand
        "expected an indented block on line \x7bline\x7d") (nextCount "indent"))] (some [2]) :=
  rfl

theorem colon_form :
    colon.form = .sequence [named "SPACES", (literal ":").demand
      "expected ':' on line \x7bline\x7d, column \x7bcolumn\x7d"] (some [1]) :=
  rfl

/-- Only blanks, newlines and comments stand between two places. -/
def SkippedTo (text : String) (place stop : Position) : Prop :=
  ∃ run, place.Passes text run stop ∧ Skipped run

theorem SkippedTo.refl (text : String) (place : Position) : SkippedTo text place place :=
  ⟨[], ⟨text.toList.drop place.offset, rfl, rfl⟩, fun _ => rfl⟩

theorem SkippedTo.leads (hskipped : SkippedTo text place stop) :
    place.Leads text.toList stop := by
  obtain ⟨run, hpasses, -⟩ := hskipped
  exact hpasses.leads

theorem SkippedTo.trans (hskipped : SkippedTo text place here)
    (hfurther : SkippedTo text here there) : SkippedTo text place there := by
  obtain ⟨run, hpasses, hrun⟩ := hskipped
  obtain ⟨further, hlater, hskipped⟩ := hfurther
  exact ⟨run ++ further, hpasses.append hlater, hrun.append hskipped⟩

namespace Reached

/-- A block is a line and further lines. -/
theorem block (hreached : Reached text false depth scope place)
    (hmatches : (named "BLOCK").Matches text scope place success) :
    ∃ first rest middle, success.value = blockValue (.list (first :: rest)) ∧
      line.Matches text scope place ⟨first, middle, scope⟩ ∧
      Chained (Takes text false depth line) middle rest success.position := by
  obtain ⟨inner, hblock⟩ := hreached.of_named (by decide) rfl hmatches
  obtain ⟨raw, hraw, hvalue⟩ := matches_iff.mp hblock
  obtain ⟨parts, hseries, hsome, hparts⟩ :=
    (Form.matches_repetition_iff (Match.resolveBounds_none (by decide))).mp hraw
  obtain ⟨value, stop, within⟩ := success
  cases hvalue
  have hexposed : line.exposed ⊆ captures := by decide
  have hround {middle : Position} {within : Scope} {front : List Value} {first : Value}
      (hrow : RowMatches text (dueAfter none 0 ++ [line]) scope place (front ++ [first]) middle
        within) : line.Matches text scope place ⟨first, middle, scope⟩ ∧ within = scope := by
    obtain ⟨-, hfirst⟩ := rowMatches_part_iff.mp hrow
    obtain rfl : within = scope := hfirst.scope_eq rfl
    exact ⟨hfirst, rfl⟩
  change ∃ first rest middle, blockValue raw.value = _ ∧ _
  rw [hparts]
  cases hseries with
  | full hfull => exact absurd hfull not_fullAt_none
  | missed => cases hsome
  | still _ hrow _ =>
      obtain ⟨hfirst, -⟩ := hround hrow
      exact ⟨_, [], _, rfl, hfirst, .nil⟩
  | moved _ hrow _ hrest =>
      obtain ⟨hfirst, rfl⟩ := hround hrow
      exact ⟨_, _, _, rfl, hfirst,
        (hreached.after hfirst hexposed).chained hrest hexposed⟩

/-- A line is empty, or begins a clause with its branches, or holds statements. -/
theorem line (hmatches : line.Matches text scope place success) :
    (emptyLine.Matches text scope place success ∧ success.value = .empty) ∨
      flow.Matches text scope place success ∨ simpleLine.Matches text scope place success := by
  rcases Form.matches_choice_cons_iff.mp (matches_ofForm_iff.mp hmatches) with hempty | ⟨-, hmore⟩
  · obtain ⟨raw, -, rfl⟩ := matches_iff.mp hempty
    exact .inl ⟨hempty, rfl⟩
  rcases Form.matches_choice_cons_iff.mp hmore with hflow | ⟨-, hmore⟩
  · exact .inr (.inl hflow)
  rcases Form.matches_choice_cons_iff.mp hmore with hsimple | ⟨-, hnone⟩
  · exact .inr (.inr hsimple)
  · exact absurd hnone Form.not_matches_choice_nil

/-- Statements on one line, with semicolons between them. -/
theorem statements (hreached : Reached text multiline depth scope place)
    (hmatches : statements.Matches text scope place success) :
    ∃ values, values ≠ [] ∧ success.value = .list values ∧
      Trail text.toList (Takes text multiline depth (named "STATEMENT")) place values
        success.position := by
  obtain ⟨values, hseries, hsome, hvalue⟩ := (matches_atLeast_iff (by decide)).mp hmatches
  refine ⟨values, List.length_pos_iff.mp hsome, hvalue, ?_⟩
  exact hreached.trail hseries (by decide) (by rintro _ ⟨⟩; decide)

theorem simpleLine (hreached : Reached text false depth scope place)
    (hmatches : simpleLine.Matches text scope place success) :
    ∃ values, values ≠ [] ∧ success.value = .list values ∧
      Trail text.toList (Takes text false depth (named "STATEMENT")) place values
        success.position := by
  obtain ⟨_, raw, stop, inner, hrow, hpicked, rfl⟩ := row_of_matches simpleLine_form hmatches
  obtain ⟨margin, _, hmargin, hline, rfl⟩ := rowMatches_cons_iff.mp hrow
  obtain ⟨row, _, hstatements, hrest, rfl⟩ := rowMatches_cons_iff.mp hline
  obtain ⟨note, _, hnote, hlast, rfl⟩ := rowMatches_cons_iff.mp hrest
  obtain ⟨_, hend, rfl⟩ := rowMatches_singleton_iff.mp hlast
  cases hpicked
  obtain ⟨values, hsome, hvalue, htrail⟩ :=
    (hreached.after hmargin (by decide)).statements hstatements
  exact ⟨values, hsome, hvalue,
    (htrail.after (hnote.leads.trans hend.leads)).before hmargin.leads⟩

theorem flow (hreached : Reached text false depth scope place)
    (hmatches : flow.Matches text scope place success) :
    ∃ first further last middle later,
      success.value = flowValue (.list [first, .list further, last]) ∧
      Takes text false depth (clause headers) place first middle ∧
      Chained (Takes text false depth furtherClause) middle further later ∧
      (last = .list [] ∧ success.position = later ∨
        ∃ clause, last = .list [clause] ∧
          Takes text false depth lastClause later clause success.position) := by
  obtain ⟨_, raw, stop, inner, hrow, hpicked, rfl⟩ := row_of_matches flow_form hmatches
  obtain ⟨first, _, hfirst, hbranches, rfl⟩ := rowMatches_cons_iff.mp hrow
  obtain ⟨list, _, hlist, hrest, rfl⟩ := rowMatches_cons_iff.mp hbranches
  obtain ⟨last, hlast, rfl⟩ := rowMatches_singleton_iff.mp hrest
  cases hpicked
  have hmiddle := hreached.after hfirst (by decide)
  obtain ⟨further, hseries, -, hfurther⟩ := (matches_atLeast_iff (Nat.zero_le _)).mp hlist
  have hlater := hmiddle.after hlist (by decide)
  rw [hfurther]
  refine ⟨first.value, further, last, _, _, rfl, ⟨_, _, hreached, hfirst⟩,
    hmiddle.chained hseries (by decide), ?_⟩
  rcases matches_optional_iff.mp hlast with ⟨clause, hclause, hsome⟩ | ⟨-, hnone⟩
  · cases hsome
    exact .inr ⟨_, rfl, _, _, hlater, hclause⟩
  · cases hnone
    exact .inl ⟨rfl, rfl⟩

/-- A clause is a margin, a header, a colon and a body, one right after the other. -/
theorem clause (hreached : Reached text false depth scope place) (hheader : header.exposed = [])
    (hmatches : (clause header).Matches text scope place success) :
    ∃ heading body tabs mark here there below,
      success.value = clauseValue (.list [heading, body]) ∧
      Takes text false depth (named "INDENT") place tabs here ∧
      Takes text false depth header here heading there ∧
      Takes text false depth colon there mark below ∧
      Takes text false depth (choice [inlineBody, nestedBody]) below body success.position := by
  obtain ⟨_, raw, stop, inner, hrow, hpicked, rfl⟩ :=
    row_of_matches (clause_form header) hmatches
  obtain ⟨margin, _, hmargin, hclause, rfl⟩ := rowMatches_cons_iff.mp hrow
  obtain ⟨heading, _, hheading, hrest, rfl⟩ := rowMatches_cons_iff.mp hclause
  obtain ⟨mark, _, hmark, hlast, rfl⟩ := rowMatches_cons_iff.mp hrest
  obtain ⟨body, hbody, rfl⟩ := rowMatches_singleton_iff.mp hlast
  cases hpicked
  have hhere := hreached.after hmargin (by decide)
  have hthere := hhere.after hheading (by simp [hheader])
  have hbelow := hthere.after hmark (by decide)
  exact ⟨heading.value, body, margin.value, mark.value, margin.position, heading.position,
    mark.position, rfl, ⟨_, _, hreached, hmargin⟩, ⟨_, _, hhere, hheading⟩,
    ⟨_, _, hthere, hmark⟩, ⟨_, _, hbelow, hbody⟩⟩

/-- A body on the line of its header holds statements. -/
theorem inlineBody (hreached : Reached text multiline depth scope place)
    (hmatches : inlineBody.Matches text scope place success) :
    ∃ values, values ≠ [] ∧ success.value = blockValue (.list values) ∧
      Trail text.toList (Takes text multiline depth (named "STATEMENT")) place values
        success.position := by
  obtain ⟨_, raw, stop, inner, hrow, hpicked, rfl⟩ := row_of_matches inlineBody_form hmatches
  obtain ⟨row, _, hstatements, hrest, rfl⟩ := rowMatches_cons_iff.mp hrow
  obtain ⟨note, _, hnote, hlast, rfl⟩ := rowMatches_cons_iff.mp hrest
  obtain ⟨_, hend, rfl⟩ := rowMatches_singleton_iff.mp hlast
  cases hpicked
  obtain ⟨values, hsome, hvalue, htrail⟩ := hreached.statements hstatements
  refine ⟨values, hsome, ?_, htrail.after (hnote.leads.trans hend.leads)⟩
  rw [← hvalue]
  rfl

/-- The block of a body is matched at the next depth. -/
theorem deeperBlock {message : String} (hreached : Reached text false depth scope place)
    (hdeep : depth + 1 ≤ place.offset)
    (hmatches : (ofForm (.overlay ((named "BLOCK").demand message)
      (nextCount "indent"))).Matches text scope place success) :
    ∃ inner, Reached text false (depth + 1) inner place ∧
      (named "BLOCK").Matches text inner place ⟨success.value, success.position, inner⟩ := by
  obtain ⟨frame, within, hframe, hdemand, -⟩ :=
    Form.matches_overlay_iff.mp (matches_ofForm_iff.mp hmatches)
  rw [hreached.level.counts.resolveAll_next] at hframe
  cases hcount : Value.ofInt? (depth + 1) with
  | none =>
      rw [hcount] at hframe
      cases hframe
  | some next =>
      rw [hcount] at hframe
      cases hframe
      have hblock := matches_demand_iff.mp hdemand
      obtain rfl := hblock.scope_eq rfl
      exact ⟨_, ⟨hreached.level.nested hcount, hdeep, hreached.fromStart⟩, hblock⟩

/-- A body on the lines after its header is a block at the next depth, which begins after a
newline. -/
theorem nestedBody (hreached : Reached text false depth scope place)
    (hmatches : nestedBody.Matches text scope place success) :
    ∃ inner here below, skip false false (text.toList.drop place.offset) = '\n' :: below ∧
      here.Sees text below ∧ SkippedTo text place here ∧ place.offset < here.offset ∧
      Reached text false (depth + 1) inner here ∧
      (named "BLOCK").Matches text inner here ⟨success.value, success.position, inner⟩ := by
  obtain ⟨_, raw, stop, last, hrow, hpicked, rfl⟩ := row_of_matches nestedBody_form hmatches
  obtain ⟨blanks, _, hblanks, hrest, rfl⟩ := rowMatches_cons_iff.mp hrow
  obtain ⟨newline, _, hnewline, hlast, rfl⟩ := rowMatches_cons_iff.mp hrest
  obtain ⟨body, hbody, rfl⟩ := rowMatches_singleton_iff.mp hlast
  cases hpicked
  -- Blanks take all that they can, so the newline stands where they leave the text.
  have hsees : place.Sees text (text.toList.drop place.offset) := rfl
  obtain ⟨taken, run, hrun, hspaces⟩ := spaces_match hreached.ready nofun hsees
  obtain rfl := hblanks.unique hspaces
  have hseen : place.Sees text (run ++ skip false false (text.toList.drop place.offset)) := hrun
  obtain ⟨below, hbelow, rfl⟩ := (matches_literal_iff hseen.past).mp hnewline
  have hnext : (place.past run).Sees text ("\n".toList ++ below) := hbelow ▸ hseen.past
  have hline : SkippedTo text (place.past run) ((place.past run).past "\n".toList) :=
    ⟨"\n".toList, ⟨below, hnext, rfl⟩, skipped_blanks (by decide)⟩
  have hless : place.offset < ((place.past run).past "\n".toList).offset := by
    rw [Position.offset_past, Position.offset_past]
    exact Nat.lt_succ_of_le (Nat.le_add_right _ _)
  have hmoved := (hreached.after hspaces (by decide)).after hnewline (by decide)
  obtain ⟨inner, hdeeper, hblock⟩ := hmoved.deeperBlock
    (Nat.succ_le_of_lt (Nat.lt_of_le_of_lt hreached.deep hless)) hbody
  exact ⟨inner, _, below, hbelow, hnext.past,
    .trans ⟨run, ⟨_, hseen, rfl⟩, skipped_of_skip hrun⟩ hline, hless, hdeeper, hblock⟩

end Reached

end ScopedGrammar.Croco
