/-
# Invariants of matches

Most patterns leave things as they find them: what holds of the scope and of the position
before a match holds after it. An invariant says what that is, and which diagnostics are fair.
A pattern respects it if a match that starts where it holds ends where it holds, or stops with
a fair diagnostic. Other reasons to stop are no concern of an invariant.

Every form respects an invariant if the patterns in it do, provided that what it takes, binds
or complains about itself agrees with the invariant. A pattern that breaks an invariant on the
way and restores it in the end may still respect it, by what is known of its matches.
-/

import ScopedGrammar.Proofs.Match.Promises
import ScopedGrammar.Proofs.Match.Stopping

namespace ScopedGrammar

variable {α β : Type} {text : String} {excused : Halt → Prop} {granted : Nat} {scope : Scope}
  {place : Position}

/-- What holds of the scope and of the position wherever a pattern is matched, and of the
diagnostics that it raises. -/
structure Invariant where
  scopes : Scope → Prop
  places : Position → Prop
  fair : Diagnostic → Prop

namespace Invariant

/-- An invariant holds in a scope at a position. -/
def At (invariant : Invariant) (scope : Scope) (place : Position) : Prop :=
  invariant.scopes scope ∧ invariant.places place

/-- Every halt is excused but an unfair diagnostic. -/
def Excuses (invariant : Invariant) : Halt → Prop
  | .diagnostic diagnostic => invariant.fair diagnostic
  | _ => True

/-- In some scopes no diagnostic is raised but those that are fair, at whatever position. -/
def anywhere (scopes : Scope → Prop) (fair : Diagnostic → Prop) : Invariant :=
  ⟨scopes, fun _ => True, fair⟩

/-- No diagnostic is raised at all. -/
def quiet : Invariant :=
  anywhere (fun _ => True) fun _ => False

end Invariant

variable {invariant weaker : Invariant}

/-- Where an invariant holds, a form leaves it so or stops with a fair diagnostic. -/
def Form.Respects (text : String) (invariant : Invariant) (granted : Nat) (shape : Form) : Prop :=
  ∀ scope place, invariant.At scope place →
    (Match.form (Pattern.run granted) granted shape scope place).Upholds text invariant.Excuses
      fun success => invariant.At success.scope success.position

/-- Where an invariant holds, a pattern leaves it so or stops with a fair diagnostic. -/
def Pattern.Respects (text : String) (invariant : Invariant) (granted : Nat)
    (pattern : Pattern) : Prop :=
  ∀ scope place, invariant.At scope place →
    (pattern.run granted scope place).Upholds text invariant.Excuses
      fun success => invariant.At success.scope success.position

variable {pattern part : Pattern} {parts options : List Pattern} {shape : Form} {name : String}

namespace Pattern.Respects

theorem zero (pattern : Pattern) : pattern.Respects text invariant 0 :=
  fun _ _ _ => .halt trivial

theorem succ (hform : pattern.form.Respects text invariant granted) :
    pattern.Respects text invariant (granted + 1) :=
  fun scope place hhere => (hform scope place hhere).bind fun _ hkept => .succeed hkept

theorem of_form (hform : ∀ granted, pattern.form.Respects text invariant granted) (granted : Nat) :
    pattern.Respects text invariant granted := by
  cases granted with
  | zero => exact zero pattern
  | succ granted => exact succ (hform granted)

/-- What is known of the matches of a pattern may be promised, once its halts are excused. -/
theorem upholds {promise : Match → Prop} (hpattern : pattern.Respects text weaker granted)
    (hhere : weaker.At scope place)
    (hfair : ∀ diagnostic, weaker.fair diagnostic → invariant.fair diagnostic)
    (hmatches : ∀ success, pattern.Matches text scope place success → promise success) :
    (pattern.run granted scope place).Upholds text invariant.Excuses promise := by
  obtain ⟨verdict, hending, hkept⟩ := hpattern scope place hhere
  refine ⟨verdict, hending, ?_⟩
  cases verdict with
  | matched success => exact hmatches success ⟨rfl, granted, hending⟩
  | missed => trivial
  | halted reason =>
      cases reason with
      | diagnostic diagnostic => exact hfair diagnostic hkept
      | _ => trivial

end Pattern.Respects

/-- What the first part of a row promises, the other parts may rely on. -/
theorem Match.allOf_cons_upholds {promise : Match → Prop} {last : Scope → Position → Prop}
    (hfirst : (part.run granted scope place).Upholds text excused promise)
    (hrest : ∀ success, promise success →
      (allOf (Pattern.run granted) parts success.scope success.position).Upholds text excused
        fun row => last row.2.2 row.2.1) :
    (allOf (Pattern.run granted) (part :: parts) scope place).Upholds text excused
      fun row => last row.2.2 row.2.1 :=
  hfirst.bind fun success hkept => (hrest success hkept).bind fun _ hlast => .succeed hlast

theorem Match.allOf_respects (hparts : ∀ part ∈ parts, part.Respects text invariant granted)
    (hhere : invariant.At scope place) :
    (allOf (Pattern.run granted) parts scope place).Upholds text invariant.Excuses
      fun row => invariant.At row.2.2 row.2.1 := by
  induction parts generalizing scope place with
  | nil => exact .succeed hhere
  | cons part parts ih =>
      rw [List.forall_mem_cons] at hparts
      exact allOf_cons_upholds (hparts.1 scope place hhere) fun _ hthere => ih hparts.2 hthere

section Repetitions

variable {separator : Option Pattern} {most : Option Nat} {tally : Match.Tally} {turns : Nat}

theorem Match.round_respects (hpart : part.Respects text invariant granted)
    (hseparator : ∀ between ∈ separator, between.Respects text invariant granted)
    (hhere : invariant.At tally.scope tally.position) :
    (round (Pattern.run granted) part separator tally).Upholds text invariant.Excuses
      fun later => invariant.At later.scope later.position := by
  have hrow : ∀ member ∈ dueAfter separator tally.parts.size ++ [part],
      member.Respects text invariant granted := by
    intro member hmember
    rcases List.mem_append.mp hmember with hdue | hlast
    · unfold dueAfter at hdue
      split at hdue
      · cases hdue
      · exact hseparator member (Option.mem_toList.mp hdue)
    · exact List.mem_singleton.mp hlast ▸ hpart
  rw [round_eq_allOf]
  exact (allOf_respects hrow hhere).bind fun _ hlast => .succeed hlast

theorem Match.rounds_respect (hpart : part.Respects text invariant granted)
    (hseparator : ∀ between ∈ separator, between.Respects text invariant granted)
    (hhere : invariant.At tally.scope tally.position) :
    Attempt.Upholds text invariant.Excuses
      (rounds (Pattern.run granted) part separator most turns tally)
      fun later => invariant.At later.scope later.position := by
  induction turns generalizing tally with
  | zero => exact .halt trivial
  | succ turns ih =>
      rw [rounds_eq_branch]
      split
      · exact .succeed hhere
      refine (round_respects hpart hseparator hhere).branch (fun later hlater => ?_)
        (.succeed hhere)
      by_cases hsame : later.position.samePlace tally.position = true
      · have hkept : Attempt.Upholds text invariant.Excuses (Attempt.succeed later)
            fun later => invariant.At later.scope later.position := .succeed hlater
        simp only [hsame, if_true]
        exact hkept
      · simp only [hsame]
        exact ih hlater

end Repetitions

namespace Form.Respects

/-- What a text takes may be told from what is seen. -/
theorem literal {expected : String}
    (hplaces : ∀ place rest, invariant.places place →
      place.Sees text (expected.toList ++ rest) → invariant.places (place.past expected.toList)) :
    (Form.literal (.const (.text expected))).Respects text invariant granted := by
  intro scope place hhere
  have hending : Match.form (Pattern.run granted) granted (.literal (.const (.text expected)))
      scope place (Input.ofText text) = _ := Match.text_eq rfl
  split at hending
  next hprefix =>
    obtain ⟨rest, hrest⟩ := List.isPrefixOf_iff_prefix.mp hprefix
    exact ⟨_, hending, hhere.1, hplaces place rest hhere.2 hrest.symm⟩
  next => exact ⟨_, hending, trivial⟩

theorem charClass {members : List Char} {excluded : Bool}
    (hplaces : ∀ place c rest, invariant.places place → place.Sees text (c :: rest) →
      (members.contains c != excluded) = true → invariant.places (place.step c)) :
    (Form.charClass members excluded).Respects text invariant granted := by
  intro scope place hhere
  cases hseen : text.toList.drop place.offset with
  | nil => exact ⟨_, Match.oneChar_eq hseen, trivial⟩
  | cons c rest =>
      have hending : Match.form (Pattern.run granted) granted (.charClass members excluded) scope
          place (Input.ofText text) = _ := Match.oneChar_eq hseen
      dsimp only at hending
      split at hending
      next hfits => exact ⟨_, hending, hhere.1, hplaces place c rest hhere.2 hseen hfits⟩
      next => exact ⟨_, hending, trivial⟩

theorem finish : Form.finish.Respects text invariant granted := by
  intro scope place hhere
  refine Attempt.Upholds.bind (.read (growing_isEnd place.offset)) fun atEnd _ => ?_
  cases atEnd with
  | true => exact .succeed hhere
  | false => exact .miss

theorem choice (hoptions : ∀ option ∈ options, option.Respects text invariant granted) :
    (Form.choice options).Respects text invariant granted := by
  intro scope place hhere
  show (Match.firstOf (Pattern.run granted) options scope place).Upholds text _ _
  induction options with
  | nil => exact .miss
  | cons first rest ih =>
      rw [List.forall_mem_cons] at hoptions
      exact .orElse (hoptions.1 scope place hhere) (ih hoptions.2)

/-- A sequence leaves things as the row of its parts does. -/
theorem of_row {picks : Option (List Nat)}
    (hrow : ∀ scope place, invariant.At scope place →
      (Match.allOf (Pattern.run granted) parts scope place).Upholds text invariant.Excuses
        fun row => invariant.At row.2.2 row.2.1) :
    (Form.sequence parts picks).Respects text invariant granted :=
  fun scope place hhere => (hrow scope place hhere).bind fun _ hlast =>
    .bind (.resolved (fun _ _ => trivial) fun _ _ => trivial) fun _ _ => .succeed hlast

theorem sequence {picks : Option (List Nat)}
    (hparts : ∀ part ∈ parts, part.Respects text invariant granted) :
    (Form.sequence parts picks).Respects text invariant granted :=
  of_row fun _ _ => Match.allOf_respects hparts

theorem repetition {least : Term} {most : Option Term} {separator : Option Pattern}
    {keepSeparators : Bool} (hpart : part.Respects text invariant granted)
    (hseparator : ∀ between ∈ separator, between.Respects text invariant granted) :
    (Form.repetition part least most separator keepSeparators).Respects text invariant
      granted := by
  intro scope place hhere
  have hnothing : invariant.At (Match.Tally.mk #[] #[] place scope).scope
      (Match.Tally.mk #[] #[] place scope).position := hhere
  refine Attempt.Upholds.bind (.resolved (fun _ _ => trivial) fun _ _ => trivial) fun _ _ => ?_
  refine Attempt.Upholds.bind (Match.rounds_respect hpart hseparator hnothing)
    fun tally hlast => ?_
  split
  · exact .miss
  · exact .succeed hlast

/-- An absence without a width takes nothing. -/
theorem ahead (hinner : part.Respects text invariant granted) :
    (Form.absence part 0).Respects text invariant granted := by
  intro scope place hhere
  have hending : (Match.form (Pattern.run granted) granted (.absence part 0) scope place).Upholds
      text invariant.Excuses fun _ => True :=
    .bind (hinner scope place hhere).absent fun _ _ =>
      .bind (.read (growing_capture place 0)) fun _ _ => .succeed trivial
  refine hending.of_matched fun success hmatched _ => ?_
  obtain ⟨-, rfl⟩ := matches_absence_zero_iff.mp ⟨rfl, granted, hmatched⟩
  exact hhere

/-- An absence of one character takes it, wherever that leads. -/
theorem exclude (hanywhere : ∀ place, invariant.places place)
    (hinner : part.Respects text invariant granted) :
    (Form.absence part 1).Respects text invariant granted := by
  intro scope place hhere
  have hwide : (Match.wide 1 scope place).Upholds text invariant.Excuses fun _ => True := by
    rw [Match.wide, if_neg (by decide)]
    split
    · exact .halt trivial
    refine Attempt.Upholds.bind (.read (growing_has _)) fun there _ => ?_
    cases there with
    | true => exact .bind (.read (growing_capture place 1)) fun _ _ => .succeed trivial
    | false => exact .miss
  have hending : (Match.form (Pattern.run granted) granted (.absence part 1) scope place).Upholds
      text invariant.Excuses fun _ => True :=
    .bind (hinner scope place hhere).absent fun _ _ => hwide
  refine hending.of_matched fun success hmatched _ => ?_
  obtain ⟨-, hscope, -⟩ := absence_one_taken ⟨rfl, granted, hmatched⟩
  exact ⟨hscope ▸ hhere.1, hanywhere _⟩

/-- A demand must be fair where it is not met. -/
theorem demand_upholds {message : Message} {last : Match → Prop}
    (hinner : (part.run granted scope place).Upholds text invariant.Excuses last)
    (hfair : invariant.fair (complaint text message scope place)) :
    (Match.form (Pattern.run granted) granted (.demand part message) scope place).Upholds text
      invariant.Excuses last :=
  hinner.orElse ⟨_, Match.complain_ofText text message scope place, hfair⟩

theorem demand {message : Message} (hinner : part.Respects text invariant granted)
    (hfair : ∀ scope place, invariant.At scope place →
      invariant.fair (complaint text message scope place)) :
    (Form.demand part message).Respects text invariant granted :=
  fun scope place hhere => demand_upholds (hinner scope place hhere) (hfair scope place hhere)

theorem capture (hinner : part.Respects text invariant granted)
    (hbind : ∀ scope content, invariant.scopes scope →
      invariant.scopes (scope.bind name (.value content))) :
    (Form.capture part name).Respects text invariant granted :=
  fun scope place hhere => (hinner scope place hhere).bind fun _ hkept =>
    .succeed ⟨hbind _ _ hkept.1, hkept.2⟩

theorem overlay {bindings : List (String × Term)} (hinner : part.Respects text invariant granted)
    (hbindings : ∀ scope frame, invariant.scopes scope → scope.resolveAll bindings = .ok frame →
      invariant.scopes (scope.push frame)) :
    (Form.overlay part bindings).Respects text invariant granted := by
  intro scope place hhere
  have hframe : (Attempt.resolved (scope.resolveAll bindings)).Upholds text invariant.Excuses
      fun frame => invariant.scopes (scope.push frame) :=
    .resolved (fun frame hframe => hbindings scope frame hhere.1 hframe) fun _ _ => trivial
  refine hframe.bind fun frame hpushed => ?_
  exact (hinner _ place ⟨hpushed, hhere.2⟩).bind fun _ hkept => .succeed ⟨hhere.1, hkept.2⟩

/-- A name that means a rule in every scope respects what these rules do. -/
theorem rule (hrule : ∀ scope, invariant.scopes scope →
      ∃ rule, scope.rule? name = some rule ∧ rule.Respects text invariant granted) :
    (Form.reference (.name name)).Respects text invariant granted := by
  intro scope place hhere
  obtain ⟨rule, hbound, hrespects⟩ := hrule scope hhere.1
  simp only [Match.form, Pattern.resolve_name hbound, Attempt.resolved]
  refine Attempt.Upholds.bind (.succeed rfl) fun binding hbinding => ?_
  subst hbinding
  exact (hrespects scope place hhere).bind fun _ hkept => .succeed ⟨hhere.1, hkept.2⟩

/-- A name that means a value takes its text, wherever that leads. -/
theorem boundValue (hanywhere : ∀ place, invariant.places place)
    (hvalue : ∀ scope, invariant.scopes scope →
      ∃ content, scope.find? name = some (.value content)) :
    (Form.reference (.name name)).Respects text invariant granted := by
  intro scope place hhere
  obtain ⟨content, hbound⟩ := hvalue scope hhere.1
  have hresolved : (Term.name name).resolve scope = .ok (.value content) := by
    rw [Term.resolve, Scope.lookup, hbound]
  simp only [Match.form, hresolved, Attempt.resolved]
  refine Attempt.Upholds.bind (.succeed rfl) fun binding hbinding => ?_
  subst hbinding
  rw [Match.follow]
  split
  next expected _ =>
    have hending : Match.text expected scope place (Input.ofText text) = _ := Match.text_eq rfl
    split at hending
    · exact ⟨_, hending, hhere.1, hanywhere _⟩
    · exact ⟨_, hending, trivial⟩
  next => exact .halt trivial

end Form.Respects

/-- Where the start rule respects an invariant, a diagnostic is fair or is about what the rule
has left over. -/
theorem Grammar.diagnostic_fair {grammar : Grammar} {rule : Pattern} {diagnostic : Diagnostic}
    (hrule : grammar.scope.rule? grammar.start = some rule)
    (hrespects : rule.Respects text invariant granted)
    (hstart : invariant.At grammar.scope Position.start)
    (hparse : grammar.parse granted text = .error (.diagnostic diagnostic)) :
    invariant.fair diagnostic ∨
      ∃ place, diagnostic = (Diagnostic.unconsumed place (Input.ofText text)).1 := by
  obtain ⟨verdict, hending, hkept⟩ := hrespects _ _ hstart
  rw [parse_eq hrule, hending] at hparse
  cases verdict with
  | matched success =>
      dsimp only at hparse
      split at hparse
      · cases hparse
      · cases hparse
        exact .inr ⟨_, rfl⟩
  | missed =>
      cases hparse
      exact .inr ⟨_, rfl⟩
  | halted reason =>
      cases hparse
      exact .inl hkept

end ScopedGrammar
