/-
# Demands and labels erased

A demand turns the failure of a pattern into an error, and a label names a pattern in
messages. Neither changes what is accepted. Erasing takes every demand and every label out
of a pattern: of a demand the inner pattern stays, with the factory of the demand on top.
Rules are erased wherever they stand, in the scope as well as in the terms of a pattern.

A match is compared with the match of the erased pattern in the erased scope. They go
together step by step, except that the erased one needs fewer steps, and that the full one
may halt at a demand. Such a halt is never taken for anything else on the way up.
-/

import ScopedGrammar.Pattern.Build
import ScopedGrammar.Proofs.Match.Accord
import ScopedGrammar.Proofs.Match.Steps
import ScopedGrammar.Proofs.Match.Reach
import Mathlib

namespace ScopedGrammar

/-- The pattern with a further factory on top, if there is one. -/
def Pattern.thenMap (pattern : Pattern) : Option (Value → Value) → Pattern
  | none => pattern
  | some make => pattern.map make

mutual

/-- A pattern without demands and labels. -/
def Pattern.erase : Pattern → Pattern
  | .mk form factory _ => Form.erase form factory

/-- The pattern that a form comes to without demands and labels, given the factory of the
pattern around it. -/
def Form.erase : Form → Option (Value → Value) → Pattern
  | .literal text, factory => .mk (.literal (Term.erase text)) factory none
  | .charClass members excluded, factory => .mk (.charClass members excluded) factory none
  | .choice options, factory => .mk (.choice (Pattern.eraseAll options)) factory none
  | .sequence parts picks, factory =>
      .mk (.sequence (Pattern.eraseAll parts) picks) factory none
  | .repetition part least most separator keepSeparators, factory =>
      .mk (.repetition (Pattern.erase part) (Term.erase least) (Term.eraseOption most)
        (Pattern.eraseOption separator) keepSeparators) factory none
  | .absence inner width, factory => .mk (.absence (Pattern.erase inner) width) factory none
  | .demand inner _, factory => (Pattern.erase inner).thenMap factory
  | .capture inner name, factory => .mk (.capture (Pattern.erase inner) name) factory none
  | .overlay inner bindings, factory =>
      .mk (.overlay (Pattern.erase inner) (Term.eraseBindings bindings)) factory none
  | .reference target, factory => .mk (.reference (Term.erase target)) factory none
  | .finish, factory => .mk .finish factory none

/-- Patterns without demands and labels. -/
def Pattern.eraseAll : List Pattern → List Pattern
  | [] => []
  | first :: rest => Pattern.erase first :: Pattern.eraseAll rest

/-- A pattern without demands and labels, if there is one. -/
def Pattern.eraseOption : Option Pattern → Option Pattern
  | none => none
  | some pattern => some (Pattern.erase pattern)

/-- A term whose rules are without demands and labels. -/
def Term.erase : Term → Term
  | .const content => .const content
  | .rule pattern => .rule (Pattern.erase pattern)
  | .name looked => .name looked
  | .sum looked other => .sum looked (Term.erase other)
  | .product looked other => .product looked (Term.erase other)
  | .conditional looked whenTrue whenFalse =>
      .conditional looked (Term.erase whenTrue) (Term.erase whenFalse)

/-- A term whose rules are without demands and labels, if there is one. -/
def Term.eraseOption : Option Term → Option Term
  | none => none
  | some term => some (Term.erase term)

/-- Bindings whose rules are without demands and labels. -/
def Term.eraseBindings : List (String × Term) → List (String × Term)
  | [] => []
  | first :: rest => Term.eraseBinding first :: Term.eraseBindings rest

/-- A binding whose rule is without demands and labels. -/
def Term.eraseBinding : String × Term → String × Term
  | (name, term) => (name, Term.erase term)

end

/-- What a name is bound to, without demands and labels. -/
def Binding.erase : Binding → Binding
  | .value content => .value content
  | .rule pattern => .rule pattern.erase

/-- A frame whose rules are without demands and labels. -/
def Frame.erase (frame : Frame) : Frame :=
  frame.map fun entry => (entry.1, entry.2.erase)

/-- A scope whose rules are without demands and labels. -/
def Scope.erase (scope : Scope) : Scope :=
  ⟨scope.frames.map Frame.erase⟩

/-- A success whose scope is without demands and labels. -/
def Match.erase (success : Match) : Match :=
  { success with scope := success.scope.erase }

theorem Frame.find?_erase (frame : Frame) (name : String) :
    Frame.find? name frame.erase = (Frame.find? name frame).map Binding.erase := by
  induction frame with
  | nil => rfl
  | cons entry rest ih =>
      obtain ⟨key, binding⟩ := entry
      rw [Frame.erase, List.map_cons, Frame.find?, Frame.find?]
      rw [Frame.erase] at ih
      rw [ih]
      cases Frame.find? name rest with
      | some later => rfl
      | none => by_cases hkey : key = name <;> simp [hkey]

namespace Scope

theorem find?_erase (scope : Scope) (name : String) :
    scope.erase.find? name = (scope.find? name).map Binding.erase := by
  obtain ⟨frames⟩ := scope
  induction frames with
  | nil => rfl
  | cons frame outer ih =>
      rw [find?, find?, erase] at ih ⊢
      rw [List.map_cons, findIn?, findIn?, Frame.find?_erase]
      cases Frame.find? name frame with
      | some binding => rfl
      | none => exact ih

theorem erase_push (scope : Scope) (frame : Frame) :
    (scope.push frame).erase = scope.erase.push frame.erase := by
  cases frame <;> rfl

theorem erase_bind (scope : Scope) (name : String) (content : Value) :
    (scope.bind name (.value content)).erase = scope.erase.bind name (.value content) :=
  rfl

end Scope

/-! ## How deep patterns are

A chain of demands takes one step for each of them in the full match and none in the erased
one. No chain is longer than the pattern is deep. -/

mutual

/-- How many patterns are around each other in a pattern. -/
def Pattern.nesting : Pattern → Nat
  | .mk form _ _ => Form.nesting form + 1

/-- How many patterns are around each other in a form. -/
def Form.nesting : Form → Nat
  | .choice options => Pattern.nestingOfAll options
  | .sequence parts _ => Pattern.nestingOfAll parts
  | .repetition part _ _ separator _ =>
      max (Pattern.nesting part) (Pattern.nestingOfOption separator)
  | .absence inner _ => Pattern.nesting inner
  | .demand inner _ => Pattern.nesting inner
  | .capture inner _ => Pattern.nesting inner
  | .overlay inner bindings => max (Pattern.nesting inner) (Term.nestingOfBindings bindings)
  | .reference target => Term.nesting target
  | _ => 0

/-- The greatest nesting of some patterns. -/
def Pattern.nestingOfAll : List Pattern → Nat
  | [] => 0
  | first :: rest => max (Pattern.nesting first) (Pattern.nestingOfAll rest)

/-- The nesting of a pattern, if there is one. -/
def Pattern.nestingOfOption : Option Pattern → Nat
  | none => 0
  | some pattern => Pattern.nesting pattern

/-- The nesting of the rule that a term gives. What is computed is never a rule. -/
def Term.nesting : Term → Nat
  | .rule pattern => Pattern.nesting pattern
  | _ => 0

/-- The greatest nesting of the terms of some bindings. -/
def Term.nestingOfBindings : List (String × Term) → Nat
  | [] => 0
  | first :: rest => max (Term.nestingOfBinding first) (Term.nestingOfBindings rest)

/-- The nesting of the term of a binding. -/
def Term.nestingOfBinding : String × Term → Nat
  | (_, term) => Term.nesting term

end

/-- The rules that a scope binds are no deeper than a bound. -/
def Scope.NestsWithin (bound : Nat) (scope : Scope) : Prop :=
  ∀ name rule, scope.find? name = some (.rule rule) → rule.nesting ≤ bound

/-- A frame has finitely many rules, so their depths have a bound. -/
theorem Frame.exists_nesting_le (frame : Frame) :
    ∃ bound, ∀ name rule, Frame.find? name frame = some (.rule rule) → rule.nesting ≤ bound := by
  induction frame with
  | nil =>
      refine ⟨0, fun name rule hfound => ?_⟩
      cases hfound
  | cons entry rest ih =>
      obtain ⟨key, binding⟩ := entry
      obtain ⟨bound, hbound⟩ := ih
      refine ⟨max bound ((binding.asRule?.map Pattern.nesting).getD 0), ?_⟩
      intro name rule hfound
      rw [Frame.find?] at hfound
      split at hfound
      next later hlater =>
        cases hfound
        exact Nat.le_trans (hbound name rule hlater) (Nat.le_max_left _ _)
      next =>
        split at hfound
        next =>
          cases hfound
          exact Nat.le_max_right _ _
        next => cases hfound

theorem Scope.exists_nestsWithin (scope : Scope) : ∃ bound, scope.NestsWithin bound := by
  obtain ⟨frames⟩ := scope
  induction frames with
  | nil =>
      refine ⟨0, fun name rule hfound => ?_⟩
      cases hfound
  | cons frame outer ih =>
      obtain ⟨bound, hbound⟩ := ih
      obtain ⟨inner, hinner⟩ := Frame.exists_nesting_le frame
      refine ⟨max bound inner, ?_⟩
      intro name rule hfound
      rw [find?, findIn?] at hfound
      split at hfound
      next binding hlater =>
        cases hfound
        exact Nat.le_trans (hinner name rule hlater) (Nat.le_max_right _ _)
      next => exact Nat.le_trans (hbound name rule hfound) (Nat.le_max_left _ _)

/-- Whether a match has halted at a demand that was not met. -/
def Halt.isUnmet : Halt → Bool
  | .diagnostic raised => raised.cause = .expected
  | _ => false

/-- The accord between patterns no deeper than a bound and their erased counterparts. Both
sides read the same, and which error a halt is does not matter. -/
def Accord.erasing (π : Type) (bound : Nat) (excuses pardons : Halt → Prop)
    (steps : Nat → Nat → Prop) : Accord π π where
  inputs := Eq
  places := Eq
  values := Eq
  contents := Eq
  scopes scope other := scope.NestsWithin bound ∧ scope.erase = other
  patterns pattern other := pattern.nesting ≤ bound ∧ pattern.erase = other
  terms term other := term.erase = other
  targets term other := term.nesting ≤ bound ∧ term.erase = other
  messages _ _ := False
  halts _ _ := True
  excuses := excuses
  pardons := pardons
  steps := steps

section Erasing

variable {π : Type} {bound : Nat} {excuses pardons : Halt → Prop} {steps : Nat → Nat → Prop}

theorem Scope.resolved_lookup_erase {scope : Scope} (hwithin : scope.NestsWithin bound)
    (looked : String) :
    (Accord.erasing π bound excuses pardons steps).Resolved
      (Accord.erasing π bound excuses pardons steps).Bindings
      (scope.lookup looked) (scope.erase.lookup looked) := by
  rw [lookup, lookup, find?_erase]
  cases hfound : scope.find? looked with
  | none => exact .error trivial
  | some binding =>
      cases binding with
      | value content => exact .ok (.value rfl)
      | rule rule => exact .ok (.rule ⟨hwithin looked rule hfound, rfl⟩)

theorem Scope.resolved_lookupValue_erase {scope : Scope} (hwithin : scope.NestsWithin bound)
    (looked : String) :
    (Accord.erasing π bound excuses pardons steps).Resolved Eq
      (scope.lookupValue looked) (scope.erase.lookupValue looked) :=
  .lookupValue (fun _ => trivial) (resolved_lookup_erase hwithin looked)

/-- By recursion on the term. Only the rules in it change, and they have no value. -/
theorem Term.resolved_value_erase {scope : Scope} (hwithin : scope.NestsWithin bound) :
    (term : Term) → (Accord.erasing π bound excuses pardons steps).Resolved Eq
      (term.value scope) (term.erase.value scope.erase)
  | .const content => .ok rfl
  | .rule pattern => .error trivial
  | .name looked => Scope.resolved_lookupValue_erase hwithin looked
  | .sum looked other => by
      rw [erase, value_sum, value_sum]
      refine .bind (Scope.resolved_lookupValue_erase hwithin looked) ?_
      rintro first _ rfl
      refine .bind (resolved_value_erase hwithin other) ?_
      rintro second _ rfl
      exact .of_eq (fun _ => trivial) (fun _ => rfl) _
  | .product looked other => by
      rw [erase, value_product, value_product]
      refine .bind (Scope.resolved_lookupValue_erase hwithin looked) ?_
      rintro first _ rfl
      refine .bind (resolved_value_erase hwithin other) ?_
      rintro second _ rfl
      exact .of_eq (fun _ => trivial) (fun _ => rfl) _
  | .conditional looked whenTrue whenFalse => by
      rw [erase, value_conditional, value_conditional]
      refine .bind (Scope.resolved_lookupValue_erase hwithin looked) ?_
      rintro condition _ rfl
      split
      · exact resolved_value_erase hwithin whenTrue
      · exact resolved_value_erase hwithin whenFalse

theorem Term.resolved_resolve_erase {scope : Scope} (hwithin : scope.NestsWithin bound)
    {term : Term} (hterm : term.nesting ≤ bound) :
    (Accord.erasing π bound excuses pardons steps).Resolved
      (Accord.erasing π bound excuses pardons steps).Bindings
      (term.resolve scope) (term.erase.resolve scope.erase) := by
  have hcomputed : (Accord.erasing π bound excuses pardons steps).Resolved
      (Accord.erasing π bound excuses pardons steps).Bindings
      ((term.value scope).map .value) ((term.erase.value scope.erase).map .value) :=
    .map (resolved_value_erase hwithin term) fun hcontents => .value hcontents
  cases term with
  | const content => exact .ok (.value rfl)
  | rule pattern => exact .ok (.rule ⟨hterm, rfl⟩)
  | name looked => exact Scope.resolved_lookup_erase hwithin looked
  | sum looked other => exact hcomputed
  | product looked other => exact hcomputed
  | conditional looked whenTrue whenFalse => exact hcomputed

theorem Frame.erase_eq_of_frames {frame other : Frame}
    (hframes : (Accord.erasing π bound excuses pardons steps).Frames frame other) :
    frame.erase = other := by
  induction hframes with
  | nil => rfl
  | @cons entry otherEntry _ _ hentry _ ih =>
      obtain ⟨name, binding⟩ := entry
      obtain ⟨otherName, otherBinding⟩ := otherEntry
      obtain ⟨hname, hbinding⟩ := hentry
      dsimp only at hname hbinding
      rw [Frame.erase, List.map_cons, hname]
      congr 1
      cases hbinding with
      | value hcontents => rw [hcontents]; rfl
      | rule hpatterns => rw [← hpatterns.2]; rfl

theorem Scope.nestsWithin_push {scope : Scope} (hwithin : scope.NestsWithin bound)
    {frame other : Frame}
    (hframes : (Accord.erasing π bound excuses pardons steps).Frames frame other) :
    (scope.push frame).NestsWithin bound := by
  intro name rule hfound
  rw [find?_push, Option.or_eq_some_iff] at hfound
  rcases hfound with hfound | ⟨-, hbelow⟩
  · have hbindings := hframes.find? name
    rw [hfound] at hbindings
    generalize Frame.find? name other = otherFound at hbindings
    cases hbindings with
    | some hbinding =>
        cases hbinding with
        | rule hpatterns => exact hpatterns.1
  · exact hwithin name rule hbelow

theorem Scope.nestsWithin_bind {scope : Scope} (hwithin : scope.NestsWithin bound)
    (name : String) (content : Value) : (scope.bind name (.value content)).NestsWithin bound := by
  intro looked rule hfound
  rw [find?_bind] at hfound
  split at hfound
  · cases hfound
  · exact hwithin looked rule hfound

namespace Accord

theorem scopes_erasing [Producer π]
    (hpred : ∀ {granted other}, steps (granted + 1) (other + 1) → steps granted other)
    (hexcuses : ∀ {other}, steps 0 (other + 1) → excuses .exhausted)
    (hpardons : ∀ {granted}, steps (granted + 1) 0 → pardons .exhausted) :
    (Accord.erasing π bound excuses pardons steps).Scopes where
  value := by
    rintro term _ scope _ rfl ⟨hwithin, rfl⟩
    exact Term.resolved_value_erase hwithin term
  resolve := by
    rintro term _ scope _ ⟨hterm, rfl⟩ ⟨hwithin, rfl⟩
    exact Term.resolved_resolve_erase hwithin hterm
  asText := by
    rintro content _ rfl
    rfl
  asInt := by
    rintro content _ rfl
    rfl
  notText _ _ := trivial
  notParsable _ _ := trivial
  invalidBound _ := trivial
  bind := by
    rintro scope _ content _ ⟨hwithin, rfl⟩ rfl name
    exact ⟨Scope.nestsWithin_bind hwithin name content, Scope.erase_bind scope name content⟩
  push := by
    rintro scope _ frame _ ⟨hwithin, rfl⟩ hframes
    refine ⟨Scope.nestsWithin_push hwithin hframes, ?_⟩
    rw [Scope.erase_push, Frame.erase_eq_of_frames hframes]
  complain hmessages := hmessages.elim
  defect _ := trivial
  exhausted := trivial
  steps_pred := hpred
  excuses_of_steps := hexcuses
  pardons_of_steps := hpardons

theorem patterns_eraseAll {patterns : List Pattern}
    (hpatterns : Pattern.nestingOfAll patterns ≤ bound) :
    List.Forall₂ (Accord.erasing π bound excuses pardons steps).patterns patterns
      (Pattern.eraseAll patterns) := by
  induction patterns with
  | nil => exact .nil
  | cons first rest ih =>
      rw [Pattern.nestingOfAll, Nat.max_le] at hpatterns
      exact .cons ⟨hpatterns.1, rfl⟩ (ih hpatterns.2)

theorem targets_eraseBindings {bindings : List (String × Term)}
    (hbindings : Term.nestingOfBindings bindings ≤ bound) :
    List.Forall₂ (fun entry other => entry.1 = other.1 ∧
      (Accord.erasing π bound excuses pardons steps).targets entry.2 other.2) bindings
      (Term.eraseBindings bindings) := by
  induction bindings with
  | nil => exact .nil
  | cons first rest ih =>
      rw [Term.nestingOfBindings, Nat.max_le] at hbindings
      obtain ⟨name, term⟩ := first
      exact .cons ⟨rfl, hbindings.1, rfl⟩ (ih hbindings.2)

theorem nesting_lt_of_demand {pattern inner : Pattern} {message : Message}
    (hform : pattern.form = .demand inner message) : inner.nesting < pattern.nesting := by
  obtain ⟨form, factory, label⟩ := pattern
  cases hform
  exact Nat.lt_succ_self _

/-- A pattern that is no demand keeps its form and its factory. -/
theorem erase_eq_or_demand (π : Type) (excuses pardons : Halt → Prop)
    (steps : Nat → Nat → Prop) {pattern : Pattern} (hnesting : pattern.nesting ≤ bound) :
    (∃ inner message, pattern.form = .demand inner message ∧
      pattern.erase = inner.erase.thenMap pattern.factory) ∨
    ∃ shape, pattern.erase = .mk shape pattern.factory none ∧
      (Accord.erasing π bound excuses pardons steps).Forms pattern.form shape := by
  obtain ⟨form, factory, label⟩ := pattern
  have hform : form.nesting ≤ bound := Nat.le_of_succ_le hnesting
  cases form with
  | literal text => exact .inr ⟨_, rfl, .literal rfl⟩
  | charClass members excluded => exact .inr ⟨_, rfl, .charClass members excluded⟩
  | choice options => exact .inr ⟨_, rfl, .choice (patterns_eraseAll hform)⟩
  | sequence parts picks => exact .inr ⟨_, rfl, .sequence (patterns_eraseAll hform) picks⟩
  | repetition part least most separator keepSeparators =>
      simp only [Form.nesting, Nat.max_le] at hform
      obtain ⟨hpart, hseparator⟩ := hform
      refine .inr ⟨_, rfl, .repetition (And.intro hpart rfl) rfl ?_ ?_ keepSeparators⟩
      · cases most with
        | none => exact .none
        | some most => exact .some rfl
      · cases separator with
        | none => exact .none
        | some separator => exact .some ⟨hseparator, rfl⟩
  | absence inner width => exact .inr ⟨_, rfl, .absence (And.intro hform rfl) width⟩
  | demand inner message => exact .inl ⟨inner, message, rfl, rfl⟩
  | capture inner name => exact .inr ⟨_, rfl, .capture (And.intro hform rfl) name⟩
  | overlay inner bindings =>
      rw [Form.nesting, Nat.max_le] at hform
      exact .inr ⟨_, rfl, .overlay (And.intro hform.1 rfl) (targets_eraseBindings hform.2)⟩
  | reference target => exact .inr ⟨_, rfl, .reference ⟨hform, rfl⟩⟩
  | finish => exact .inr ⟨_, rfl, .finish⟩

end Accord

/-- The value that a factory makes, if there is one. -/
def Match.finishWith (factory : Option (Value → Value)) (success : Match) : Match :=
  match factory with
  | some make => { success with value := make success.value }
  | none => success

variable [Producer π]

theorem Pattern.run_succ (granted : Nat) (pattern : Pattern) (scope : Scope) (place : Position) :
    pattern.run (π := π) (granted + 1) scope place =
      (Match.form (Pattern.run granted) granted pattern.form scope place >>= fun raw =>
        Attempt.succeed (raw.finishWith pattern.factory)) := by
  obtain ⟨form, factory, label⟩ := pattern
  cases factory <;> rfl

/-- A factory on top maps the value of a match. -/
theorem Pattern.run_thenMap (granted : Nat) (pattern : Pattern)
    (factory : Option (Value → Value)) (scope : Scope) (place : Position) :
    (pattern.thenMap factory).run (π := π) (granted + 1) scope place =
      (pattern.run (granted + 1) scope place >>= fun success =>
        Attempt.succeed (success.finishWith factory)) := by
  cases factory with
  | some make => exact run_map (granted + 1) pattern make scope place
  | none =>
      funext input
      show pattern.run (granted + 1) scope place input = _
      simp only [Attempt.bind_eq_andThen, Attempt.andThen]
      rcases pattern.run (granted + 1) scope place input with ⟨_ | _ | _, after⟩ <;> rfl

/-- A demand that is not met always comes to a diagnostic that says so. -/
theorem Match.isUnmet_of_complain (message : Message) (scope : Scope) (place : Position)
    (input : Input π) : ∃ reason after,
      complain message scope place input = (.halted reason, after) ∧ reason.isUnmet = true :=
  ⟨_, _, rfl, decide_eq_true
    (Diagnostic.cause_raise .expected _ place (message.render scope place input).2)⟩

namespace Accord

variable {scope : Scope} {place : Position}

/-- Where the first side may halt at its demands, a demand goes with what its inner pattern
goes with. -/
theorem inStep_demand {results : Match → Match → Prop}
    (hunmet : ∀ reason : Halt, reason.isUnmet = true → excuses reason)
    {attempt other : Attempt π Match} (message : Message)
    (hattempt : (Accord.erasing π bound excuses pardons steps).InStep results attempt other) :
    (Accord.erasing π bound excuses pardons steps).InStep results
      (attempt.orElse (Match.complain message scope place)) other := by
  intro input otherInput hinputs
  have hends := hattempt hinputs
  unfold Attempt.orElse
  generalize attempt input = ending at hends ⊢
  generalize other otherInput = otherEnding at hends ⊢
  cases hends with
  | matched hresults hafter => exact .matched hresults hafter
  | @missed between _ hafter =>
      obtain ⟨reason, after, hcomplain, hreason⟩ :=
        Match.isUnmet_of_complain message scope place between
      dsimp only
      rw [hcomplain]
      exact .excused (hunmet reason hreason)
  | halted hhalts hafter => exact .halted hhalts hafter
  | excused hexcused => exact .excused hexcused
  | pardoned hpardoned => exact .pardoned hpardoned

omit [Producer π] in
theorem inStep_finishWith {attempt other : Attempt π Match}
    (hattempt : (Accord.erasing π bound excuses pardons steps).InStep
      (Accord.erasing π bound excuses pardons steps).Successes attempt other)
    (factory : Option (Value → Value)) :
    (Accord.erasing π bound excuses pardons steps).InStep
      (Accord.erasing π bound excuses pardons steps).Successes
      (attempt >>= fun success => Attempt.succeed (success.finishWith factory))
      (other >>= fun success => Attempt.succeed (success.finishWith factory)) := by
  refine .bind hattempt fun hsuccess => .succeed ?_
  cases factory with
  | none => exact hsuccess
  | some make => exact ⟨congrArg make hsuccess.values, hsuccess.places, hsuccess.scopes⟩

/-- A pattern goes with its erased counterpart if the matchers below go together and, should
it be a demand, its inner pattern goes with the same counterpart. -/
theorem inStep_run_succ
    (hscoped : (Accord.erasing π bound excuses pardons steps).Scopes)
    (hunmet : ∀ reason : Halt, reason.isUnmet = true → excuses reason)
    {granted other : Nat} (hsteps : steps granted other)
    (hmatchers : (Accord.erasing π bound excuses pardons steps).Matchers
      (Pattern.run granted) (Pattern.run other))
    {pattern : Pattern} (hnesting : pattern.nesting ≤ bound) (hwithin : scope.NestsWithin bound)
    (hdemand : ∀ inner message, pattern.form = .demand inner message →
      (Accord.erasing π bound excuses pardons steps).InStep
        (Accord.erasing π bound excuses pardons steps).Successes
        (inner.run granted scope place) (inner.erase.run (other + 1) scope.erase place)) :
    (Accord.erasing π bound excuses pardons steps).InStep
      (Accord.erasing π bound excuses pardons steps).Successes
      (pattern.run (granted + 1) scope place)
      (pattern.erase.run (other + 1) scope.erase place) := by
  rcases erase_eq_or_demand π excuses pardons steps hnesting with
    ⟨inner, message, hform, herase⟩ | ⟨shape, herase, hforms⟩
  · rw [herase, Pattern.run_thenMap, Pattern.run_succ, hform]
    exact inStep_finishWith (inStep_demand hunmet message (hdemand inner message hform))
      pattern.factory
  · rw [herase, Pattern.run_succ, Pattern.run_succ]
    refine inStep_finishWith ?_ pattern.factory
    exact inStep_form (reads_of_eq rfl rfl rfl trivial) hscoped hmatchers hsteps hforms
      ⟨hwithin, rfl⟩ rfl

/-- The accord for a full match that may run out of steps before the erased one does. -/
def fullFirst (π : Type) (bound : Nat) : Accord π π :=
  .erasing π bound (fun reason => reason.isUnmet = true ∨ reason = .exhausted) (fun _ => False)
    fun granted other => granted ≤ other

/-- The accord for an erased match that may run out of steps before the full one does. -/
def erasedFirst (π : Type) (bound : Nat) : Accord π π :=
  .erasing π bound (fun reason => reason.isUnmet = true) (fun reason => reason = .exhausted)
    fun granted other => other ≤ granted

/-- With as many steps as the full match or more, the erased one comes to the same. -/
theorem matchers_fullFirst (bound : Nat) {granted other : Nat} (hsteps : granted ≤ other) :
    (fullFirst π bound).Matchers (Pattern.run granted) (Pattern.run other) := by
  have hscoped : (fullFirst π bound).Scopes :=
    scopes_erasing Nat.le_of_succ_le_succ (fun _ => Or.inr rfl) (fun hnone => by omega)
  induction granted generalizing other with
  | zero => exact fun _ _ _ _ _ _ _ _ _ => InStep.excused (Or.inr rfl) _
  | succ granted ih =>
      obtain ⟨other, rfl⟩ := Nat.exists_eq_add_of_le' hsteps
      rintro pattern _ scope _ place _ ⟨hnesting, rfl⟩ ⟨hwithin, rfl⟩ rfl
      refine inStep_run_succ hscoped (fun _ => Or.inl) (Nat.le_of_succ_le_succ hsteps)
        (ih (Nat.le_of_succ_le_succ hsteps)) hnesting hwithin ?_
      intro inner message hform
      have hinner := nesting_lt_of_demand hform
      exact ih (Nat.le_of_succ_le hsteps) ⟨by omega, rfl⟩ ⟨hwithin, rfl⟩ rfl

/-- With steps for all demands around each step of the erased match, the full one comes to
the same, or halts at a demand. By induction on the steps of the erased match, and for each
of them on the demands around the pattern. -/
theorem matchers_erasedFirst (bound : Nat) {granted other : Nat}
    (hsteps : other * (bound + 1) ≤ granted) :
    (erasedFirst π bound).Matchers (Pattern.run granted) (Pattern.run other) := by
  have hscoped : (erasedFirst π bound).Scopes :=
    scopes_erasing Nat.le_of_succ_le_succ (fun hnone => absurd hnone (by omega)) (fun _ => rfl)
  induction other generalizing granted with
  | zero => exact fun _ _ _ _ _ _ _ _ _ => InStep.pardoned _ rfl
  | succ other ih =>
      have hround : (other + 1) * (bound + 1) = other * (bound + 1) + (bound + 1) :=
        Nat.succ_mul _ _
      have hleast : other ≤ other * (bound + 1) := Nat.le_mul_of_pos_right _ (Nat.succ_pos _)
      have hnested : ∀ (nested granted : Nat) (pattern : Pattern) (scope : Scope)
          (place : Position), pattern.nesting ≤ nested → nested ≤ bound →
            other * (bound + 1) + nested + 1 ≤ granted → scope.NestsWithin bound →
              (erasedFirst π bound).InStep (erasedFirst π bound).Successes
                (pattern.run granted scope place)
                (pattern.erase.run (other + 1) scope.erase place) := by
        intro nested
        induction nested with
        | zero =>
            intro granted pattern scope place hnesting
            obtain ⟨form, factory, label⟩ := pattern
            exact absurd hnesting (Nat.not_succ_le_zero _)
        | succ nested inner_ih =>
            intro granted pattern scope place hnesting hnested hgranted hwithin
            obtain ⟨granted, rfl⟩ :=
              Nat.exists_eq_add_of_le' (Nat.le_trans (Nat.le_add_left 1 _) hgranted)
            refine inStep_run_succ hscoped (fun _ => id) (by omega) (ih (by omega))
              (Nat.le_trans hnesting hnested) hwithin ?_
            intro inner message hform
            have hinner := nesting_lt_of_demand hform
            exact inner_ih granted inner scope place (by omega) (by omega) (by omega) hwithin
      rintro pattern _ scope _ place _ ⟨hnesting, rfl⟩ ⟨hwithin, rfl⟩ rfl
      exact hnested bound granted pattern scope place hnesting (Nat.le_refl _) (by omega) hwithin

end Accord

end Erasing

/-- Whether a verdict is a match or a miss. -/
def Verdict.isSettled {α : Type} : Verdict α → Bool
  | .halted _ => false
  | _ => true

/-- A verdict as the erased pattern should come to it. -/
def Verdict.erase : Verdict Match → Verdict Match
  | .matched success => .matched success.erase
  | .missed => .missed
  | .halted reason => .halted reason

theorem Accord.eq_erase_of_successes {π : Type} {bound : Nat} {excuses pardons : Halt → Prop}
    {steps : Nat → Nat → Prop} {success other : Match}
    (hsuccesses : (Accord.erasing π bound excuses pardons steps).Successes success other) :
    success.erase = other := by
  obtain ⟨value, position, scope⟩ := success
  obtain ⟨otherValue, otherPosition, otherScope⟩ := other
  obtain ⟨hvalues, hplaces, -, hscopes⟩ := hsuccesses
  dsimp only at hvalues hplaces hscopes
  rw [Match.erase, hvalues, hplaces, hscopes]

variable {π : Type} [Producer π]

/-- What the full match comes to, the erased one comes to. -/
theorem run_erase_of_settled (granted : Nat) (pattern : Pattern) (scope : Scope)
    (place : Position) (input : Input π)
    (hsettled : (pattern.run granted scope place input).1.isSettled = true) :
    pattern.erase.run granted scope.erase place input =
      ((pattern.run granted scope place input).1.erase,
        (pattern.run granted scope place input).2) := by
  obtain ⟨bound, hwithin⟩ := scope.exists_nestsWithin
  have hnested : scope.NestsWithin (max pattern.nesting bound) := fun name rule hfound =>
    Nat.le_trans (hwithin name rule hfound) (Nat.le_max_right _ _)
  have hends := Accord.matchers_fullFirst (π := π) (max pattern.nesting bound) (Nat.le_refl granted)
    ⟨Nat.le_max_left _ _, rfl⟩ ⟨hnested, rfl⟩ (rfl : place = place) (rfl : input = input)
  generalize pattern.run granted scope place input = ending at hends hsettled ⊢
  generalize pattern.erase.run granted scope.erase place input = otherEnding at hends ⊢
  cases hends with
  | matched hresults hafter =>
      rw [Verdict.erase, Accord.eq_erase_of_successes hresults]
      exact congrArg (Prod.mk _) hafter.symm
  | missed hafter => exact congrArg (Prod.mk _) hafter.symm
  | halted _ _ => cases hsettled
  | excused _ => cases hsettled
  | pardoned hpardoned => exact hpardoned.elim

/-- With enough steps, the full match comes to what the erased one comes to, unless it halts
at a demand. -/
theorem run_of_erase_settled (granted : Nat) (pattern : Pattern) (scope : Scope)
    (place : Position) (input : Input π)
    (hsettled : (pattern.erase.run granted scope.erase place input).1.isSettled = true) :
    ∃ enough, ∀ more, enough ≤ more →
      ((pattern.run more scope place input).1.erase, (pattern.run more scope place input).2) =
          pattern.erase.run granted scope.erase place input ∨
        ∃ reason, (pattern.run more scope place input).1 = .halted reason ∧
          reason.isUnmet = true := by
  obtain ⟨bound, hwithin⟩ := scope.exists_nestsWithin
  have hnested : scope.NestsWithin (max pattern.nesting bound) := fun name rule hfound =>
    Nat.le_trans (hwithin name rule hfound) (Nat.le_max_right _ _)
  refine ⟨granted * (max pattern.nesting bound + 1), fun more hmore => ?_⟩
  have hends := Accord.matchers_erasedFirst (π := π) (max pattern.nesting bound) hmore
    ⟨Nat.le_max_left _ _, rfl⟩ ⟨hnested, rfl⟩ (rfl : place = place) (rfl : input = input)
  generalize pattern.run more scope place input = ending at hends ⊢
  generalize pattern.erase.run granted scope.erase place input = otherEnding at hends hsettled ⊢
  cases hends with
  | matched hresults hafter =>
      rw [Verdict.erase, Accord.eq_erase_of_successes hresults]
      exact .inl (congrArg (Prod.mk _) hafter)
  | missed hafter => exact .inl (congrArg (Prod.mk _) hafter)
  | halted _ _ => cases hsettled
  | excused hexcused => exact .inr ⟨_, rfl, hexcused⟩
  | pardoned _ => cases hsettled

/-- Demands and labels never change what is accepted. A match or a miss is the same match or
miss of the erased pattern in the erased scope. Where the erased pattern comes to a match
or a miss, the full one comes to something too once it has enough steps, and whenever it
does, to the same match or miss, or to a diagnostic that an expectation was not met. -/
theorem erase_accepts_alike (pattern : Pattern) (scope : Scope) (place : Position)
    (input : Input π) (granted : Nat) :
    ((pattern.run granted scope place input).1.isSettled = true →
      pattern.erase.run granted scope.erase place input =
        ((pattern.run granted scope place input).1.erase,
          (pattern.run granted scope place input).2)) ∧
    ((pattern.erase.run granted scope.erase place input).1.isSettled = true →
      (∃ enough, ∀ more, enough ≤ more →
        (pattern.run more scope place input).1.isExhausted = false) ∧
      ∀ more, (pattern.run more scope place input).1.isExhausted = false →
        ((pattern.run more scope place input).1.erase, (pattern.run more scope place input).2) =
            pattern.erase.run granted scope.erase place input ∨
          ∃ diagnostic, (pattern.run more scope place input).1 =
            .halted (.diagnostic diagnostic) ∧ diagnostic.cause = .expected) := by
  refine ⟨run_erase_of_settled granted pattern scope place input, fun hsettled => ?_⟩
  obtain ⟨enough, henough⟩ := run_of_erase_settled granted pattern scope place input hsettled
  refine ⟨⟨enough, fun more hmore => ?_⟩, fun more hrun => ?_⟩
  · rcases henough more hmore with hsame | ⟨reason, hhalted, hunmet⟩
    · generalize pattern.run more scope place input = ending at hsame ⊢
      rw [← hsame] at hsettled
      obtain ⟨_ | _ | reason, after⟩ := ending
      · rfl
      · rfl
      · cases hsettled
    · rw [hhalted]
      cases reason with
      | diagnostic raised => rfl
      | _ => cases hunmet
  · have hkept := keptBy_run_of_le (Nat.le_max_left more enough) pattern scope place input hrun
    rw [← hkept]
    refine (henough (max more enough) (Nat.le_max_right _ _)).imp_right ?_
    rintro ⟨reason, hhalted, hunmet⟩
    cases reason with
    | diagnostic raised => exact ⟨raised, hhalted, of_decide_eq_true hunmet⟩
    | _ => cases hunmet

theorem erase_accepts_alike_at_unmet_demand :
    let pattern := ((Pattern.literal "a").andThen
      (((Pattern.literal "b").labelled "second").demand "no b")).orElse (.named "rest")
    let scope := Scope.empty.bind "rest" (.rule ((Pattern.literal "ac").demand "no ac"))
    let token : Token := ⟨"ac", ⟨1, 1, 0⟩, ⟨1, 3, 2⟩⟩
    pattern.erase.run 9 scope.erase Position.start (Input.ofText "ac") =
        (.matched ⟨.token token, ⟨1, 3, 2⟩, scope.erase⟩, Input.ofText "ac") ∧
      ∃ diagnostic, (pattern.run 9 scope Position.start (Input.ofText "ac")).1 =
        .halted (.diagnostic diagnostic) ∧ diagnostic.cause = .expected := by
  intro pattern scope token
  have herased : pattern.erase.run 9 scope.erase Position.start (Input.ofText "ac") =
      (.matched ⟨.token token, ⟨1, 3, 2⟩, scope.erase⟩, Input.ofText "ac") := by cbv
  have hfull : (pattern.run 9 scope Position.start (Input.ofText "ac")).1 =
      .halted (.diagnostic ⟨.expected, "no b", ⟨1, 2, 1⟩, ⟨1, 1⟩⟩) := by cbv
  have hsettled : (pattern.erase.run 9 scope.erase Position.start
      (Input.ofText "ac")).1.isSettled = true := by rw [herased]; rfl
  have hrun : (pattern.run 9 scope Position.start (Input.ofText "ac")).1.isExhausted = false := by
    rw [hfull]; rfl
  refine ⟨herased, ?_⟩
  obtain hsame | hunmet := ((erase_accepts_alike pattern scope Position.start
    (Input.ofText "ac") 9).2 hsettled).2 9 hrun
  · rw [hfull, herased] at hsame
    cases hsame
  · exact hunmet

end ScopedGrammar
