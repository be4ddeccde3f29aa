/-
# Matches elsewhere

A match never looks behind the position where it starts. Two complete texts that go on
alike, each from a position of its own, give matches that take the same characters, with
values that differ in where their tokens stand and in nothing else. Lines and columns play
no part, and neither do the tokens that were captured on the way: only their texts, their
lengths and their kinds have any effect.

This needs that no factory is run, since a factory may look at where a token stands. It also
needs that neither match leaves the words of lines, columns and offsets. From some positions a
single character does, or an absence of great width, and from others it does not, although the
same characters follow.
-/

import ScopedGrammar.Pattern.Build
import ScopedGrammar.Proofs.Input.Advancing
import ScopedGrammar.Proofs.Match.Accord
import ScopedGrammar.Proofs.Match.Reach
import ScopedGrammar.Proofs.Match.Words
import ScopedGrammar.Proofs.Value.Shifted
import Mathlib

namespace ScopedGrammar

/-- What a form runs directly: what it uses or, for an absence, what it looks for. -/
def Form.runs (scope : Scope) : Form → List Pattern
  | .absence inner _ => [inner]
  | shape => shape.uses scope

/-- No pattern that may be run on the way has a factory. The rules that names mean are those
of a scope. -/
def Pattern.FactoryFree (scope : Scope) (pattern : Pattern) : Prop :=
  ∀ other, Relation.ReflTransGen (fun user used : Pattern => used ∈ user.form.runs scope)
    pattern other → other.factory = none

namespace Pattern.FactoryFree

variable {scope : Scope} {pattern : Pattern}

theorem factory_eq_none (hfree : pattern.FactoryFree scope) : pattern.factory = none :=
  hfree pattern .refl

theorem of_mem_runs (hfree : pattern.FactoryFree scope) {used : Pattern}
    (hused : used ∈ pattern.form.runs scope) : used.FactoryFree scope :=
  fun other hother => hfree other (.head hused hother)

/-- Patterns without factories that run only one another run none. -/
theorem of_closed (patterns : List Pattern) (hpattern : pattern ∈ patterns)
    (hclosed : ∀ other ∈ patterns, other.factory = none ∧ other.form.runs scope ⊆ patterns) :
    pattern.FactoryFree scope := by
  intro other hother
  have hmem : other ∈ patterns := by
    induction hother with
    | refl => exact hpattern
    | tail _ hused ih => exact (hclosed _ ih).2 hused
  exact (hclosed other hmem).1

end Pattern.FactoryFree

/-- Two bindings look the same: values that do, or one rule. -/
inductive Binding.Resembles : Binding → Binding → Prop
  | value {content other : Value} (hlook : content.Resembles other) :
      Resembles (.value content) (.value other)
  | rule (pattern : Pattern) : Resembles (.rule pattern) (.rule pattern)

/-- Two scopes bind the same names to what looks the same. -/
def Scope.Resembles (scope other : Scope) : Prop :=
  ∀ name, Option.Rel Binding.Resembles (scope.find? name) (other.find? name)

/-- Two halts are the same error: one defect, diagnostics of one cause equally far behind two
origins, or running out of steps. The defect of a bound tells its kind and its text. -/
inductive Halt.Shifted (origin other : Nat) : Halt → Halt → Prop
  | defect (defect : Defect) : Shifted origin other (.defect defect) (.defect defect)
  | invalidBound {content found : Value} (hkind : content.kind = found.kind)
      (hdisplay : content.display = found.display) :
      Shifted origin other (.defect (.invalidBound content)) (.defect (.invalidBound found))
  | diagnostic {first second : Diagnostic} (hcause : first.cause = second.cause)
      (hposition : first.position.Shifted origin other second.position) :
      Shifted origin other (.diagnostic first) (.diagnostic second)
  | exhausted : Shifted origin other .exhausted .exhausted

/-- Two verdicts are the same, but for where the matches started. -/
inductive Verdict.Shifted (origin other : Nat) : Verdict Match → Verdict Match → Prop
  | matched {first second : Match} (hvalue : first.value.Shifted origin other second.value)
      (hposition : first.position.Shifted origin other second.position) :
      Shifted origin other (.matched first) (.matched second)
  | missed : Shifted origin other .missed .missed
  | halted {first second : Halt} (hhalts : first.Shifted origin other second) :
      Shifted origin other (.halted first) (.halted second)

namespace Scope

theorem Resembles.refl (scope : Scope) : scope.Resembles scope := by
  intro name
  cases scope.find? name with
  | none => exact .none
  | some binding =>
      cases binding with
      | value content => exact .some (.value (.same content))
      | rule pattern => exact .some (.rule pattern)

theorem Resembles.bind {scope other : Scope} (hscopes : scope.Resembles other) (name : String)
    {content found : Value} (hlook : content.Resembles found) :
    (scope.bind name (.value content)).Resembles (other.bind name (.value found)) := by
  intro looked
  rw [find?_bind, find?_bind]
  split
  · exact .some (.value hlook)
  · exact hscopes looked

theorem BindsWithin.bind {reached : Pattern → Prop} {outer inner : Scope}
    (hwithin : BindsWithin reached outer inner) (name : String) (content : Value) :
    BindsWithin reached outer (inner.bind name (.value content)) :=
  hwithin.captured (.bind inner (List.mem_singleton.mpr rfl) content)

end Scope

section Reading

/-- In a complete text, the token of some characters holds those that are there. -/
theorem Token.text_capture_ofText (place : Position) (count : Nat) (text : String) :
    (Token.capture place count (Input.ofText text)).1.text =
      String.ofList ((text.toList.drop place.offset).take count) := by
  rw [capture_of_admits (place.admits_advance_ofText count text)]

variable {first second : String} {origin other : Nat}

theorem drop_eq_of_shifted (hrest : first.toList.drop origin = second.toList.drop other)
    {place otherPlace : Position} (hplaces : place.Shifted origin other otherPlace) :
    first.toList.drop place.offset = second.toList.drop otherPlace.offset := by
  obtain ⟨moved, hplace, hother⟩ := hplaces
  rw [hplace, hother, ← List.drop_drop, ← List.drop_drop, hrest]

end Reading

/-- The accord between matches over two texts, from two origins. -/
def Accord.shifting (outer : Scope) (first second : String) (origin other : Nat) :
    Accord Silence Silence where
  inputs input otherInput := input = Input.ofText first ∧ otherInput = Input.ofText second
  places := Position.Shifted origin other
  values := Value.Shifted origin other
  contents := Value.Resembles
  scopes scope otherScope := scope.Resembles otherScope ∧
    Scope.BindsWithin (Pattern.FactoryFree outer) outer scope
  patterns pattern otherPattern := pattern.FactoryFree outer ∧ pattern = otherPattern
  terms := Eq
  targets term otherTerm :=
    (∀ rule, term.rule? outer = some rule → rule.FactoryFree outer) ∧ term = otherTerm
  messages := Eq
  halts := Halt.Shifted origin other
  excuses reason := reason = .overflow
  pardons reason := reason = .overflow
  steps := Eq

namespace Accord

variable {outer : Scope} {first second : String} {origin other : Nat}

theorem reads_shifting (hrest : first.toList.drop origin = second.toList.drop other) :
    (Accord.shifting outer first second origin other).Reads where
  charAt := by
    rintro place otherPlace _ _ hplaces ⟨rfl, rfl⟩ ahead
    rw [Input.charAt_ofText, Input.charAt_ofText]
    refine ⟨?_, rfl, rfl⟩
    have hdrop := drop_eq_of_shifted hrest hplaces
    dsimp only
    rw [← List.getElem?_drop, ← List.getElem?_drop, hdrop]
  capture := by
    rintro place otherPlace _ _ hplaces ⟨rfl, rfl⟩ count
    have hdrop := drop_eq_of_shifted hrest hplaces
    have hstop : Position.Shifted origin other
        (place.advance count (Input.ofText first)).1
        (otherPlace.advance count (Input.ofText second)).1 := by
      obtain ⟨moved, hplace, hother⟩ := hplaces
      refine ⟨moved + count, ?_, ?_⟩
      · rw [Position.offset_advance, hplace, Nat.add_assoc]
      · rw [Position.offset_advance, hother, Nat.add_assoc]
    refine ⟨⟨.token ?_ hplaces hstop, hstop⟩, ?_, ?_⟩
    · rw [Token.text_capture_ofText, Token.text_capture_ofText, hdrop]
    · exact (growing_capture place count _).settled rfl
    · exact (growing_capture otherPlace count _).settled rfl
  samePlace := by
    rintro place otherPlace later otherLater ⟨moved, hplace, hother⟩ ⟨further, hlater, hmore⟩
    rw [Position.samePlace, Position.samePlace, hplace, hother, hlater, hmore, Bool.eq_iff_iff,
      beq_iff_eq, beq_iff_eq]
    omega
  overflow _ _ := .inr ⟨rfl, rfl⟩
  empty := .empty
  endMark := .endMark
  list hmembers := .list hmembers

theorem resolved_lookup_shifting {scope otherScope : Scope}
    (hscopes : scope.Resembles otherScope) (looked : String) :
    (Accord.shifting outer first second origin other).Resolved Binding.Resembles
      (scope.lookup looked) (otherScope.lookup looked) := by
  rw [Scope.lookup, Scope.lookup]
  have hbindings := hscopes looked
  generalize scope.find? looked = found at hbindings ⊢
  generalize otherScope.find? looked = otherFound at hbindings ⊢
  cases hbindings with
  | none => exact .error (.defect _)
  | some hlook => exact .ok hlook

theorem resolved_lookupValue_shifting {scope otherScope : Scope}
    (hscopes : scope.Resembles otherScope) (looked : String) :
    (Accord.shifting outer first second origin other).Resolved Value.Resembles
      (scope.lookupValue looked) (otherScope.lookupValue looked) := by
  rw [Term.lookupValue_eq, Term.lookupValue_eq]
  refine .bind (resolved_lookup_shifting hscopes looked) fun hbinding => ?_
  cases hbinding with
  | value hlook => exact .ok hlook
  | rule pattern => exact .error (.defect _)

theorem resolved_apply_shifting (operation : Operation) {left right otherLeft otherRight : Value}
    (hleft : left.Resembles otherLeft) (hright : right.Resembles otherRight) :
    (Accord.shifting outer first second origin other).Resolved Value.Resembles
      (operation.apply left right) (operation.apply otherLeft otherRight) := by
  rw [Operation.apply, Operation.apply, hleft.kind_eq, hright.kind_eq]
  have hresults := hleft.applied operation hright
  generalize operation.apply? left right = result at hresults ⊢
  generalize operation.apply? otherLeft otherRight = otherResult at hresults ⊢
  cases hresults with
  | none => exact .error (.defect _)
  | some hlook => exact .ok hlook

/-- By recursion on the term: each step of its computation keeps the look of values. -/
theorem resolved_value_shifting {scope otherScope : Scope}
    (hscopes : scope.Resembles otherScope) :
    (term : Term) → (Accord.shifting outer first second origin other).Resolved Value.Resembles
      (term.value scope) (term.value otherScope)
  | .const content => .ok (.same content)
  | .rule pattern => .error (.defect _)
  | .name looked => resolved_lookupValue_shifting hscopes looked
  | .sum looked added => by
      rw [Term.value_sum, Term.value_sum]
      refine .bind (resolved_lookupValue_shifting hscopes looked) fun hleft => ?_
      refine .bind (resolved_value_shifting hscopes added) fun hright => ?_
      exact resolved_apply_shifting .sum hleft hright
  | .product looked factor => by
      rw [Term.value_product, Term.value_product]
      refine .bind (resolved_lookupValue_shifting hscopes looked) fun hleft => ?_
      refine .bind (resolved_value_shifting hscopes factor) fun hright => ?_
      exact resolved_apply_shifting .product hleft hright
  | .conditional looked whenTrue whenFalse => by
      rw [Term.value_conditional, Term.value_conditional]
      refine .bind (resolved_lookupValue_shifting hscopes looked) fun hcondition => ?_
      rw [hcondition.isTruthy_eq]
      split
      · exact resolved_value_shifting hscopes whenTrue
      · exact resolved_value_shifting hscopes whenFalse

/-- A term resolves to what looks the same, and to no rule that runs factories. -/
theorem resolved_resolve_shifting {scope otherScope : Scope}
    (hscopes : scope.Resembles otherScope)
    (hwithin : Scope.BindsWithin (Pattern.FactoryFree outer) outer scope) {term : Term}
    (hterm : ∀ rule, term.rule? outer = some rule → rule.FactoryFree outer) :
    (Accord.shifting outer first second origin other).Resolved
      (Accord.shifting outer first second origin other).Bindings
      (term.resolve scope) (term.resolve otherScope) := by
  have hlook : (Accord.shifting outer first second origin other).Resolved Binding.Resembles
      (term.resolve scope) (term.resolve otherScope) := by
    have hcomputed : (Accord.shifting outer first second origin other).Resolved
        Binding.Resembles ((term.value scope).map .value) ((term.value otherScope).map .value) :=
      .map (resolved_value_shifting hscopes term) .value
    cases term with
    | const content => exact .ok (.value (.same content))
    | rule pattern => exact .ok (.rule pattern)
    | name looked => exact resolved_lookup_shifting hscopes looked
    | sum looked added => exact hcomputed
    | product looked factor => exact hcomputed
    | conditional looked whenTrue whenFalse => exact hcomputed
  have hfree : ∀ rule, term.resolve scope = .ok (.rule rule) → rule.FactoryFree outer := by
    intro rule hresolved
    have htarget : term ∈ (Form.reference term).targets := List.mem_singleton.mpr rfl
    refine hwithin.resolved ?_ htarget hresolved
    intro used hused
    obtain ⟨target, htarget, hrule⟩ := List.mem_filterMap.mp hused
    cases List.mem_singleton.mp htarget
    exact hterm used hrule
  generalize term.resolve scope = resolved at hlook hfree ⊢
  generalize term.resolve otherScope = otherResolved at hlook ⊢
  cases hlook with
  | error hhalts => exact .error hhalts
  | ok hbinding =>
      cases hbinding with
      | value hvalue => exact .ok (.value hvalue)
      | rule pattern => exact .ok (.rule ⟨hfree pattern rfl, rfl⟩)

theorem scopes_push_shifting {scope otherScope : Scope} {frame otherFrame : Frame}
    (hscopes : scope.Resembles otherScope)
    (hwithin : Scope.BindsWithin (Pattern.FactoryFree outer) outer scope)
    (hframes : (Accord.shifting outer first second origin other).Frames frame otherFrame) :
    (scope.push frame).Resembles (otherScope.push otherFrame) ∧
      Scope.BindsWithin (Pattern.FactoryFree outer) outer (scope.push frame) := by
  constructor
  · intro name
    rw [Scope.find?_push, Scope.find?_push]
    have hbindings := hframes.find? name
    generalize Frame.find? name frame = found at hbindings ⊢
    generalize Frame.find? name otherFrame = otherFound at hbindings ⊢
    cases hbindings with
    | none => exact hscopes name
    | some hbinding =>
        cases hbinding with
        | value hlook => exact .some (.value hlook)
        | rule hpatterns =>
            cases hpatterns.2
            exact .some (.rule _)
  · intro name rule hbound
    rw [Scope.rule?_eq_some_iff, Scope.find?_push, Option.or_eq_some_iff] at hbound
    rcases hbound with hfound | ⟨-, hbelow⟩
    · have hbindings := hframes.find? name
      rw [hfound] at hbindings
      generalize Frame.find? name otherFrame = otherFound at hbindings
      cases hbindings with
      | some hbinding =>
          cases hbinding with
          | rule hpatterns => exact .inr hpatterns.1
    · exact hwithin name rule (Scope.rule?_eq_some_iff.mpr hbelow)

/-- The messages of two diagnostics may differ, because they may tell positions. -/
theorem complain_shifting {scope otherScope : Scope} (message : Message)
    {place otherPlace : Position} (hplaces : place.Shifted origin other otherPlace) :
    (Accord.shifting outer first second origin other).InStep
      (Accord.shifting outer first second origin other).Successes
      (Match.complain message scope place) (Match.complain message otherScope otherPlace) := by
  have hread : (Accord.shifting outer first second origin other).InStep (fun _ _ => True)
      (Attempt.read (message.render scope place))
      (Attempt.read (message.render otherScope otherPlace)) := by
    refine .read ?_
    rintro _ _ ⟨rfl, rfl⟩
    exact ⟨trivial, (growing_renderPieces scope place message.pieces _).settled rfl,
      (growing_renderPieces otherScope otherPlace message.pieces _).settled rfl⟩
  refine .bind hread fun {text otherText} _ => ?_
  have hexpected : (Accord.shifting outer first second origin other).InStep
      (fun raised otherRaised => Halt.Shifted origin other (.diagnostic raised)
        (.diagnostic otherRaised))
      (Attempt.read (Diagnostic.expected text place))
      (Attempt.read (Diagnostic.expected otherText otherPlace)) := by
    refine .read ?_
    rintro _ _ ⟨rfl, rfl⟩
    refine ⟨.diagnostic ?_ ?_, (growing_raise _ _ _ _).settled rfl,
      (growing_raise _ _ _ _).settled rfl⟩
    · rw [Diagnostic.expected, Diagnostic.expected, Diagnostic.cause_raise,
        Diagnostic.cause_raise]
    · rw [Diagnostic.expected, Diagnostic.expected, Diagnostic.position_raise,
        Diagnostic.position_raise]
      exact hplaces
  exact .bind hexpected fun hhalts => .halt hhalts

theorem scopes_shifting :
    (Accord.shifting outer first second origin other).Scopes where
  value := by
    rintro term _ scope otherScope rfl ⟨hscopes, -⟩
    exact resolved_value_shifting hscopes term
  resolve := by
    rintro term _ scope otherScope ⟨hterm, rfl⟩ ⟨hscopes, hwithin⟩
    exact resolved_resolve_shifting hscopes hwithin hterm
  asText := Value.Resembles.asText?_eq
  asInt := Value.Resembles.asInt?_eq
  notText := by
    rintro term _ content found rfl hlook
    rw [hlook.kind_eq]
    exact .defect _
  notParsable := by
    rintro term _ content found ⟨-, rfl⟩ hlook
    rw [hlook.kind_eq]
    exact .defect _
  invalidBound hlook := .invalidBound hlook.kind_eq hlook.display_eq
  bind := by
    rintro scope otherScope content found ⟨hscopes, hwithin⟩ hshifted name
    exact ⟨hscopes.bind name hshifted.resembles, hwithin.bind name content⟩
  push := by
    rintro scope otherScope frame otherFrame ⟨hscopes, hwithin⟩ hframes
    exact scopes_push_shifting hscopes hwithin hframes
  complain := by
    rintro message _ scope otherScope place otherPlace rfl - hplaces
    exact complain_shifting message hplaces
  defect := .defect
  exhausted := .exhausted
  steps_pred := Nat.succ.inj
  excuses_of_steps hsteps := nomatch hsteps
  pardons_of_steps hsteps := nomatch hsteps

theorem forms_shifting {shape : Form}
    (hfree : ∀ used ∈ shape.runs outer, used.FactoryFree outer) :
    (Accord.shifting outer first second origin other).Forms shape shape := by
  cases shape with
  | literal text => exact .literal rfl
  | charClass members excluded => exact .charClass members excluded
  | choice options =>
      refine .choice (List.forall₂_same.mpr fun option hoption => ⟨?_, rfl⟩)
      exact hfree option (List.mem_append_left _ hoption)
  | sequence parts picks =>
      refine .sequence (List.forall₂_same.mpr fun part hpart => And.intro ?_ rfl) picks
      exact hfree part (List.mem_append_left _ hpart)
  | repetition part least most separator keepSeparators =>
      have hpart := hfree part (List.mem_append_left _ List.mem_cons_self)
      refine .repetition (And.intro hpart rfl) rfl ?_ ?_ keepSeparators
      · cases most with
        | none => exact .none
        | some most => exact .some rfl
      · cases separator with
        | none => exact .none
        | some separator =>
            refine .some ⟨hfree separator (List.mem_append_left _ ?_), rfl⟩
            exact List.mem_cons_of_mem _ List.mem_cons_self
  | absence inner width => exact .absence (And.intro (hfree inner List.mem_cons_self) rfl) width
  | demand inner message =>
      have hinner := hfree inner (List.mem_append_left _ List.mem_cons_self)
      exact .demand (And.intro hinner rfl) rfl
  | capture inner name =>
      have hinner := hfree inner (List.mem_append_left _ List.mem_cons_self)
      exact .capture (And.intro hinner rfl) name
  | overlay inner bindings =>
      have hinner := hfree inner (List.mem_append_left _ List.mem_cons_self)
      refine .overlay (And.intro hinner rfl) (List.forall₂_same.mpr fun entry hentry => ?_)
      refine ⟨rfl, fun rule hrule => hfree rule (List.mem_append_right _ ?_), rfl⟩
      exact List.mem_filterMap.mpr ⟨entry.2, List.mem_map_of_mem hentry, hrule⟩
  | reference target =>
      refine .reference ⟨fun rule hrule => hfree rule (List.mem_append_right _ ?_), rfl⟩
      exact List.mem_filterMap.mpr ⟨target, List.mem_cons_self, hrule⟩
  | finish => exact .finish

theorem matchers_shifting (hrest : first.toList.drop origin = second.toList.drop other)
    (granted : Nat) :
    (Accord.shifting outer first second origin other).Matchers (Pattern.run granted)
      (Pattern.run granted) := by
  refine matchers_run (reads_shifting hrest) scopes_shifting (fun _ => rfl) ?_ ?_ granted
  · rintro pattern _ ⟨hfree, rfl⟩
    exact forms_shifting fun used hused => hfree.of_mem_runs hused
  · rintro pattern _ value otherValue ⟨hfree, rfl⟩ hvalues
    rw [Pattern.finishValue, Pattern.finishValue, hfree.factory_eq_none]
    exact hvalues

end Accord

/-- Over two texts that go on alike from two positions, counting without bounds, a pattern that
runs no factories comes to the same at both; unless a sum of an offset and a width overflows. -/
theorem run_shifted (granted : Nat) (pattern : Pattern) (scope : Scope)
    (hfree : pattern.FactoryFree scope) (first second : String) (place other : Position)
    (hrest : first.toList.drop place.offset = second.toList.drop other.offset)
    (hfirst : (pattern.run granted scope place (Input.ofText first)).1 ≠ .halted .overflow)
    (hsecond : (pattern.run granted scope other (Input.ofText second)).1 ≠ .halted .overflow) :
    (pattern.run granted scope place (Input.ofText first)).1.Shifted place.offset other.offset
      (pattern.run granted scope other (Input.ofText second)).1 := by
  have hscopes : scope.Resembles scope ∧
      Scope.BindsWithin (Pattern.FactoryFree scope) scope scope :=
    ⟨.refl scope, .refl _ scope⟩
  have hmatchers : (Accord.shifting scope first second place.offset other.offset).Matchers
      (Pattern.run granted) (Pattern.run granted) := Accord.matchers_shifting hrest granted
  have hends := hmatchers ⟨hfree, rfl⟩ hscopes ⟨0, rfl, rfl⟩ ⟨rfl, rfl⟩
  generalize pattern.run granted scope place (Input.ofText first) = ending at hends hfirst ⊢
  generalize pattern.run granted scope other (Input.ofText second) = otherEnding at *
  cases hends with
  | matched hresults _ => exact .matched hresults.values hresults.places
  | missed _ => exact .missed
  | halted hhalts _ => exact .halted hhalts
  | excused hexcused =>
      cases hexcused
      exact absurd rfl hfirst
  | pardoned hpardoned =>
      cases hpardoned
      exact absurd rfl hsecond

/-- A match never looks behind its start. Over two texts that go on alike from two positions,
whatever their lines and columns, a pattern that runs no factories misses in both, or takes
the same number of characters with the same values up to where their tokens stand, or halts
with the same defect or with diagnostics of the same cause at the same distance; unless one
of the two leaves the words of lines, columns and offsets. -/
theorem checkedRun_shifted (granted : Nat) (pattern : Pattern) (scope : Scope)
    (hfree : pattern.FactoryFree scope) (first second : String) (place other : Position)
    (hrest : first.toList.drop place.offset = second.toList.drop other.offset)
    (hfirst : (pattern.checkedRun granted scope place (Input.ofText first)).1 ≠
      .halted .overflow)
    (hsecond : (pattern.checkedRun granted scope other (Input.ofText second)).1 ≠
      .halted .overflow) :
    (pattern.checkedRun granted scope place (Input.ofText first)).1.Shifted place.offset
      other.offset (pattern.checkedRun granted scope other (Input.ofText second)).1 := by
  have hsame := (pattern.checkedRun_eq_or_overflow granted scope place
    (Input.ofText first)).resolve_right hfirst
  have hother := (pattern.checkedRun_eq_or_overflow granted scope other
    (Input.ofText second)).resolve_right hsecond
  rw [hsame] at hfirst ⊢
  rw [hother] at hsecond ⊢
  exact run_shifted granted pattern scope hfree first second place other hrest hfirst hsecond

/-- A captured letter has to come again, on the first line of a text and on the last line that
a word can count. -/
theorem checkedRun_shifted_of_repeated_letter :
    let letter := Pattern.oneOf "ab"
    let pattern := (letter.capture "x").andThen (.named "x")
    let last : Position := ⟨0xFFFFFFFFFFFFFFFF, 1, 3⟩
    let ending := (pattern.checkedRun 9 Scope.empty Position.start (Input.ofText "bbc")).1
    ending.Shifted 0 3
        (pattern.checkedRun 9 Scope.empty last (Input.ofText "a\n\nbbc")).1 ∧
      ∃ success, ending = .matched success := by
  intro letter pattern last ending
  have hfree : pattern.FactoryFree Scope.empty := by
    refine .of_closed [pattern, letter.capture "x", letter, .named "x"] List.mem_cons_self ?_
    simp only [List.forall_mem_cons]
    refine ⟨⟨rfl, ?_⟩, ⟨rfl, ?_⟩, ⟨rfl, List.nil_subset _⟩, ⟨rfl, List.nil_subset _⟩,
      List.forall_mem_nil _⟩
    · change [letter.capture "x", .named "x"] ⊆ _
      simp
    · change [letter] ⊆ _
      simp
  have hmatched : pattern.checkedRun 9 Scope.empty Position.start (Input.ofText "bbc") =
      (.matched ⟨.list [.token ⟨"b", ⟨1, 1, 0⟩, ⟨1, 2, 1⟩⟩, .token ⟨"b", ⟨1, 2, 1⟩, ⟨1, 3, 2⟩⟩],
        ⟨1, 3, 2⟩, Scope.empty.bind "x" (.value (.token ⟨"b", ⟨1, 1, 0⟩, ⟨1, 2, 1⟩⟩))⟩,
        Input.ofText "bbc") := by cbv
  have hother : ∃ success,
      (pattern.checkedRun 9 Scope.empty last (Input.ofText "a\n\nbbc")).1 =
        .matched success := ⟨_, by cbv⟩
  obtain ⟨success, hother⟩ := hother
  refine ⟨?_, _, congrArg Prod.fst hmatched⟩
  exact checkedRun_shifted 9 pattern Scope.empty hfree "bbc" "a\n\nbbc" Position.start last
    (by decide) (by simp [hmatched]) (by simp [hother])

/-- From some positions a match leaves the words, although the same characters follow there as at
the start of a text. After the last column there is no place, so a letter that stands in it does
not match. And the width of an absence is added to the offset, so close to the end of the word
the sum leaves it, although no character is there either way. -/
theorem not_shifted_out_of_words :
    (let letter := Pattern.literal "a"
      let edge : Position := ⟨1, 0xFFFFFFFFFFFFFFFF, 0⟩
      letter.FactoryFree Scope.empty ∧ edge.InWords ∧
        (∃ success, (letter.checkedRun 9 Scope.empty Position.start (Input.ofText "a")).1 =
          .matched success) ∧
        (letter.checkedRun 9 Scope.empty edge (Input.ofText "a")).1 = .halted .overflow ∧
        ¬ (letter.checkedRun 9 Scope.empty Position.start (Input.ofText "a")).1.Shifted 0 0
          (letter.checkedRun 9 Scope.empty edge (Input.ofText "a")).1) ∧
    (let absence := (Pattern.literal "x").absent 0xFFFFFFFFFFFFFFFF
      let past : Position := ⟨1, 3, 2⟩
      absence.FactoryFree Scope.empty ∧
        "".toList.drop Position.start.offset = "ab".toList.drop past.offset ∧
        (absence.checkedRun 9 Scope.empty Position.start (Input.ofText "")).1 = .missed ∧
        (absence.checkedRun 9 Scope.empty past (Input.ofText "ab")).1 = .halted .overflow ∧
        ¬ (absence.checkedRun 9 Scope.empty Position.start (Input.ofText "")).1.Shifted 0 2
          (absence.checkedRun 9 Scope.empty past (Input.ofText "ab")).1) := by
  constructor
  · intro letter edge
    have hmatched : (letter.checkedRun 9 Scope.empty Position.start (Input.ofText "a")).1 =
        .matched ⟨.token ⟨"a", ⟨1, 1, 0⟩, ⟨1, 2, 1⟩⟩, ⟨1, 2, 1⟩, Scope.empty⟩ := by cbv
    have hhalted : (letter.checkedRun 9 Scope.empty edge (Input.ofText "a")).1 =
        .halted .overflow := by cbv
    refine ⟨?_, by decide, ⟨_, hmatched⟩, hhalted, ?_⟩
    · refine .of_closed [letter] List.mem_cons_self ?_
      exact List.forall_mem_singleton.mpr ⟨rfl, List.nil_subset _⟩
    · rw [hmatched, hhalted]
      rintro ⟨⟩
  · intro absence past
    have hmissed : (absence.checkedRun 9 Scope.empty Position.start (Input.ofText "")).1 =
        .missed := by cbv
    have hhalted : (absence.checkedRun 9 Scope.empty past (Input.ofText "ab")).1 =
        .halted .overflow := by cbv
    refine ⟨?_, by decide, hmissed, hhalted, ?_⟩
    · refine .of_closed [absence, .literal "x"] List.mem_cons_self ?_
      simp only [List.forall_mem_cons]
      refine ⟨⟨rfl, ?_⟩, ⟨rfl, List.nil_subset _⟩, List.forall_mem_nil _⟩
      change [Pattern.literal "x"] ⊆ _
      simp
    · rw [hmissed, hhalted]
      rintro ⟨⟩

end ScopedGrammar
