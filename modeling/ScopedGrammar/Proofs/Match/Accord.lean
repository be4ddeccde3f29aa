/-
# Two matches side by side

Two matches may be compared step by step: one pattern against another, in two scopes, at
two positions of two inputs. An accord says what of the one corresponds to what of the
other: positions, values, scopes, patterns, and the halts that count as the same. It may
also excuse halts of either side, with which nothing needs to correspond.

The ways to combine attempts keep any accord, so each part of the matcher keeps it if its
own parts do. What depends on the particular accord is gathered in two lists of laws: one
about reading the input and collecting values, and one about scopes and terms. From them,
one level of matching is in accord whenever the matchers below it are.
-/

import ScopedGrammar.Proofs.Match.Growth
import Mathlib.Data.List.Forall2

namespace ScopedGrammar

variable {π ρ α β α' β' : Type}

namespace Term

variable (scope : Scope) (looked : String)

theorem value_sum (other : Term) :
    (sum looked other).value scope = (scope.lookupValue looked).bind fun first =>
      (other.value scope).bind (Operation.sum.apply first) := by
  rw [value]
  cases scope.lookupValue looked <;> cases other.value scope <;> rfl

theorem value_product (other : Term) :
    (product looked other).value scope = (scope.lookupValue looked).bind fun first =>
      (other.value scope).bind (Operation.product.apply first) := by
  rw [value]
  cases scope.lookupValue looked <;> cases other.value scope <;> rfl

theorem value_conditional (whenTrue whenFalse : Term) :
    (conditional looked whenTrue whenFalse).value scope =
      (scope.lookupValue looked).bind fun condition =>
        if condition.isTruthy then whenTrue.value scope else whenFalse.value scope := by
  rw [value]
  cases scope.lookupValue looked <;> rfl

theorem lookupValue_eq :
    scope.lookupValue looked =
      (scope.lookup looked).bind (Binding.expectValue (name looked).display) := by
  rw [Scope.lookupValue]
  cases scope.lookup looked <;> rfl

theorem textOf_eq (term : Term) :
    term.textOf scope = (term.value scope).bind fun content =>
      match content.asText? with
      | some spelled => .ok spelled
      | none => .error (.notText term.display content.kind) := by
  rw [textOf]
  cases term.value scope <;> rfl

theorem count_eq (term : Term) :
    term.count scope = (term.value scope).bind fun content =>
      match content.asInt? with
      | some number =>
          if 0 ≤ number.toInt then .ok number.toInt.toNat else .error (.invalidBound content)
      | none => .error (.invalidBound content) := by
  rw [count]
  rcases term.value scope with defect | content
  · rfl
  · cases content <;> rfl

end Term

/-- What of one match corresponds to what of another. -/
structure Accord (π ρ : Type) where
  inputs : Input π → Input ρ → Prop
  places : Position → Position → Prop
  /-- Results of matching. -/
  values : Value → Value → Prop
  /-- Values that names are bound to. -/
  contents : Value → Value → Prop
  scopes : Scope → Scope → Prop
  patterns : Pattern → Pattern → Prop
  /-- Terms that stand for values. -/
  terms : Term → Term → Prop
  /-- Terms that may stand for rules. -/
  targets : Term → Term → Prop
  messages : Message → Message → Prop
  halts : Halt → Halt → Prop
  /-- Halts on the first side that need no counterpart. -/
  excuses : Halt → Prop
  /-- Halts on the second side that need no counterpart. -/
  pardons : Halt → Prop
  /-- Numbers of steps granted. -/
  steps : Nat → Nat → Prop

namespace Accord

/-- Two attempts have ended alike, or one of them with a halt that is excused. -/
inductive Ends (accord : Accord π ρ) (results : α → β → Prop) :
    Verdict α × Input π → Verdict β × Input ρ → Prop
  | matched {result other input otherInput} (hresults : results result other)
      (hinputs : accord.inputs input otherInput) :
      Ends accord results (.matched result, input) (.matched other, otherInput)
  | missed {input otherInput} (hinputs : accord.inputs input otherInput) :
      Ends accord results (.missed, input) (.missed, otherInput)
  | halted {reason other input otherInput} (hhalts : accord.halts reason other)
      (hinputs : accord.inputs input otherInput) :
      Ends accord results (.halted reason, input) (.halted other, otherInput)
  | excused {reason input ending} (hexcused : accord.excuses reason) :
      Ends accord results (.halted reason, input) ending
  | pardoned {reason otherInput ending} (hpardoned : accord.pardons reason) :
      Ends accord results ending (.halted reason, otherInput)

/-- Two attempts that end alike on inputs that correspond. -/
def InStep (accord : Accord π ρ) (results : α → β → Prop) (attempt : Attempt π α)
    (other : Attempt ρ β) : Prop :=
  ∀ ⦃input : Input π⦄ ⦃otherInput : Input ρ⦄, accord.inputs input otherInput →
    accord.Ends results (attempt input) (other otherInput)

/-- Two results of resolving terms: both succeed, or both are defects that count as the
same. -/
inductive Resolved (accord : Accord π ρ) (results : α → β → Prop) :
    Except Defect α → Except Defect β → Prop
  | ok {result other} (hresults : results result other) :
      Resolved accord results (.ok result) (.ok other)
  | error {defect other} (hhalts : accord.halts (.defect defect) (.defect other)) :
      Resolved accord results (.error defect) (.error other)

/-- Two bindings of a name. -/
inductive Bindings (accord : Accord π ρ) : Binding → Binding → Prop
  | value {content other} (hcontents : accord.contents content other) :
      Bindings accord (.value content) (.value other)
  | rule {pattern other} (hpatterns : accord.patterns pattern other) :
      Bindings accord (.rule pattern) (.rule other)

variable {accord : Accord π ρ} {results : α → β → Prop} {results' : α' → β' → Prop}

theorem Resolved.bind {first : Except Defect α} {other : Except Defect β}
    {next : α → Except Defect α'} {otherNext : β → Except Defect β'}
    (hfirst : accord.Resolved results first other)
    (hnext : ∀ {result otherResult}, results result otherResult →
      accord.Resolved results' (next result) (otherNext otherResult)) :
    accord.Resolved results' (first.bind next) (other.bind otherNext) := by
  cases hfirst with
  | ok hresults => exact hnext hresults
  | error hhalts => exact .error hhalts

theorem Resolved.map {term : Except Defect α} {other : Except Defect β} {make : α → α'}
    {otherMake : β → β'} (hterm : accord.Resolved results term other)
    (hmake : ∀ {result otherResult}, results result otherResult →
      results' (make result) (otherMake otherResult)) :
    accord.Resolved results' (term.map make) (other.map otherMake) := by
  cases hterm with
  | ok hresults => exact .ok (hmake hresults)
  | error hhalts => exact .error hhalts

/-- What is equal goes together, if every defect counts as the same as itself. -/
theorem Resolved.of_eq (hdefect : ∀ defect, accord.halts (.defect defect) (.defect defect))
    {results : α → α → Prop} (hrefl : ∀ result, results result result)
    (resolved : Except Defect α) : accord.Resolved results resolved resolved := by
  cases resolved with
  | ok result => exact .ok (hrefl result)
  | error defect => exact .error (hdefect defect)

/-- The values of a name go together if its bindings do. -/
theorem Resolved.lookupValue (hdefect : ∀ defect, accord.halts (.defect defect) (.defect defect))
    {scope otherScope : Scope} {looked : String}
    (hlookup : accord.Resolved accord.Bindings (scope.lookup looked) (otherScope.lookup looked)) :
    accord.Resolved accord.contents (scope.lookupValue looked)
      (otherScope.lookupValue looked) := by
  rw [Term.lookupValue_eq, Term.lookupValue_eq]
  refine .bind hlookup fun hbinding => ?_
  cases hbinding with
  | value hcontents => exact .ok hcontents
  | rule _ => exact .error (hdefect _)

namespace InStep

theorem succeed {result : α} {other : β} (hresults : results result other) :
    accord.InStep results (Attempt.succeed result) (Attempt.succeed other) :=
  fun _ _ hinputs => .matched hresults hinputs

theorem miss : accord.InStep results Attempt.miss Attempt.miss :=
  fun _ _ hinputs => .missed hinputs

theorem halt {reason other : Halt} (hhalts : accord.halts reason other) :
    accord.InStep results (Attempt.halt reason) (Attempt.halt other) :=
  fun _ _ hinputs => .halted hhalts hinputs

theorem excused {reason : Halt} (hexcused : accord.excuses reason) (other : Attempt ρ β) :
    accord.InStep results (Attempt.halt reason) other :=
  fun _ _ _ => .excused hexcused

theorem pardoned {reason : Halt} (attempt : Attempt π α) (hpardoned : accord.pardons reason) :
    accord.InStep results attempt (Attempt.halt reason) :=
  fun _ _ _ => .pardoned hpardoned

theorem read {step : Input π → α × Input π} {otherStep : Input ρ → β × Input ρ}
    (hstep : ∀ {input otherInput}, accord.inputs input otherInput →
      results (step input).1 (otherStep otherInput).1 ∧
        accord.inputs (step input).2 (otherStep otherInput).2) :
    accord.InStep results (Attempt.read step) (Attempt.read otherStep) := by
  intro input otherInput hinputs
  obtain ⟨hresults, hafter⟩ := hstep hinputs
  exact .matched hresults hafter

theorem resolved {term : Except Defect α} {other : Except Defect β}
    (hresolved : accord.Resolved results term other) :
    accord.InStep results (Attempt.resolved term) (Attempt.resolved other) := by
  cases hresolved with
  | ok hresults => exact .succeed hresults
  | error hhalts => exact .halt hhalts

theorem branch {attempt : Attempt π α} {other : Attempt ρ β} {matched : α → Attempt π α'}
    {otherMatched : β → Attempt ρ β'} {missed : Attempt π α'} {otherMissed : Attempt ρ β'}
    (hattempt : accord.InStep results attempt other)
    (hmatched : ∀ {result otherResult}, results result otherResult →
      accord.InStep results' (matched result) (otherMatched otherResult))
    (hmissed : accord.InStep results' missed otherMissed) :
    accord.InStep results' (attempt.branch matched missed)
      (other.branch otherMatched otherMissed) := by
  intro input otherInput hinputs
  have hends := hattempt hinputs
  unfold Attempt.branch
  generalize attempt input = ending at hends ⊢
  generalize other otherInput = otherEnding at hends ⊢
  cases hends with
  | matched hresults hafter => exact hmatched hresults hafter
  | missed hafter => exact hmissed hafter
  | halted hhalts hafter => exact .halted hhalts hafter
  | excused hexcused => exact .excused hexcused
  | pardoned hpardoned => exact .pardoned hpardoned

theorem bind {first : Attempt π α} {other : Attempt ρ β} {next : α → Attempt π α'}
    {otherNext : β → Attempt ρ β'} (hfirst : accord.InStep results first other)
    (hnext : ∀ {result otherResult}, results result otherResult →
      accord.InStep results' (next result) (otherNext otherResult)) :
    accord.InStep results' (first >>= next) (other >>= otherNext) := by
  rw [Attempt.bind_eq_andThen, Attempt.bind_eq_andThen, Attempt.andThen_eq_branch,
    Attempt.andThen_eq_branch]
  exact hfirst.branch hnext .miss

theorem orElse {first second : Attempt π α} {other otherSecond : Attempt ρ β}
    (hfirst : accord.InStep results first other)
    (hsecond : accord.InStep results second otherSecond) :
    accord.InStep results (first.orElse second) (other.orElse otherSecond) := by
  rw [Attempt.orElse_eq_branch, Attempt.orElse_eq_branch]
  exact hfirst.branch .succeed hsecond

theorem absent {attempt : Attempt π α} {other : Attempt ρ β}
    (hattempt : accord.InStep results attempt other) :
    accord.InStep Eq attempt.absent other.absent := by
  rw [Attempt.absent_eq_branch, Attempt.absent_eq_branch]
  exact hattempt.branch (fun _ => .miss) (.succeed rfl)

end InStep

/-- Two tokens correspond as values and in where they end. -/
structure Tokens (accord : Accord π ρ) (token other : Token) : Prop where
  values : accord.values (.token token) (.token other)
  stops : accord.places token.stop other.stop

/-- Two successes correspond in value, position and scope. -/
structure Successes (accord : Accord π ρ) (success other : Match) : Prop where
  values : accord.values success.value other.value
  places : accord.places success.position other.position
  scopes : accord.scopes success.scope other.scope

/-- Two rows of values, each with the position and the scope after it. -/
structure Rows (accord : Accord π ρ) (row other : List Value × Position × Scope) : Prop where
  values : List.Forall₂ accord.values row.1 other.1
  places : accord.places row.2.1 other.2.1
  scopes : accord.scopes row.2.2 other.2.2

/-- Two repetitions under way. -/
structure Tallies (accord : Accord π ρ) (tally other : Match.Tally) : Prop where
  parts : List.Forall₂ accord.values tally.parts.toList other.parts.toList
  separators : List.Forall₂ accord.values tally.separators.toList other.separators.toList
  places : accord.places tally.position other.position
  scopes : accord.scopes tally.scope other.scope

/-- Two frames that bind the same names in the same order. -/
def Frames (accord : Accord π ρ) : Frame → Frame → Prop :=
  List.Forall₂ fun entry other => entry.1 = other.1 ∧ accord.Bindings entry.2 other.2

/-- What corresponding frames bind to a name corresponds. -/
theorem Frames.find? {frame other : Frame} (hframes : accord.Frames frame other)
    (name : String) :
    Option.Rel accord.Bindings (Frame.find? name frame) (Frame.find? name other) := by
  induction hframes with
  | nil => exact .none
  | @cons entry otherEntry rest otherRest hentry _ ih =>
      obtain ⟨key, binding⟩ := entry
      obtain ⟨otherKey, otherBinding⟩ := otherEntry
      obtain ⟨hkey, hbinding⟩ := hentry
      dsimp only at hkey hbinding
      subst hkey
      rw [Frame.find?, Frame.find?]
      generalize Frame.find? name rest = later at ih ⊢
      generalize Frame.find? name otherRest = otherLater at ih ⊢
      cases ih with
      | some hlater => exact .some hlater
      | none =>
          dsimp only
          split
          · exact .some hbinding
          · exact .none

/-- Two forms of one kind whose patterns, terms and messages correspond. -/
inductive Forms (accord : Accord π ρ) : Form → Form → Prop
  | literal {term other} (hterms : accord.terms term other) :
      Forms accord (.literal term) (.literal other)
  | charClass (members excluded) :
      Forms accord (.charClass members excluded) (.charClass members excluded)
  | choice {options others} (hoptions : List.Forall₂ accord.patterns options others) :
      Forms accord (.choice options) (.choice others)
  | sequence {parts others} (hparts : List.Forall₂ accord.patterns parts others) (picks) :
      Forms accord (.sequence parts picks) (.sequence others picks)
  | repetition {part otherPart least otherLeast most otherMost separator otherSeparator}
      (hpart : accord.patterns part otherPart) (hleast : accord.terms least otherLeast)
      (hmost : Option.Rel accord.terms most otherMost)
      (hseparator : Option.Rel accord.patterns separator otherSeparator) (keepSeparators) :
      Forms accord (.repetition part least most separator keepSeparators)
        (.repetition otherPart otherLeast otherMost otherSeparator keepSeparators)
  | absence {inner other} (hinner : accord.patterns inner other) (width) :
      Forms accord (.absence inner width) (.absence other width)
  | demand {inner other message otherMessage} (hinner : accord.patterns inner other)
      (hmessages : accord.messages message otherMessage) :
      Forms accord (.demand inner message) (.demand other otherMessage)
  | capture {inner other} (hinner : accord.patterns inner other) (name) :
      Forms accord (.capture inner name) (.capture other name)
  | overlay {inner other bindings otherBindings} (hinner : accord.patterns inner other)
      (hbindings : List.Forall₂ (fun entry other => entry.1 = other.1 ∧
        accord.targets entry.2 other.2) bindings otherBindings) :
      Forms accord (.overlay inner bindings) (.overlay other otherBindings)
  | reference {target other} (htargets : accord.targets target other) :
      Forms accord (.reference target) (.reference other)
  | finish : Forms accord .finish .finish

/-- Two matchers that are in accord on patterns, scopes and positions that correspond. -/
def Matchers (accord : Accord π ρ) (matcher : Matcher π) (other : Matcher ρ) : Prop :=
  ∀ ⦃pattern otherPattern scope otherScope place otherPlace⦄,
    accord.patterns pattern otherPattern → accord.scopes scope otherScope →
      accord.places place otherPlace →
        accord.InStep accord.Successes (matcher pattern scope place)
          (other otherPattern otherScope otherPlace)

section Laws

variable [Producer π] [Producer ρ]

/-- The laws about reading, and about what is built from what was read. -/
structure Reads (accord : Accord π ρ) : Prop where
  charAt : ∀ {place other input otherInput}, accord.places place other →
    accord.inputs input otherInput → ∀ ahead,
      (input.charAt (place.offset + ahead)).1 = (otherInput.charAt (other.offset + ahead)).1 ∧
        accord.inputs (input.charAt (place.offset + ahead)).2
          (otherInput.charAt (other.offset + ahead)).2
  capture : ∀ {place other input otherInput}, accord.places place other →
    accord.inputs input otherInput → ∀ count,
      accord.Tokens (Token.capture place count input).1
          (Token.capture other count otherInput).1 ∧
        accord.inputs (Token.capture place count input).2
          (Token.capture other count otherInput).2
  samePlace : ∀ {place other later otherLater}, accord.places place other →
    accord.places later otherLater → later.samePlace place = otherLater.samePlace other
  overflow : ∀ {place other}, accord.places place other → ∀ width,
    (accord.halts .overflow .overflow ∧
      (offsetBound ≤ place.offset + width ↔ offsetBound ≤ other.offset + width)) ∨
    (accord.excuses .overflow ∧ accord.pardons .overflow)
  empty : accord.values .empty .empty
  endMark : accord.values .endMark .endMark
  list : ∀ {members others}, List.Forall₂ accord.values members others →
    accord.values (.list members) (.list others)

/-- The laws about scopes, terms, messages and steps. -/
structure Scopes (accord : Accord π ρ) : Prop where
  value : ∀ {term other scope otherScope}, accord.terms term other →
    accord.scopes scope otherScope →
      accord.Resolved accord.contents (term.value scope) (other.value otherScope)
  resolve : ∀ {term other scope otherScope}, accord.targets term other →
    accord.scopes scope otherScope →
      accord.Resolved accord.Bindings (term.resolve scope) (other.resolve otherScope)
  asText : ∀ {content other}, accord.contents content other →
    content.asText? = other.asText?
  asInt : ∀ {content other}, accord.contents content other → content.asInt? = other.asInt?
  notText : ∀ {term otherTerm content other}, accord.terms term otherTerm →
    accord.contents content other →
      accord.halts (.defect (.notText term.display content.kind))
        (.defect (.notText otherTerm.display other.kind))
  notParsable : ∀ {term otherTerm content other}, accord.targets term otherTerm →
    accord.contents content other →
      accord.halts (.defect (.notParsable term.display content.kind))
        (.defect (.notParsable otherTerm.display other.kind))
  invalidBound : ∀ {content other}, accord.contents content other →
    accord.halts (.defect (.invalidBound content)) (.defect (.invalidBound other))
  bind : ∀ {scope otherScope value other}, accord.scopes scope otherScope →
    accord.values value other → ∀ name,
      accord.scopes (scope.bind name (.value value)) (otherScope.bind name (.value other))
  push : ∀ {scope otherScope frame other}, accord.scopes scope otherScope →
    accord.Frames frame other → accord.scopes (scope.push frame) (otherScope.push other)
  complain : ∀ {message otherMessage scope otherScope place otherPlace},
    accord.messages message otherMessage → accord.scopes scope otherScope →
      accord.places place otherPlace →
        accord.InStep accord.Successes (Match.complain message scope place)
          (Match.complain otherMessage otherScope otherPlace)
  defect : ∀ defect, accord.halts (.defect defect) (.defect defect)
  exhausted : accord.halts .exhausted .exhausted
  steps_pred : ∀ {granted other}, accord.steps (granted + 1) (other + 1) →
    accord.steps granted other
  excuses_of_steps : ∀ {other}, accord.steps 0 (other + 1) → accord.excuses .exhausted
  pardons_of_steps : ∀ {granted}, accord.steps (granted + 1) 0 → accord.pardons .exhausted

/-- Sides that read one input at one position have the laws about reading. -/
theorem reads_of_eq {accord : Accord π π} (hinputs : accord.inputs = Eq)
    (hplaces : accord.places = Eq) (hvalues : accord.values = Eq)
    (hoverflow : accord.halts .overflow .overflow) : accord.Reads where
  charAt := by
    intro place other input otherInput hplace hinput ahead
    rw [hplaces] at hplace
    rw [hinputs] at hinput ⊢
    subst hplace hinput
    exact ⟨rfl, rfl⟩
  capture := by
    intro place other input otherInput hplace hinput count
    rw [hplaces] at hplace
    rw [hinputs] at hinput ⊢
    subst hplace hinput
    exact ⟨⟨hvalues ▸ rfl, hplaces ▸ rfl⟩, rfl⟩
  samePlace := by
    intro place other later otherLater hplace hlater
    rw [hplaces] at hplace hlater
    rw [hplace, hlater]
  overflow := by
    intro place other hplace width
    rw [hplaces] at hplace
    rw [hplace]
    exact .inl ⟨hoverflow, Iff.rfl⟩
  empty := by rw [hvalues]
  endMark := by rw [hvalues]
  list := by
    intro members others hmembers
    rw [hvalues] at hmembers ⊢
    rw [List.forall₂_eq_eq_eq] at hmembers
    rw [hmembers]

variable {accord : Accord π ρ} {scope otherScope : Scope} {place otherPlace : Position}

theorem Reads.startsWith (hreads : accord.Reads) {input : Input π} {otherInput : Input ρ}
    (hplaces : accord.places place otherPlace) (hinputs : accord.inputs input otherInput)
    (expected : List Char) (ahead : Nat) :
    (Input.startsWith (place.offset + ahead) expected input).1 =
        (Input.startsWith (otherPlace.offset + ahead) expected otherInput).1 ∧
      accord.inputs (Input.startsWith (place.offset + ahead) expected input).2
        (Input.startsWith (otherPlace.offset + ahead) expected otherInput).2 := by
  induction expected generalizing ahead input otherInput with
  | nil => exact ⟨rfl, hinputs⟩
  | cons first rest ih =>
      obtain ⟨hfound, hafter⟩ := hreads.charAt hplaces hinputs ahead
      rw [Input.startsWith, Input.startsWith]
      generalize input.charAt (place.offset + ahead) = answer at hfound hafter ⊢
      generalize otherInput.charAt (otherPlace.offset + ahead) = otherAnswer at hfound hafter ⊢
      obtain ⟨found, next⟩ := answer
      obtain ⟨otherFound, otherNext⟩ := otherAnswer
      cases hfound
      cases found with
      | none => exact ⟨rfl, hafter⟩
      | some c =>
          dsimp only
          by_cases hsame : c = first
          · rw [if_pos hsame, if_pos hsame]
            exact ih hafter (ahead + 1)
          · rw [if_neg hsame, if_neg hsame]
            exact ⟨rfl, hafter⟩

theorem inStep_captureToken (hreads : accord.Reads) (hscopes : accord.scopes scope otherScope)
    (hplaces : accord.places place otherPlace) (count : Nat) :
    accord.InStep accord.Successes (Match.captureToken count scope place)
      (Match.captureToken count otherScope otherPlace) := by
  have hcapture : accord.InStep accord.Tokens (Attempt.read (Token.capture place count))
      (Attempt.read (Token.capture otherPlace count)) :=
    .read fun hinputs => hreads.capture hplaces hinputs count
  exact .bind hcapture fun htokens => .succeed ⟨htokens.values, htokens.stops, hscopes⟩

theorem inStep_text (hreads : accord.Reads) (hscopes : accord.scopes scope otherScope)
    (hplaces : accord.places place otherPlace) (expected : String) :
    accord.InStep accord.Successes (Match.text expected scope place)
      (Match.text expected otherScope otherPlace) := by
  refine .bind (.read fun hinputs => hreads.startsWith hplaces hinputs expected.toList 0) ?_
  rintro found _ rfl
  cases found with
  | true => exact inStep_captureToken hreads hscopes hplaces expected.length
  | false => exact .miss

theorem inStep_oneChar (hreads : accord.Reads) (hscopes : accord.scopes scope otherScope)
    (hplaces : accord.places place otherPlace) (members : List Char) (excluded : Bool) :
    accord.InStep accord.Successes (Match.oneChar members excluded scope place)
      (Match.oneChar members excluded otherScope otherPlace) := by
  refine .bind (.read fun hinputs => hreads.charAt hplaces hinputs 0) ?_
  rintro found _ rfl
  cases found with
  | none => exact .miss
  | some c =>
      dsimp only
      split
      · exact inStep_captureToken hreads hscopes hplaces 1
      · exact .miss

theorem inStep_finish (hreads : accord.Reads) (hscopes : accord.scopes scope otherScope)
    (hplaces : accord.places place otherPlace) :
    accord.InStep accord.Successes (Match.finish scope place)
      (Match.finish otherScope otherPlace) := by
  have hread : accord.InStep Eq (Attempt.read (Input.isEnd place.offset))
      (Attempt.read (Input.isEnd otherPlace.offset)) := by
    refine .read fun hinputs => ?_
    obtain ⟨hfound, hafter⟩ := hreads.charAt hplaces hinputs 0
    exact ⟨congrArg Option.isNone hfound, hafter⟩
  refine .bind hread ?_
  rintro atEnd _ rfl
  cases atEnd with
  | true => exact .succeed ⟨hreads.endMark, hplaces, hscopes⟩
  | false => exact .miss

theorem inStep_wide (hreads : accord.Reads) (hscopes : accord.scopes scope otherScope)
    (hplaces : accord.places place otherPlace) (width : Nat) :
    accord.InStep accord.Successes (Match.wide width scope place)
      (Match.wide width otherScope otherPlace) := by
  unfold Match.wide
  by_cases hnone : width = 0
  · rw [if_pos hnone, if_pos hnone]
    exact inStep_captureToken hreads hscopes hplaces width
  have hahead : ∀ offset, offset + width - 1 = offset + (width - 1) := by omega
  have hinside : accord.InStep accord.Successes
      (Attempt.read (Input.has (place.offset + width - 1)) >>= fun there =>
        if there then Match.captureToken width scope place else Attempt.miss)
      (Attempt.read (Input.has (otherPlace.offset + width - 1)) >>= fun there =>
        if there then Match.captureToken width otherScope otherPlace else Attempt.miss) := by
    rw [hahead, hahead]
    have hread : accord.InStep Eq (Attempt.read (Input.has (place.offset + (width - 1))))
        (Attempt.read (Input.has (otherPlace.offset + (width - 1)))) := by
      refine .read fun hinputs => ?_
      obtain ⟨hfound, hafter⟩ := hreads.charAt hplaces hinputs (width - 1)
      exact ⟨congrArg Option.isSome hfound, hafter⟩
    refine .bind hread ?_
    rintro there _ rfl
    cases there with
    | true => exact inStep_captureToken hreads hscopes hplaces width
    | false => exact .miss
  rw [if_neg hnone, if_neg hnone]
  rcases hreads.overflow hplaces width with ⟨hhalts, hbound⟩ | ⟨hexcused, hpardoned⟩
  · by_cases hover : offsetBound ≤ place.offset + width
    · rw [if_pos hover, if_pos (hbound.mp hover)]
      exact .halt hhalts
    · rw [if_neg hover, if_neg (mt hbound.mpr hover)]
      exact hinside
  · split
    · exact .excused hexcused _
    · split
      · exact .pardoned _ hpardoned
      · exact hinside

variable {matcher : Matcher π} {other : Matcher ρ}

omit [Producer π] [Producer ρ] in
theorem inStep_allOf (hmatchers : accord.Matchers matcher other)
    {parts others : List Pattern} (hparts : List.Forall₂ accord.patterns parts others)
    (hscopes : accord.scopes scope otherScope) (hplaces : accord.places place otherPlace) :
    accord.InStep accord.Rows (Match.allOf matcher parts scope place)
      (Match.allOf other others otherScope otherPlace) := by
  induction hparts generalizing scope otherScope place otherPlace with
  | nil => exact .succeed ⟨.nil, hplaces, hscopes⟩
  | cons hpart _ ih =>
      refine .bind (hmatchers hpart hscopes hplaces) fun hfirst => ?_
      refine .bind (ih hfirst.scopes hfirst.places) fun hrows => ?_
      exact .succeed ⟨.cons hfirst.values hrows.values, hrows.places, hrows.scopes⟩

omit [Producer π] [Producer ρ] in
theorem inStep_firstOf (hmatchers : accord.Matchers matcher other)
    {options others : List Pattern} (hoptions : List.Forall₂ accord.patterns options others)
    (hscopes : accord.scopes scope otherScope) (hplaces : accord.places place otherPlace) :
    accord.InStep accord.Successes (Match.firstOf matcher options scope place)
      (Match.firstOf other others otherScope otherPlace) := by
  induction hoptions with
  | nil => exact .miss
  | cons hoption _ ih => exact .orElse (hmatchers hoption hscopes hplaces) ih

/-- The value at an index of a row, or the empty value where the row has ended. -/
theorem Reads.getD (hreads : accord.Reads) {values others : List Value}
    (hvalues : List.Forall₂ accord.values values others) (index : Nat) :
    accord.values (values[index]?.getD .empty) (others[index]?.getD .empty) := by
  induction hvalues generalizing index with
  | nil => exact hreads.empty
  | cons hfirst _ ih =>
      cases index with
      | zero => exact hfirst
      | succ index => exact ih index

theorem resolved_pickValues (hreads : accord.Reads) (hscoped : accord.Scopes)
    {values others : List Value} (hvalues : List.Forall₂ accord.values values others)
    (picks : Option (List Nat)) :
    accord.Resolved accord.values (Match.pickValues values picks)
      (Match.pickValues others picks) := by
  cases picks with
  | none => exact .ok (hreads.list hvalues)
  | some indexes =>
      have hpicked : accord.values
          (.list (indexes.map fun index => values[index]?.getD .empty))
          (.list (indexes.map fun index => others[index]?.getD .empty)) := by
        refine hreads.list ?_
        rw [List.forall₂_map_left_iff, List.forall₂_map_right_iff, List.forall₂_same]
        exact fun index _ => hreads.getD hvalues index
      unfold Match.pickValues
      dsimp only
      rw [hvalues.length_eq]
      split
      · exact .error (hscoped.defect _)
      · rcases indexes with _ | ⟨index, _ | ⟨second, rest⟩⟩
        · exact .ok hpicked
        · exact .ok (hreads.getD hvalues index)
        · exact .ok hpicked

omit [Producer π] [Producer ρ] in
theorem inStep_beforePart (hmatchers : accord.Matchers matcher other)
    {separator otherSeparator : Option Pattern}
    (hseparator : Option.Rel accord.patterns separator otherSeparator)
    {tally otherTally : Match.Tally} (htallies : accord.Tallies tally otherTally) :
    accord.InStep accord.Tallies (Match.beforePart matcher separator tally)
      (Match.beforePart other otherSeparator otherTally) := by
  cases hseparator with
  | none => exact .succeed htallies
  | some hbetween =>
      have hempty : tally.parts.isEmpty = otherTally.parts.isEmpty := by
        have hsize := htallies.parts.length_eq
        simp only [Array.length_toList] at hsize
        rw [Array.isEmpty, Array.isEmpty, hsize]
      unfold Match.beforePart
      dsimp only
      rw [hempty]
      split
      · exact .succeed htallies
      · refine .bind (hmatchers hbetween htallies.scopes htallies.places) fun hmatched => ?_
        refine .succeed ⟨htallies.parts, ?_, hmatched.places, hmatched.scopes⟩
        simp only [Array.toList_push]
        exact List.rel_append htallies.separators (.cons hmatched.values .nil)

omit [Producer π] [Producer ρ] in
theorem inStep_round (hmatchers : accord.Matchers matcher other) {part otherPart : Pattern}
    (hpart : accord.patterns part otherPart) {separator otherSeparator : Option Pattern}
    (hseparator : Option.Rel accord.patterns separator otherSeparator)
    {tally otherTally : Match.Tally} (htallies : accord.Tallies tally otherTally) :
    accord.InStep accord.Tallies (Match.round matcher part separator tally)
      (Match.round other otherPart otherSeparator otherTally) := by
  refine .bind (inStep_beforePart hmatchers hseparator htallies) fun hready => ?_
  refine .bind (hmatchers hpart hready.scopes hready.places) fun hmatched => ?_
  refine .succeed ⟨?_, hready.separators, hmatched.places, hmatched.scopes⟩
  simp only [Array.toList_push]
  exact List.rel_append hready.parts (.cons hmatched.values .nil)

omit [Producer π] [Producer ρ] in
theorem Tallies.size_eq {tally otherTally : Match.Tally}
    (htallies : accord.Tallies tally otherTally) :
    tally.parts.size = otherTally.parts.size := by
  simpa only [Array.length_toList] using htallies.parts.length_eq

/-- By induction on the steps of the first side. The two sides may run out of steps at
different times only where the accord excuses it. -/
theorem inStep_rounds (hreads : accord.Reads) (hscoped : accord.Scopes)
    (hmatchers : accord.Matchers matcher other) {part otherPart : Pattern}
    (hpart : accord.patterns part otherPart) {separator otherSeparator : Option Pattern}
    (hseparator : Option.Rel accord.patterns separator otherSeparator) (most : Option Nat)
    {granted otherGranted : Nat} (hsteps : accord.steps granted otherGranted)
    {tally otherTally : Match.Tally} (htallies : accord.Tallies tally otherTally) :
    accord.InStep accord.Tallies (Match.rounds matcher part separator most granted tally)
      (Match.rounds other otherPart otherSeparator most otherGranted otherTally) := by
  induction granted generalizing otherGranted tally otherTally with
  | zero =>
      cases otherGranted with
      | zero => exact .halt hscoped.exhausted
      | succ otherGranted => exact .excused (hscoped.excuses_of_steps hsteps) _
  | succ granted ih =>
      cases otherGranted with
      | zero => exact .pardoned _ (hscoped.pardons_of_steps hsteps)
      | succ otherGranted =>
          have hfull : tally.isFull most = otherTally.isFull most := by
            cases most with
            | none => rfl
            | some most => rw [Match.Tally.isFull, Match.Tally.isFull, htallies.size_eq]
          rw [Match.rounds_eq_branch, Match.rounds_eq_branch, hfull]
          split
          · exact .succeed htallies
          · refine .branch (inStep_round hmatchers hpart hseparator htallies) ?_
              (.succeed htallies)
            intro later otherLater hlater
            rw [hreads.samePlace htallies.places hlater.places]
            by_cases hsame : otherLater.position.samePlace otherTally.position = true
            · simp only [hsame, if_true]
              exact .succeed hlater
            · simp only [hsame]
              exact ih (hscoped.steps_pred hsteps) hlater

theorem Scopes.resolved_textOf (hscoped : accord.Scopes) {term otherTerm : Term}
    (hterms : accord.terms term otherTerm) (hscopes : accord.scopes scope otherScope) :
    accord.Resolved Eq (term.textOf scope) (otherTerm.textOf otherScope) := by
  rw [Term.textOf_eq, Term.textOf_eq]
  refine .bind (hscoped.value hterms hscopes) fun hcontents => ?_
  rw [hscoped.asText hcontents]
  split
  · exact .ok rfl
  · exact .error (hscoped.notText hterms hcontents)

theorem Scopes.resolved_count (hscoped : accord.Scopes) {term otherTerm : Term}
    (hterms : accord.terms term otherTerm) (hscopes : accord.scopes scope otherScope) :
    accord.Resolved Eq (term.count scope) (otherTerm.count otherScope) := by
  rw [Term.count_eq, Term.count_eq]
  refine .bind (hscoped.value hterms hscopes) fun hcontents => ?_
  rw [hscoped.asInt hcontents]
  split
  · split
    · exact .ok rfl
    · exact .error (hscoped.invalidBound hcontents)
  · exact .error (hscoped.invalidBound hcontents)

theorem resolved_resolveBounds (hscoped : accord.Scopes) {least otherLeast : Term}
    (hleast : accord.terms least otherLeast) {most otherMost : Option Term}
    (hmost : Option.Rel accord.terms most otherMost)
    (hscopes : accord.scopes scope otherScope) :
    accord.Resolved Eq (Match.resolveBounds scope least most)
      (Match.resolveBounds otherScope otherLeast otherMost) := by
  have hlow := hscoped.resolved_count hleast hscopes
  unfold Match.resolveBounds
  generalize least.count scope = low at hlow ⊢
  generalize otherLeast.count otherScope = otherLow at hlow ⊢
  cases hlow with
  | error hhalts => exact .error hhalts
  | ok hlow =>
      subst hlow
      cases hmost with
      | none => exact .ok rfl
      | @some upper otherUpper hupper =>
          have hhigh := hscoped.resolved_count hupper hscopes
          dsimp only
          generalize upper.count scope = high at hhigh ⊢
          generalize otherUpper.count otherScope = otherHigh at hhigh ⊢
          cases hhigh with
          | error hhalts => exact .error hhalts
          | ok hhigh =>
              subst hhigh
              dsimp only
              split
              · exact .error (hscoped.defect _)
              · exact .ok rfl

theorem Reads.tallyValue (hreads : accord.Reads) {tally otherTally : Match.Tally}
    (htallies : accord.Tallies tally otherTally) (keepSeparators : Bool) :
    accord.values (tally.value keepSeparators) (otherTally.value keepSeparators) := by
  cases keepSeparators with
  | false => exact hreads.list htallies.parts
  | true =>
      exact hreads.list (.cons (hreads.list htallies.parts)
        (.cons (hreads.list htallies.separators) .nil))

theorem inStep_repetition (hreads : accord.Reads) (hscoped : accord.Scopes)
    (hmatchers : accord.Matchers matcher other) {part otherPart : Pattern}
    (hpart : accord.patterns part otherPart) {separator otherSeparator : Option Pattern}
    (hseparator : Option.Rel accord.patterns separator otherSeparator)
    {granted otherGranted : Nat} (hsteps : accord.steps granted otherGranted)
    (keepSeparators : Bool) (least : Nat) (most : Option Nat)
    (hscopes : accord.scopes scope otherScope) (hplaces : accord.places place otherPlace) :
    accord.InStep accord.Successes
      (Match.repetition matcher granted part separator keepSeparators least most scope place)
      (Match.repetition other otherGranted otherPart otherSeparator keepSeparators least most
        otherScope otherPlace) := by
  have hstart : accord.Tallies ⟨#[], #[], place, scope⟩ ⟨#[], #[], otherPlace, otherScope⟩ :=
    ⟨.nil, .nil, hplaces, hscopes⟩
  refine .bind (inStep_rounds hreads hscoped hmatchers hpart hseparator most hsteps hstart) ?_
  intro tally otherTally htallies
  rw [htallies.size_eq]
  split
  · exact .miss
  · exact .succeed ⟨hreads.tallyValue htallies keepSeparators, htallies.places, htallies.scopes⟩

theorem resolved_resolveAll (hscoped : accord.Scopes)
    {bindings otherBindings : List (String × Term)}
    (hbindings : List.Forall₂ (fun entry other => entry.1 = other.1 ∧
      accord.targets entry.2 other.2) bindings otherBindings)
    (hscopes : accord.scopes scope otherScope) :
    accord.Resolved accord.Frames (scope.resolveAll bindings)
      (otherScope.resolveAll otherBindings) := by
  induction hbindings with
  | nil => exact .ok .nil
  | @cons entry otherEntry _ _ hentry _ ih =>
      obtain ⟨name, term⟩ := entry
      obtain ⟨otherName, otherTerm⟩ := otherEntry
      obtain ⟨hname, hterm⟩ := hentry
      have hresolved := hscoped.resolve hterm hscopes
      dsimp only at hname hterm hresolved
      subst hname
      rw [Scope.resolveAll, Scope.resolveAll]
      generalize term.resolve scope = binding at hresolved ⊢
      generalize otherTerm.resolve otherScope = otherBinding at hresolved ⊢
      cases hresolved with
      | error hhalts => exact .error hhalts
      | ok hbinding =>
          dsimp only
          generalize scope.resolveAll _ = frame at ih ⊢
          generalize otherScope.resolveAll _ = otherFrame at ih ⊢
          cases ih with
          | error hhalts => exact .error hhalts
          | ok hframe => exact .ok (.cons ⟨rfl, hbinding⟩ hframe)

omit [Producer π] [Producer ρ] in
theorem inStep_keepScope {attempt : Attempt π Match} {otherAttempt : Attempt ρ Match}
    (hattempt : accord.InStep accord.Successes attempt otherAttempt)
    (hscopes : accord.scopes scope otherScope) :
    accord.InStep accord.Successes (Match.keepScope scope attempt)
      (Match.keepScope otherScope otherAttempt) :=
  .bind hattempt fun hinner => .succeed ⟨hinner.values, hinner.places, hscopes⟩

theorem inStep_follow (hreads : accord.Reads) (hscoped : accord.Scopes)
    (hmatchers : accord.Matchers matcher other) {term otherTerm : Term}
    (htargets : accord.targets term otherTerm) {binding otherBinding : Binding}
    (hbinding : accord.Bindings binding otherBinding)
    (hscopes : accord.scopes scope otherScope) (hplaces : accord.places place otherPlace) :
    accord.InStep accord.Successes (Match.follow matcher term scope place binding)
      (Match.follow other otherTerm otherScope otherPlace otherBinding) := by
  cases hbinding with
  | rule hpattern => exact inStep_keepScope (hmatchers hpattern hscopes hplaces) hscopes
  | value hcontents =>
      rw [Match.follow, Match.follow, hscoped.asText hcontents]
      split
      · exact inStep_text hreads hscopes hplaces _
      · exact .halt (hscoped.notParsable htargets hcontents)

/-- One level of matching is in accord if the matchers below it are. -/
theorem inStep_form (hreads : accord.Reads) (hscoped : accord.Scopes)
    (hmatchers : accord.Matchers matcher other) {granted otherGranted : Nat}
    (hsteps : accord.steps granted otherGranted) {shape otherShape : Form}
    (hforms : accord.Forms shape otherShape) (hscopes : accord.scopes scope otherScope)
    (hplaces : accord.places place otherPlace) :
    accord.InStep accord.Successes (Match.form matcher granted shape scope place)
      (Match.form other otherGranted otherShape otherScope otherPlace) := by
  cases hforms with
  | literal hterms =>
      refine .bind (.resolved (hscoped.resolved_textOf hterms hscopes)) ?_
      rintro expected _ rfl
      exact inStep_text hreads hscopes hplaces expected
  | charClass members excluded => exact inStep_oneChar hreads hscopes hplaces members excluded
  | choice hoptions => exact inStep_firstOf hmatchers hoptions hscopes hplaces
  | sequence hparts picks =>
      refine .bind (inStep_allOf hmatchers hparts hscopes hplaces) fun hrows => ?_
      refine .bind (.resolved (resolved_pickValues hreads hscoped hrows.values picks))
        fun hvalue => ?_
      exact .succeed ⟨hvalue, hrows.places, hrows.scopes⟩
  | repetition hpart hleast hmost hseparator keepSeparators =>
      refine .bind (.resolved (resolved_resolveBounds hscoped hleast hmost hscopes)) ?_
      rintro ⟨low, high⟩ _ rfl
      exact inStep_repetition hreads hscoped hmatchers hpart hseparator hsteps keepSeparators
        low high hscopes hplaces
  | absence hinner width =>
      exact .bind (hmatchers hinner hscopes hplaces).absent fun _ =>
        inStep_wide hreads hscopes hplaces width
  | demand hinner hmessages =>
      exact .orElse (hmatchers hinner hscopes hplaces)
        (hscoped.complain hmessages hscopes hplaces)
  | capture hinner name =>
      exact .bind (hmatchers hinner hscopes hplaces) fun hmatched =>
        .succeed ⟨hmatched.values, hmatched.places,
          hscoped.bind hmatched.scopes hmatched.values name⟩
  | overlay hinner hbindings =>
      exact .bind (.resolved (resolved_resolveAll hscoped hbindings hscopes)) fun hframes =>
        inStep_keepScope (hmatchers hinner (hscoped.push hscopes hframes) hplaces) hscopes
  | reference htargets =>
      exact .bind (.resolved (hscoped.resolve htargets hscopes)) fun hbinding =>
        inStep_follow hreads hscoped hmatchers htargets hbinding hscopes hplaces
  | finish => exact inStep_finish hreads hscopes hplaces

/-- Whole matches are in accord, if corresponding patterns have corresponding forms and
factories, and the steps of both sides go together. -/
theorem matchers_run (hreads : accord.Reads) (hscoped : accord.Scopes)
    (hsteps : ∀ granted, accord.steps granted granted)
    (hforms : ∀ {pattern other}, accord.patterns pattern other →
      accord.Forms pattern.form other.form)
    (hfactories : ∀ {pattern other value otherValue}, accord.patterns pattern other →
      accord.values value otherValue →
        accord.values (pattern.finishValue value) (other.finishValue otherValue))
    (granted : Nat) : accord.Matchers (Pattern.run granted) (Pattern.run granted) := by
  induction granted with
  | zero => exact fun _ _ _ _ _ _ _ _ _ => InStep.halt hscoped.exhausted
  | succ granted ih =>
      intro pattern otherPattern scope otherScope place otherPlace hpattern hscopes hplaces
      refine .bind (inStep_form hreads hscoped ih (hsteps granted) (hforms hpattern) hscopes
        hplaces) fun hraw => ?_
      exact .succeed ⟨hfactories hpattern hraw.values, hraw.places, hraw.scopes⟩

end Laws

end Accord

end ScopedGrammar
