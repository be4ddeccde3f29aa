/-
# Contracts of patterns

A contract of a pattern has a condition on where it is matched and a promise about what it
yields: wherever the condition holds, a match has a value of some kind and leaves another
condition behind. A pattern that keeps its contract may miss, and it may halt to blame the
text, but it never halts because the grammar is at fault, as long as the offsets in the text
fit signed words.

Contracts follow the forms of patterns. Rules refer to one another, so their contracts are
proved together, by induction on the number of steps that are granted: a name keeps a
contract with some steps if the rule that it means keeps it with fewer.
-/

import ScopedGrammar.Proofs.Grammar.Parses
import ScopedGrammar.Proofs.Match.Promises
import ScopedGrammar.Proofs.Match.Repetition
import ScopedGrammar.Proofs.Scope.Counters
import Mathlib

namespace ScopedGrammar

variable {α β : Type} {text : String} {steps granted : Nat} {scope : Scope} {place : Position}

/-- Whether a halt blames the text or the steps that were granted, and not the grammar. -/
def Halt.sparesGrammar : Halt → Bool
  | .diagnostic _ => true
  | .exhausted => true
  | .defect _ => false
  | .overflow => false

/-- A halt spares the grammar, unless offsets and counts may have run out of words. -/
def Halt.Excused (text : String) (reason : Halt) : Prop :=
  text.length < 2 ^ 63 → reason.sparesGrammar = true

/-- A verdict keeps a promise: a result is as promised, and a halt is excused. -/
def Verdict.Keeps (text : String) (promise : α → Prop) : Verdict α → Prop
  | .matched result => promise result
  | .missed => True
  | .halted reason => reason.Excused text

/-- A resolution keeps a promise: a result is as promised, and a defect is excused. -/
def Defect.Keeps (text : String) (promise : α → Prop) : Except Defect α → Prop
  | .ok result => promise result
  | .error defect => (Halt.defect defect).Excused text

/-- Over a complete text, an attempt keeps a promise. -/
def Attempt.Keeps (text : String) (attempt : Attempt Silence α) (promise : α → Prop) : Prop :=
  ∃ verdict : Verdict α, attempt (Input.ofText text) = (verdict, Input.ofText text) ∧
    verdict.Keeps text promise

namespace Attempt.Keeps

variable {first : Attempt Silence α} {next : α → Attempt Silence β} {promise further : α → Prop}
  {last : β → Prop}

theorem succeed {result : α} (hresult : promise result) :
    Attempt.Keeps text (Attempt.succeed result) promise :=
  ⟨_, rfl, hresult⟩

theorem miss : Attempt.Keeps text Attempt.miss promise :=
  ⟨.missed, rfl, trivial⟩

theorem resolved {resolution : Except Defect α}
    (hresolution : Defect.Keeps text promise resolution) :
    (Attempt.resolved resolution).Keeps text promise := by
  cases resolution with
  | ok result => exact ⟨_, rfl, hresolution⟩
  | error defect => exact ⟨_, rfl, hresolution⟩

theorem read {step : Input Silence → α × Input Silence} (hstep : Growing step) :
    (Attempt.read step).Keeps text fun _ => True :=
  Attempt.Upholds.read hstep

theorem of_matched (hfirst : first.Keeps text promise)
    (hmatched : ∀ result, first (Input.ofText text) = (.matched result, Input.ofText text) →
      promise result → further result) : first.Keeps text further :=
  Attempt.Upholds.of_matched hfirst hmatched

theorem mono (hfirst : first.Keeps text promise)
    (hpromise : ∀ result, promise result → further result) : first.Keeps text further :=
  Attempt.Upholds.mono hfirst hpromise

theorem branch {matched : α → Attempt Silence β} {missed : Attempt Silence β}
    (hfirst : first.Keeps text promise)
    (hmatched : ∀ result, promise result → (matched result).Keeps text last)
    (hmissed : missed.Keeps text last) : (first.branch matched missed).Keeps text last :=
  Attempt.Upholds.branch hfirst hmatched hmissed

theorem bind (hfirst : first.Keeps text promise)
    (hnext : ∀ result, promise result → (next result).Keeps text last) :
    (first >>= next).Keeps text last :=
  Attempt.Upholds.bind hfirst hnext

theorem orElse {second : Attempt Silence α} (hfirst : first.Keeps text promise)
    (hsecond : second.Keeps text promise) : (first.orElse second).Keeps text promise :=
  Attempt.Upholds.orElse hfirst hsecond

theorem absent (hfirst : first.Keeps text promise) :
    first.absent.Keeps text fun _ => True :=
  Attempt.Upholds.absent hfirst

/-- What a derived match is promised to be holds of one that has not gone back and has not
left the text. -/
theorem settled {task : Task} {attempt : Attempt Silence Match} {promise : Match → Prop}
    (hderives : ∀ {success after}, attempt (Input.ofText text) = (.matched success, after) →
      Derives task ⟨scope, place, Input.ofText text⟩ [success.value]
        ⟨success.scope, success.position, after⟩)
    (hplace : place.offset ≤ text.length) (hkeeps : attempt.Keeps text promise) :
    attempt.Keeps text fun success => promise success ∧
      place.offset ≤ success.position.offset ∧ success.position.offset ≤ text.length := by
  refine hkeeps.of_matched fun success hmatched hkept => ?_
  obtain ⟨-, hleads, hlast⟩ := (hderives hmatched).settles rfl hplace
  exact ⟨hkept, hleads, hlast⟩

end Attempt.Keeps

namespace Match

theorem text_keeps (expected : String) (scope : Scope) (place : Position) :
    (Match.text expected scope place).Keeps text fun success =>
      success = ⟨.token ⟨expected, place, place.past expected.toList⟩,
        place.past expected.toList, scope⟩ := by
  have hending : Match.text expected scope place (Input.ofText text) = _ := text_eq rfl
  split at hending
  · exact ⟨_, hending, rfl⟩
  · exact ⟨_, hending, trivial⟩

theorem oneChar_keeps (members : List Char) (excluded : Bool) (scope : Scope)
    (place : Position) :
    (oneChar members excluded scope place).Keeps text fun success =>
      ∃ c, inClass members excluded c = true ∧
        success = ⟨.token ⟨String.ofList [c], place, place.step c⟩, place.step c, scope⟩ := by
  have hending : oneChar members excluded scope place (Input.ofText text) = _ := oneChar_eq rfl
  split at hending
  next c _ _ _ _ =>
    split at hending
    next hfits => exact ⟨_, hending, c, hfits, rfl⟩
    next => exact ⟨_, hending, trivial⟩
  next => exact ⟨_, hending, trivial⟩

theorem finish_keeps (scope : Scope) (place : Position) :
    (finish scope place).Keeps text fun success => success = ⟨.endMark, place, scope⟩ := by
  refine Attempt.Keeps.bind (.read (growing_isEnd place.offset)) fun atEnd _ => ?_
  cases atEnd with
  | true => exact .succeed rfl
  | false => exact .miss

/-- The next character is taken without fault where its offset fits a word. -/
theorem wide_keeps {width : Nat} (scope : Scope) (hplace : place.offset ≤ text.length)
    (hwidth : width ≤ 1) :
    (wide width scope place).Keeps text fun success => success.scope = scope := by
  have htoken : (captureToken width scope place).Keeps text fun success =>
      success.scope = scope :=
    .bind (.read (growing_capture place width)) fun _ _ => .succeed rfl
  unfold wide
  split
  · exact htoken
  split
  next hbound =>
    refine ⟨.halted .overflow, rfl, fun hfits => ?_⟩
    rw [offsetBound] at hbound
    omega
  next =>
    refine Attempt.Keeps.bind (.read (growing_has _)) fun there _ => ?_
    cases there with
    | true => exact htoken
    | false => exact .miss

/-- A demand that is not met blames the text. -/
theorem complain_keeps (message : Message) (scope : Scope) (place : Position)
    (promise : Match → Prop) : (complain message scope place).Keeps text promise :=
  .bind (.read (growing_renderPieces scope place message.pieces)) fun rendered _ =>
    .bind (.read (growing_raise .expected rendered place)) fun _ _ => ⟨_, rfl, fun _ => rfl⟩

end Match

/-- A condition on where matching stands. -/
abbrev Condition : Type :=
  Scope → Position → Prop

/-- A condition that holds of a scope further on if it holds once. -/
def Condition.Lasts (condition : Condition) : Prop :=
  ∀ scope place later, condition scope place → place.offset ≤ later.offset →
    condition scope later

/-- Where one condition holds, a form yields values of a kind and leaves another condition
behind, if so many steps at most are granted. -/
def Form.Keeps (text : String) (steps : Nat) (shape : Form) (before : Condition)
    (good : Value → Prop) (after : Condition) : Prop :=
  ∀ granted scope place, granted < steps → place.offset ≤ text.length → before scope place →
    (Match.form (Pattern.run granted) granted shape scope place).Keeps text fun success =>
      good success.value ∧ after success.scope success.position

/-- Where one condition holds, a pattern yields values of a kind and leaves another condition
behind, if so many steps at most are granted. -/
def Pattern.Keeps (text : String) (steps : Nat) (pattern : Pattern) (before : Condition)
    (good : Value → Prop) (after : Condition) : Prop :=
  ∀ granted scope place, granted < steps → place.offset ≤ text.length → before scope place →
    (pattern.run granted scope place).Keeps text fun success =>
      good success.value ∧ after success.scope success.position

/-- Where one condition holds, patterns in a row yield values of some kinds and leave another
condition behind, if so many steps at most are granted. -/
def RowKeeps (text : String) (steps : Nat) (parts : List Pattern) (before : Condition)
    (goods : List (Value → Prop)) (after : Condition) : Prop :=
  ∀ granted scope place, granted < steps → place.offset ≤ text.length → before scope place →
    (Match.allOf (Pattern.run granted) parts scope place).Keeps text fun row =>
      List.Forall₂ (fun good value => good value) goods row.1 ∧ after row.2.2 row.2.1

/-- Any value at all. -/
def Anything : Value → Prop :=
  fun _ => True

/-- A list of values of a kind. -/
def ListOf (good : Value → Prop) (value : Value) : Prop :=
  ∃ values, value = .list values ∧ ∀ member ∈ values, good member

/-- A list of one value of a kind, or of none. -/
def AtMostOne (good : Value → Prop) (value : Value) : Prop :=
  value = .list [] ∨ ∃ member, good member ∧ value = .list [member]

variable {pattern part : Pattern} {parts : List Pattern} {shape : Form}
  {before middle after inside : Condition} {good fine : Value → Prop}
  {goods : List (Value → Prop)} {name : String}

namespace Pattern.Keeps

/-- A contract is kept with one step more by the pattern than by its form. -/
theorem of_form_succ
    (hform : pattern.form.Keeps text steps before (fun raw => good (pattern.finishValue raw))
      after) : pattern.Keeps text (steps + 1) before good after := by
  intro granted scope place hgranted hplace hbefore
  cases granted with
  | zero => exact ⟨.halted .exhausted, rfl, fun _ => rfl⟩
  | succ granted =>
      exact .bind (hform _ _ _ (Nat.lt_of_succ_lt_succ hgranted) hplace hbefore) fun raw hraw =>
        .succeed hraw

theorem zero : pattern.Keeps text 0 before good after :=
  fun _ _ _ hnone => nomatch hnone

theorem anti {fewer : Nat} (hkeeps : pattern.Keeps text steps before good after)
    (hfewer : fewer ≤ steps) : pattern.Keeps text fewer before good after :=
  fun _ _ _ hgranted => hkeeps _ _ _ (Nat.lt_of_lt_of_le hgranted hfewer)

theorem of_form
    (hform : pattern.form.Keeps text steps before (fun raw => good (pattern.finishValue raw))
      after) : pattern.Keeps text steps before good after :=
  (of_form_succ hform).anti (Nat.le_succ steps)

/-- A contract is weakened by a stronger condition before and weaker promises. -/
theorem mono {earlier later : Condition} (hkeeps : pattern.Keeps text steps before good after)
    (hbefore : ∀ scope place, earlier scope place → before scope place)
    (hgood : ∀ value, good value → fine value)
    (hafter : ∀ scope place, after scope place → later scope place) :
    pattern.Keeps text steps earlier fine later :=
  fun _ _ _ hgranted hplace hearlier =>
    (hkeeps _ _ _ hgranted hplace (hbefore _ _ hearlier)).mono fun _ hkept =>
      ⟨hgood _ hkept.1, hafter _ _ hkept.2⟩

theorem weaken (hkeeps : pattern.Keeps text steps before good after)
    (hgood : ∀ value, good value → fine value) : pattern.Keeps text steps before fine after :=
  hkeeps.mono (fun _ _ => id) hgood fun _ _ => id

theorem labelled (hkeeps : pattern.Keeps text steps before good after) (label : String) :
    (pattern.labelled label).Keeps text steps before good after := by
  intro granted scope place hgranted
  cases granted with
  | zero => exact hkeeps 0 scope place hgranted
  | succ granted => exact hkeeps (granted + 1) scope place hgranted

/-- A function on the result makes values of another kind. -/
theorem map {make : Value → Value} (hkeeps : pattern.Keeps text steps before good after)
    (hmake : ∀ value, good value → fine (make value)) :
    (pattern.map make).Keeps text steps before fine after := by
  intro granted scope place hgranted hplace hbefore
  rw [Pattern.run_map]
  exact .bind (hkeeps _ _ _ hgranted hplace hbefore) fun success hkept =>
    .succeed ⟨hmake _ hkept.1, hkept.2⟩

/-- What is known of every match may be promised. -/
theorem of_matches (hkeeps : pattern.Keeps text steps before Anything after)
    (hmatches : ∀ scope place success, before scope place → place.offset ≤ text.length →
      pattern.Matches text scope place success → good success.value) :
    pattern.Keeps text steps before good after := by
  intro granted scope place hgranted hplace hbefore
  exact (hkeeps _ _ _ hgranted hplace hbefore).of_matched fun success hmatched hkept =>
    ⟨hmatches _ _ _ hbefore hplace ⟨rfl, granted, hmatched⟩, hkept.2⟩

/-- A run has not gone back and has not left the text. -/
theorem settled (hkeeps : pattern.Keeps text steps before good after) (hgranted : granted < steps)
    (hplace : place.offset ≤ text.length) (hbefore : before scope place) :
    (pattern.run granted scope place).Keeps text fun success =>
      (good success.value ∧ after success.scope success.position) ∧
        place.offset ≤ success.position.offset ∧ success.position.offset ≤ text.length :=
  (hkeeps _ _ _ hgranted hplace hbefore).settled (derives_of_run granted) hplace

end Pattern.Keeps

namespace RowKeeps

theorem nil : RowKeeps text steps [] before [] before :=
  fun _ _ _ _ _ hbefore => .succeed ⟨.nil, hbefore⟩

theorem cons (hpart : part.Keeps text steps before good middle)
    (hrest : RowKeeps text steps parts middle goods after) :
    RowKeeps text steps (part :: parts) before (good :: goods) after := by
  intro granted scope place hgranted hplace hbefore
  refine Attempt.Keeps.bind (hpart.settled hgranted hplace hbefore) fun first hfirst => ?_
  obtain ⟨⟨hgood, hmiddle⟩, -, hlast⟩ := hfirst
  refine Attempt.Keeps.bind (hrest _ _ _ hgranted hlast hmiddle) fun row hrow => ?_
  exact .succeed ⟨.cons hgood hrow.1, hrow.2⟩

end RowKeeps

namespace Form.Keeps

/-- A text is spelled by what it matches. -/
theorem literal {expected : String}
    (hafter : ∀ scope place, before scope place → after scope (place.past expected.toList)) :
    (Form.literal (.const (.text expected))).Keeps text steps before
      (fun value => value.spelling = expected) after := by
  intro granted scope place _ _ hbefore
  refine (Match.text_keeps expected scope place).mono ?_
  rintro _ rfl
  exact ⟨String.toList_inj.mp (Value.toList_spelling_token _), hafter _ _ hbefore⟩

theorem charClass {members : List Char} {excluded : Bool} (hlasts : before.Lasts) :
    (Form.charClass members excluded).Keeps text steps before
      (fun value => ∃ piece, value = .token piece) before := by
  intro granted scope place _ _ hbefore
  refine (Match.oneChar_keeps members excluded scope place).mono ?_
  rintro _ ⟨c, -, rfl⟩
  refine ⟨⟨_, rfl⟩, hlasts _ _ _ hbefore ?_⟩
  rw [Position.offset_step]
  exact Nat.le_succ _

theorem finish : Form.finish.Keeps text steps before (· = .endMark) before := by
  intro granted scope place _ _ hbefore
  refine (Match.finish_keeps scope place).mono ?_
  rintro _ rfl
  exact ⟨rfl, hbefore⟩

theorem choice {options : List Pattern}
    (hoptions : ∀ option ∈ options, option.Keeps text steps before good after) :
    (Form.choice options).Keeps text steps before good after := by
  intro granted scope place hgranted hplace hbefore
  show (Match.firstOf (Pattern.run granted) options scope place).Keeps text _
  induction options with
  | nil => exact .miss
  | cons option rest ih =>
      rw [List.forall_mem_cons] at hoptions
      exact .orElse (hoptions.1 _ _ _ hgranted hplace hbefore) (ih hoptions.2)

/-- The picks of a sequence are made from the values of its parts. -/
theorem sequence {picks : Option (List Nat)} (hrow : RowKeeps text steps parts before goods after)
    (hpicks : ∀ values, List.Forall₂ (fun good value => good value) goods values →
      ∃ value, Match.pickValues values picks = .ok value ∧ good value) :
    (Form.sequence parts picks).Keeps text steps before good after := by
  intro granted scope place hgranted hplace hbefore
  refine Attempt.Keeps.bind (hrow _ _ _ hgranted hplace hbefore) fun row hkept => ?_
  obtain ⟨value, hpicked, hgood⟩ := hpicks row.1 hkept.1
  dsimp only
  rw [hpicked]
  exact .bind (.succeed rfl) fun _ hvalue => .succeed ⟨hvalue ▸ hgood, hkept.2⟩

theorem absence {width : Nat} (hlasts : before.Lasts)
    (hinner : part.Keeps text steps before Anything after) (hwidth : width ≤ 1) :
    (Form.absence part width).Keeps text steps before Anything before := by
  intro granted scope place hgranted hplace hbefore
  have hscope : (Match.form (Pattern.run granted) granted (.absence part width) scope
      place).Keeps text fun success => success.scope = scope :=
    .bind (.absent (hinner _ _ _ hgranted hplace hbefore)) fun _ _ =>
      Match.wide_keeps scope hplace hwidth
  refine (hscope.settled (Match.derives_of_form (derives_of_run granted)) hplace).mono ?_
  rintro ⟨value, stop, inner⟩ ⟨rfl, hleads, -⟩
  exact ⟨trivial, hlasts _ _ _ hbefore hleads⟩

theorem demand {message : Message} (hinner : part.Keeps text steps before good after) :
    (Form.demand part message).Keeps text steps before good after :=
  fun _ _ _ hgranted hplace hbefore =>
    .orElse (hinner _ _ _ hgranted hplace hbefore) (Match.complain_keeps _ _ _ _)

theorem capture (hinner : part.Keeps text steps before good middle)
    (hbind : ∀ scope place value, middle scope place → good value →
      after (scope.bind name (.value value)) place) :
    (Form.capture part name).Keeps text steps before good after :=
  fun _ _ _ hgranted hplace hbefore =>
    .bind (hinner _ _ _ hgranted hplace hbefore) fun _ hkept =>
      .succeed ⟨hkept.1, hbind _ _ _ hkept.2 hkept.1⟩

/-- An overlay binds what its pattern needs, and leaves the scope. -/
theorem overlay {bindings : List (String × Term)} (hlasts : before.Lasts)
    (hbindings : ∀ scope place, place.offset ≤ text.length → before scope place →
      Defect.Keeps text (fun frame => inside (scope.push frame) place) (scope.resolveAll bindings))
    (hinner : part.Keeps text steps inside good after) :
    (Form.overlay part bindings).Keeps text steps before good before := by
  intro granted scope place hgranted hplace hbefore
  have hresolved := Attempt.Keeps.resolved (hbindings scope place hplace hbefore)
  refine hresolved.bind fun frame hframe => ?_
  refine Attempt.Keeps.bind (hinner.settled hgranted hplace hframe) fun success hkept => ?_
  exact .succeed ⟨hkept.1.1, hlasts _ _ _ hbefore hkept.2.1⟩

/-- A name may be bound to its next count where the count is less than the characters so far,
since these fit a word. -/
theorem overlay_next (hlasts : before.Lasts)
    (hcounts : ∀ scope place, before scope place → ∃ count, scope.Counts name count ∧
      count < place.offset ∧ ∀ next, Value.ofInt? (count + 1) = some next →
        inside (scope.push [(name, .value next)]) place)
    (hinner : part.Keeps text steps inside good after) :
    (Form.overlay part (nextCount name)).Keeps text steps before good before := by
  refine overlay hlasts (fun scope place hplace hbefore => ?_) hinner
  obtain ⟨count, hcount, hless, hinside⟩ := hcounts scope place hbefore
  rw [hcount.resolveAll_next]
  cases hnext : Value.ofInt? (count + 1) with
  | some next => exact hinside next hnext
  | none =>
      intro hfits
      have hdeep : count + 1 < 2 ^ 63 := by omega
      obtain ⟨next, hsome⟩ := Value.exists_ofInt?_next hdeep
      rw [hsome] at hnext
      cases hnext

/-- A name that means a rule is kept as the rule is, and leaves the scope. -/
theorem rule (hlasts : before.Lasts)
    (hrule : ∀ scope place, before scope place → ∃ rule after,
      scope.rule? name = some rule ∧ rule.Keeps text steps before good after) :
    (Form.reference (.name name)).Keeps text steps before good before := by
  intro granted scope place hgranted hplace hbefore
  obtain ⟨rule, after, hbound, hkeeps⟩ := hrule scope place hbefore
  simp only [Match.form, Pattern.resolve_name hbound, Attempt.resolved]
  refine Attempt.Keeps.bind (.succeed rfl) fun binding hbinding => ?_
  subst hbinding
  refine Attempt.Keeps.bind (hkeeps.settled hgranted hplace hbefore) fun success hkept => ?_
  exact .succeed ⟨hkept.1.1, hlasts _ _ _ hbefore hkept.2.1⟩

/-- A name that means a text can be matched. -/
theorem boundText (hlasts : before.Lasts)
    (htext : ∀ scope place, before scope place → ∃ content expected,
      scope.find? name = some (.value content) ∧ content.asText? = some expected) :
    (Form.reference (.name name)).Keeps text steps before Anything before := by
  intro granted scope place hgranted hplace hbefore
  obtain ⟨content, expected, hbound, hcontent⟩ := htext scope place hbefore
  have hresolved : (Term.name name).resolve scope = .ok (.value content) := by
    rw [Term.resolve, Scope.lookup, hbound]
  simp only [Match.form, hresolved, Attempt.resolved]
  refine Attempt.Keeps.bind (.succeed rfl) fun binding hbinding => ?_
  subst hbinding
  simp only [Match.follow, hcontent]
  refine (Match.text_keeps expected scope place).mono ?_
  rintro _ rfl
  refine ⟨trivial, hlasts _ _ _ hbefore ?_⟩
  rw [Position.offset_past]
  exact Nat.le_add_right _ _

end Form.Keeps

/-- What a repetition has collected is of a kind, and not too much. -/
structure Match.Tally.Sound (text : String) (before : Condition) (good : Value → Prop)
    (most : Option Nat) (tally : Tally) : Prop where
  parts : ∀ value ∈ tally.parts.toList, good value
  few : ∀ limit ∈ most, tally.parts.size ≤ limit
  inText : tally.position.offset ≤ text.length
  here : before tally.scope tally.position

section Repetitions

variable {separator : Option Pattern} {most : Option Nat} {tally : Match.Tally} {turns : Nat}

/-- A round adds a part, where there may be one more. -/
theorem Match.round_keeps (hpart : part.Keeps text steps before good before)
    (hseparator : ∀ between ∈ separator, between.Keeps text steps before Anything before)
    (hgranted : granted < steps) (hsound : tally.Sound text before good most)
    (hopen : ¬ tally.isFull most = true) :
    (round (Pattern.run granted) part separator tally).Keeps text
      (Tally.Sound text before good most) := by
  have hready : (beforePart (Pattern.run granted) separator tally).Keeps text fun ready =>
      ready.parts = tally.parts ∧ ready.position.offset ≤ text.length ∧
        before ready.scope ready.position := by
    cases separator with
    | none => exact .succeed ⟨rfl, hsound.inText, hsound.here⟩
    | some between =>
        unfold beforePart
        dsimp only
        split
        · exact .succeed ⟨rfl, hsound.inText, hsound.here⟩
        · exact .bind ((hseparator between rfl).settled hgranted hsound.inText hsound.here)
            fun _ hkept => .succeed ⟨rfl, hkept.2.2, hkept.1.2⟩
  refine hready.bind fun ready hkept => ?_
  obtain ⟨hparts, hinText, hhere⟩ := hkept
  refine Attempt.Keeps.bind (hpart.settled hgranted hinText hhere) fun success hsuccess => ?_
  obtain ⟨⟨hgood, hafter⟩, -, hlast⟩ := hsuccess
  refine .succeed ⟨?_, ?_, hlast, hafter⟩
  · intro value hvalue
    rw [hparts, Array.toList_push, List.mem_append, List.mem_singleton] at hvalue
    rcases hvalue with hearlier | rfl
    · exact hsound.parts value hearlier
    · exact hgood
  · intro limit hlimit
    rw [hparts, Array.size_push]
    have hless : ¬ limit ≤ tally.parts.size :=
      fun hle => hopen (Tally.isFull_iff.mpr ⟨limit, hlimit, hle⟩)
    omega

theorem Match.rounds_keep (hpart : part.Keeps text steps before good before)
    (hseparator : ∀ between ∈ separator, between.Keeps text steps before Anything before)
    (hgranted : granted < steps) (hsound : tally.Sound text before good most) :
    Attempt.Keeps text (rounds (Pattern.run granted) part separator most turns tally)
      (Tally.Sound text before good most) := by
  induction turns generalizing tally with
  | zero => exact ⟨.halted .exhausted, rfl, fun _ => rfl⟩
  | succ turns ih =>
      rw [rounds_eq_branch]
      split
      · exact .succeed hsound
      next hopen =>
        refine .branch (round_keeps hpart hseparator hgranted hsound hopen) ?_ (.succeed hsound)
        intro later hlater
        by_cases hsame : later.position.samePlace tally.position = true
        · have hkept : Attempt.Keeps text (Attempt.succeed later)
              (Tally.Sound text before good most) := .succeed hlater
          simp only [hsame, if_true]
          exact hkept
        · simp only [hsame]
          exact ih hlater

/-- A repetition whose bounds resolve collects values of the kind of its part, and no more of
them than it may. -/
theorem Form.Keeps.repetition {least : Term} {upper : Option Term}
    (hbounds : ∀ scope place, before scope place → ∃ low most,
      Match.resolveBounds scope least upper = .ok (low, most) ∧
        ∀ values, (∀ value ∈ values, good value) → (∀ limit ∈ most, values.length ≤ limit) →
          fine (.list values))
    (hpart : part.Keeps text steps before good before)
    (hseparator : ∀ between ∈ separator, between.Keeps text steps before Anything before) :
    (Form.repetition part least upper separator false).Keeps text steps before fine before := by
  intro granted scope place hgranted hplace hbefore
  obtain ⟨low, most, hresolved, hfine⟩ := hbounds scope place hbefore
  rw [Match.form_repetition_eq hresolved]
  have hnothing : Match.Tally.Sound text before good most ⟨#[], #[], place, scope⟩ :=
    ⟨(fun _ hvalue => nomatch hvalue), fun _ _ => Nat.zero_le _, hplace, hbefore⟩
  refine Attempt.Keeps.bind (Match.rounds_keep hpart hseparator hgranted hnothing)
    fun tally hsound => ?_
  split
  · exact .miss
  · refine .succeed ⟨hfine _ hsound.parts fun limit hlimit => ?_, hsound.here⟩
    rw [Array.length_toList]
    exact hsound.few limit hlimit

end Repetitions

namespace Pattern.Keeps

theorem ofForm (hkeeps : shape.Keeps text steps before good after) :
    (Pattern.ofForm shape).Keeps text steps before good after :=
  of_form hkeeps

/-- A pattern that is a sequence makes its value from what its parts yield. -/
theorem row {picks : Option (List Nat)} (hform : pattern.form = .sequence parts picks)
    (hrow : RowKeeps text steps parts before goods after)
    (hpicks : ∀ values, List.Forall₂ (fun good value => good value) goods values →
      ∃ raw, Match.pickValues values picks = .ok raw ∧ good (pattern.finishValue raw)) :
    pattern.Keeps text steps before good after := by
  apply of_form
  rw [hform]
  exact .sequence hrow hpicks

theorem literal (expected : String) (hlasts : before.Lasts) :
    (Pattern.literal expected).Keeps text steps before (fun value => value.spelling = expected)
      before := by
  refine ofForm (.literal fun scope place hbefore => hlasts _ _ _ hbefore ?_)
  rw [Position.offset_past]
  exact Nat.le_add_right _ _

theorem oneOf (members : String) (hlasts : before.Lasts) :
    (Pattern.oneOf members).Keeps text steps before (fun value => ∃ piece, value = .token piece)
      before :=
  ofForm (.charClass hlasts)

theorem noneOf (members : String) (hlasts : before.Lasts) :
    (Pattern.noneOf members).Keeps text steps before (fun value => ∃ piece, value = .token piece)
      before :=
  ofForm (.charClass hlasts)

theorem finish : Pattern.finish.Keeps text steps before (· = .endMark) before :=
  ofForm .finish

theorem choice {options : List Pattern}
    (hoptions : ∀ option ∈ options, option.Keeps text steps before good after) :
    (Pattern.choice options).Keeps text steps before good after :=
  ofForm (.choice hoptions)

/-- A repetition with a constant least count collects values of the kind of its part. -/
theorem repeated {separator : Option Pattern} {least : Nat}
    (hpart : part.Keeps text steps before good before)
    (hseparator : ∀ between ∈ separator, between.Keeps text steps before Anything before)
    (hleast : least ≤ 0x7FFFFFFFFFFFFFFF) :
    (Pattern.ofForm (.repetition part (Term.ofCount least) none separator false)).Keeps text
      steps before (ListOf good) before :=
  ofForm (.repetition (fun _ _ _ => ⟨least, none, Match.resolveBounds_none hleast,
    fun values hvalues _ => ⟨values, rfl, hvalues⟩⟩) hpart hseparator)

theorem many (hpart : part.Keeps text steps before good before) :
    part.many.Keeps text steps before (ListOf good) before :=
  repeated hpart (fun _ hbetween => nomatch hbetween) (Nat.zero_le _)

theorem atLeast {least : Nat} (hpart : part.Keeps text steps before good before)
    (hleast : least ≤ 0x7FFFFFFFFFFFFFFF) :
    (part.atLeast least).Keeps text steps before (ListOf good) before :=
  repeated hpart (fun _ hbetween => nomatch hbetween) hleast

theorem optional (hpart : part.Keeps text steps before good before) :
    part.optional.Keeps text steps before (AtMostOne good) before := by
  refine ofForm (.repetition (fun _ _ _ => ⟨0, some 1, Match.resolveBounds_some (Nat.zero_le 1)
    (by decide), fun values hvalues hfew => ?_⟩) hpart fun _ hbetween => nomatch hbetween)
  rcases values with _ | ⟨member, _ | ⟨second, others⟩⟩
  · exact .inl rfl
  · exact .inr ⟨member, hvalues member List.mem_cons_self, rfl⟩
  · have hone := hfew 1 rfl
    simp at hone

/-- A repetition whose bounds are a name's count collects values of the kind of its part. -/
theorem times (hpart : part.Keeps text steps before good before)
    (hcounts : ∀ scope place, before scope place → ∃ count, scope.Counts name count) :
    (part.times (.name name)).Keeps text steps before (ListOf good) before := by
  refine ofForm (.repetition (fun scope place hbefore => ?_) hpart fun _ hbetween =>
    nomatch hbetween)
  obtain ⟨count, hcount⟩ := hcounts scope place hbefore
  exact ⟨count, some count, hcount.resolveBounds, fun values hvalues _ => ⟨values, rfl, hvalues⟩⟩

theorem demand {template : String} (hinner : part.Keeps text steps before good after) :
    (part.demand template).Keeps text steps before good after :=
  ofForm (.demand hinner)

theorem notAhead (hlasts : before.Lasts) (hinner : part.Keeps text steps before Anything after) :
    part.notAhead.Keeps text steps before Anything before :=
  ofForm (.absence hlasts hinner (Nat.zero_le 1))

theorem exclude (hlasts : before.Lasts) (hinner : part.Keeps text steps before Anything after) :
    part.exclude.Keeps text steps before Anything before :=
  ofForm (.absence hlasts hinner (Nat.le_refl 1))

theorem capture (hinner : part.Keeps text steps before good middle)
    (hbind : ∀ scope place value, middle scope place → good value →
      after (scope.bind name (.value value)) place) :
    (part.capture name).Keeps text steps before good after :=
  ofForm (.capture hinner hbind)

/-- A name keeps with one step more what the rule that it means keeps. -/
theorem named (hlasts : before.Lasts)
    (hrule : ∀ scope place, before scope place → ∃ rule after,
      scope.rule? name = some rule ∧ rule.Keeps text steps before good after) :
    (Pattern.named name).Keeps text (steps + 1) before good before :=
  of_form_succ (.rule hlasts hrule)

theorem namedText (hlasts : before.Lasts)
    (htext : ∀ scope place, before scope place → ∃ content expected,
      scope.find? name = some (.value content) ∧ content.asText? = some expected) :
    (Pattern.named name).Keeps text steps before Anything before :=
  ofForm (.boundText hlasts htext)

end Pattern.Keeps

/-- What a parse yields is what the start rule yields by its contract, and an error is
excused. -/
theorem Grammar.parse_keeps {grammar : Grammar} {rule : Pattern}
    (hrule : grammar.scope.rule? grammar.start = some rule)
    (hkeeps : rule.Keeps text steps before good after) (hgranted : granted < steps)
    (hstart : before grammar.scope Position.start) :
    (∀ value, grammar.parse granted text = .ok value → good value) ∧
      ∀ reason, grammar.parse granted text = .error reason → reason.Excused text := by
  obtain ⟨verdict, hending, hkept⟩ := hkeeps _ _ _ hgranted (Nat.zero_le _) hstart
  rw [Grammar.parse_eq hrule, hending]
  cases verdict with
  | matched success =>
      dsimp only
      split
      · exact ⟨fun _ hvalue => Except.ok.inj hvalue ▸ hkept.1, nofun⟩
      · refine ⟨nofun, fun _ hreason => ?_⟩
        cases hreason
        exact fun _ => rfl
  | missed =>
      refine ⟨nofun, fun _ hreason => ?_⟩
      cases hreason
      exact fun _ => rfl
  | halted reason =>
      refine ⟨nofun, fun _ hreason => ?_⟩
      cases hreason
      exact hkept

end ScopedGrammar
