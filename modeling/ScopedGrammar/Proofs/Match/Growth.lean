/-
# Matching only lets the input grow

Whatever an attempt comes to, a match, a miss or a halt, the input after it has grown from
the input before it. So a match that backtracks never loses what it has received, and
matching over an input that has ended leaves that input as it is.

The ways to combine attempts keep this property, so each part of the matcher has it from
its own parts, and the whole matcher by induction on the steps granted.
-/

import ScopedGrammar.Proofs.Input.Growth
import ScopedGrammar.Match.Basic

namespace ScopedGrammar

variable {π α β : Type} [Producer π]

namespace Attempt

/-- One attempt and, according to whether it has matched or missed, another. All ways to
combine attempts are of this kind: after a halt there is nothing. -/
def branch (attempt : Attempt π α) (matched : α → Attempt π β) (missed : Attempt π β) :
    Attempt π β :=
  fun input =>
    match attempt input with
    | (.matched result, next) => matched result next
    | (.missed, next) => missed next
    | (.halted reason, next) => (.halted reason, next)

omit [Producer π] in
theorem andThen_eq_branch (first : Attempt π α) (next : α → Attempt π β) :
    first.andThen next = first.branch next miss := by
  funext input
  unfold andThen branch
  rcases first input with ⟨_ | _ | _, between⟩ <;> rfl

omit [Producer π] in
theorem orElse_eq_branch (first second : Attempt π α) :
    first.orElse second = first.branch Attempt.succeed second := by
  funext input
  unfold orElse branch
  rcases first input with ⟨_ | _ | _, between⟩ <;> rfl

omit [Producer π] in
theorem absent_eq_branch (attempt : Attempt π α) :
    attempt.absent = attempt.branch (fun _ => miss) (Attempt.succeed ()) := by
  funext input
  unfold absent branch
  rcases attempt input with ⟨_ | _ | _, between⟩ <;> rfl

/-- An attempt that can only let the input grow. -/
def Grows (attempt : Attempt π α) : Prop :=
  ∀ input : Input π, input.GrowsTo (attempt input).2

namespace Grows

theorem succeed (result : α) : Grows (Attempt.succeed (π := π) result) :=
  Input.GrowsTo.refl

theorem miss : Grows (Attempt.miss (π := π) (α := α)) :=
  Input.GrowsTo.refl

theorem halt (reason : Halt) : Grows (Attempt.halt (π := π) (α := α) reason) :=
  Input.GrowsTo.refl

theorem read {step : Input π → α × Input π} (hstep : Growing step) :
    Grows (Attempt.read step) :=
  hstep

theorem resolved (term : Except Defect α) : Grows (Attempt.resolved (π := π) term) := by
  cases term with
  | ok result => exact succeed result
  | error defect => exact halt (.defect defect)

/-- Where such an attempt ends, its input has grown. -/
theorem after {attempt : Attempt π α} (hattempt : attempt.Grows) {input next : Input π}
    {verdict : Verdict α} (hending : attempt input = (verdict, next)) :
    input.GrowsTo next := by
  simpa only [hending] using hattempt input

theorem branch {attempt : Attempt π α} {matched : α → Attempt π β} {missed : Attempt π β}
    (hattempt : attempt.Grows) (hmatched : ∀ result, (matched result).Grows)
    (hmissed : missed.Grows) : (attempt.branch matched missed).Grows := by
  intro input
  have grown := hattempt input
  unfold Attempt.branch
  generalize attempt input = ending at grown ⊢
  rcases ending with ⟨result | _ | _, between⟩
  · exact grown.trans (hmatched result between)
  · exact grown.trans (hmissed between)
  · exact grown

theorem bind {first : Attempt π α} {next : α → Attempt π β} (hfirst : first.Grows)
    (hnext : ∀ result, (next result).Grows) : (first >>= next).Grows := by
  rw [Attempt.bind_eq_andThen, andThen_eq_branch]
  exact hfirst.branch hnext miss

theorem orElse {first second : Attempt π α} (hfirst : first.Grows)
    (hsecond : second.Grows) : (first.orElse second).Grows := by
  rw [orElse_eq_branch]
  exact hfirst.branch succeed hsecond

theorem absent {attempt : Attempt π α} (hattempt : attempt.Grows) :
    attempt.absent.Grows := by
  rw [absent_eq_branch]
  exact hattempt.branch (fun _ => miss) (succeed ())

end Grows

end Attempt

/-! ## Sequences, choices and repetitions

These are built from a matcher alone, and read nothing on their own. -/

namespace Match

open Attempt

/-- A matcher under which every attempt lets the input grow. -/
def Grows (matcher : Matcher π) : Prop :=
  ∀ pattern scope place, Attempt.Grows (matcher pattern scope place)

variable {matcher : Matcher π}

theorem grows_allOf (hmatcher : Grows matcher) (parts : List Pattern) (scope : Scope)
    (place : Position) : (allOf matcher parts scope place).Grows := by
  induction parts generalizing scope place with
  | nil => exact .succeed _
  | cons part rest ih =>
      exact .bind (hmatcher part scope place) fun first =>
        .bind (ih first.scope first.position) fun _ => .succeed _

theorem grows_firstOf (hmatcher : Grows matcher) (options : List Pattern) (scope : Scope)
    (place : Position) : (firstOf matcher options scope place).Grows := by
  induction options with
  | nil => exact .miss
  | cons option rest ih => exact .orElse (hmatcher option scope place) ih

theorem grows_beforePart (hmatcher : Grows matcher) (separator : Option Pattern)
    (tally : Tally) : (beforePart matcher separator tally).Grows := by
  cases separator with
  | none => exact .succeed tally
  | some between =>
      unfold beforePart
      dsimp only
      split
      · exact .succeed tally
      · exact .bind (hmatcher between tally.scope tally.position) fun _ => .succeed _

theorem grows_round (hmatcher : Grows matcher) (part : Pattern)
    (separator : Option Pattern) (tally : Tally) :
    (round matcher part separator tally).Grows :=
  .bind (grows_beforePart hmatcher separator tally) fun ready =>
    .bind (hmatcher part ready.scope ready.position) fun _ => .succeed _

omit [Producer π] in
/-- Rounds as attempts: after a round that matched there are further ones, unless it has
not moved, and after one that missed there is what had been collected before. -/
theorem rounds_eq_branch (matcher : Matcher π) (part : Pattern) (separator : Option Pattern)
    (most : Option Nat) (granted : Nat) (tally : Tally) :
    rounds matcher part separator most (granted + 1) tally =
      if tally.isFull most then Attempt.succeed tally
      else (round matcher part separator tally).branch
        (fun later next =>
          if later.position.samePlace tally.position then (.matched later, next)
          else rounds matcher part separator most granted later next)
        (Attempt.succeed tally) := by
  funext input
  rw [rounds]
  split
  · rfl
  · unfold branch
    rcases round matcher part separator tally input with ⟨_ | _ | _, next⟩ <;> rfl

theorem grows_rounds (hmatcher : Grows matcher) (part : Pattern) (separator : Option Pattern)
    (most : Option Nat) (granted : Nat) (tally : Tally) :
    Attempt.Grows (rounds matcher part separator most granted tally) := by
  induction granted generalizing tally with
  | zero => exact .halt .exhausted
  | succ granted ih =>
      rw [rounds_eq_branch]
      split
      · exact .succeed tally
      · refine .branch (grows_round hmatcher part separator tally) ?_ (.succeed tally)
        intro later
        by_cases hsame : later.position.samePlace tally.position = true
        · simp only [hsame, if_true]
          exact .succeed later
        · simp only [hsame]
          exact ih later

theorem grows_repetition (hmatcher : Grows matcher) (granted : Nat) (part : Pattern)
    (separator : Option Pattern) (keepSeparators : Bool) (least : Nat) (most : Option Nat)
    (scope : Scope) (place : Position) :
    (repetition matcher granted part separator keepSeparators least most scope
      place).Grows := by
  refine .bind (grows_rounds hmatcher part separator most granted _) fun tally => ?_
  split
  · exact .miss
  · exact .succeed _

theorem grows_keepScope {attempt : Attempt π Match} (scope : Scope)
    (hattempt : attempt.Grows) : (keepScope scope attempt).Grows :=
  .bind hattempt fun _ => .succeed _

theorem grows_captureToken (count : Nat) (scope : Scope) (place : Position) :
    (captureToken (π := π) count scope place).Grows :=
  .bind (.read (growing_capture place count)) fun _ => .succeed _

theorem grows_text (expected : String) (scope : Scope) (place : Position) :
    (text (π := π) expected scope place).Grows := by
  refine .bind (.read (growing_startsWith place.offset expected.toList)) fun found => ?_
  cases found with
  | true => exact grows_captureToken expected.length scope place
  | false => exact .miss

theorem grows_oneChar (members : List Char) (excluded : Bool) (scope : Scope)
    (place : Position) : (oneChar (π := π) members excluded scope place).Grows := by
  refine .bind (.read (growing_charAt place.offset)) fun found => ?_
  cases found with
  | none => exact .miss
  | some c =>
      dsimp only
      split
      · exact grows_captureToken 1 scope place
      · exact .miss

theorem grows_finish (scope : Scope) (place : Position) :
    (finish (π := π) scope place).Grows := by
  refine .bind (.read (growing_isEnd place.offset)) fun atEnd => ?_
  cases atEnd with
  | true => exact .succeed _
  | false => exact .miss

theorem grows_wide (width : Nat) (scope : Scope) (place : Position) :
    (wide (π := π) width scope place).Grows := by
  unfold wide
  split
  · exact grows_captureToken width scope place
  · split
    · exact .halt .overflow
    · refine .bind (.read (growing_has _)) fun there => ?_
      cases there with
      | true => exact grows_captureToken width scope place
      | false => exact .miss

end Match

theorem growing_renderPieces (scope : Scope) (place : Position)
    (pieces : List Message.Piece) :
    Growing (Message.renderPieces (π := π) scope place pieces) := by
  induction pieces with
  | nil => exact Input.GrowsTo.refl
  | cons piece rest ih =>
      intro input
      have hfirst : input.GrowsTo (piece.render scope place input).2 := by
        cases piece with
        | found => exact growing_charAt place.offset input
        | _ => exact .refl input
      exact hfirst.trans (ih _)

theorem growing_raise (cause : Diagnostic.Cause) (message : String) (place : Position) :
    Growing (Diagnostic.raise (π := π) cause message place) := by
  intro input
  have asked := growing_charAt place.offset input
  unfold Diagnostic.raise
  generalize input.charAt place.offset = answer at asked ⊢
  rcases answer with ⟨_ | c, next⟩ <;> exact asked

theorem growing_unconsumed (place : Position) :
    Growing (Diagnostic.unconsumed (π := π) place) := by
  intro input
  have asked := growing_charAt place.offset input
  unfold Diagnostic.unconsumed
  generalize input.charAt place.offset = answer at asked ⊢
  rcases answer with ⟨_ | c, next⟩ <;> exact asked.trans (growing_raise _ _ place next)

namespace Match

variable {matcher : Matcher π}

theorem grows_complain (message : Message) (scope : Scope) (place : Position) :
    (complain (π := π) message scope place).Grows :=
  .bind (.read (growing_renderPieces scope place message.pieces)) fun text =>
    .bind (.read (growing_raise .expected text place)) fun _ => .halt _

theorem grows_follow (hmatcher : Grows matcher) (term : Term) (scope : Scope)
    (place : Position) (binding : Binding) :
    (follow matcher term scope place binding).Grows := by
  cases binding with
  | rule pattern => exact grows_keepScope scope (hmatcher pattern scope place)
  | value content =>
      unfold follow
      dsimp only
      split
      · exact grows_text _ scope place
      · exact .halt _

/-- One level of matching lets the input grow if the matcher below it does. -/
theorem grows_form (hmatcher : Grows matcher) (granted : Nat) (shape : Form)
    (scope : Scope) (place : Position) :
    (form matcher granted shape scope place).Grows := by
  cases shape with
  | literal term =>
      exact .bind (.resolved (term.textOf scope)) fun expected =>
        grows_text expected scope place
  | charClass members excluded => exact grows_oneChar members excluded scope place
  | choice options => exact grows_firstOf hmatcher options scope place
  | sequence parts picks =>
      exact .bind (grows_allOf hmatcher parts scope place) fun _ =>
        .bind (.resolved _) fun _ => .succeed _
  | repetition part least most separator keepSeparators =>
      exact .bind (.resolved _) fun _ =>
        grows_repetition hmatcher granted part separator keepSeparators _ _ scope place
  | absence inner width =>
      exact .bind (.absent (hmatcher inner scope place)) fun _ =>
        grows_wide width scope place
  | demand inner message =>
      exact .orElse (hmatcher inner scope place) (grows_complain message scope place)
  | capture inner name => exact .bind (hmatcher inner scope place) fun _ => .succeed _
  | overlay inner bindings =>
      exact .bind (.resolved _) fun frame =>
        grows_keepScope scope (hmatcher inner (scope.push frame) place)
  | reference term =>
      exact .bind (.resolved _) fun binding =>
        grows_follow hmatcher term scope place binding
  | finish => exact grows_finish scope place

end Match

/-- Every run of a pattern only lets the input grow. -/
theorem grows_run (granted : Nat) : Match.Grows (Pattern.run (π := π) granted) := by
  induction granted with
  | zero => exact fun _ _ _ => .halt .exhausted
  | succ granted ih =>
      intro pattern scope place
      exact .bind (Match.grows_form ih granted pattern.form scope place) fun _ =>
        .succeed _

end ScopedGrammar
