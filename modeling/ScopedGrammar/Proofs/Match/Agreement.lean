/-
# Matching agrees with matching the complete text

The proof follows the matcher. Two ways to attempt a match agree if the steps that they are
made of agree, because each step lets the input grow: a text that is admitted at the end is
then admitted at each step. The one thing that depends on more than the text is where a
diagnostic measures its span, because that does not ask for what is missing. So every
position that matching has come to must have been received, and it is, because matching
moves only over received characters.
-/

import ScopedGrammar.Proofs.Input.Admission
import ScopedGrammar.Proofs.Match.Positions

namespace ScopedGrammar

variable {π α β : Type} [Producer π] {text : String}

namespace Agrees

theorem succeed (result : α) (input : Input π) :
    Agrees text (Attempt.succeed result) (Attempt.succeed result) input :=
  done (Verdict.matched result) input

theorem miss (input : Input π) :
    Agrees text (Attempt.miss (α := α)) (Attempt.miss (α := α)) input :=
  done Verdict.missed input

theorem halt (reason : Halt) (input : Input π) :
    Agrees text (Attempt.halt (α := α) reason) (Attempt.halt (α := α) reason) input :=
  done (Verdict.halted reason) input

theorem resolved (term : Except Defect α) (input : Input π) :
    Agrees text (Attempt.resolved term) (Attempt.resolved term) input := by
  cases term with
  | ok result => exact succeed result input
  | error defect => exact halt (.defect defect) input

variable {input : Input π}

theorem read {step : Input π → α × Input π} {stepWhole : Input Silence → α × Input Silence}
    (hstep : Agrees text step stepWhole input) :
    Agrees text (Attempt.read step) (Attempt.read stepWhole) input where
  grows := hstep.grows
  answers := by
    intro verdict later hending hadmits
    cases hending
    simp only [Attempt.read, hstep.answers rfl hadmits]

/-- Branching attempts agree if the branch that is taken does, on what the first attempt
has left. -/
theorem branch {attempt : Attempt π α} {attemptWhole : Attempt Silence α}
    {matched : α → Attempt π β} {matchedWhole : α → Attempt Silence β}
    {missed : Attempt π β} {missedWhole : Attempt Silence β}
    (hattempt : Agrees text attempt attemptWhole input)
    (hmatched : ∀ result between, attempt input = (.matched result, between) →
      Agrees text (matched result) (matchedWhole result) between)
    (hmissed : ∀ between, attempt input = (.missed, between) →
      Agrees text missed missedWhole between) :
    Agrees text (attempt.branch matched missed) (attemptWhole.branch matchedWhole missedWhole)
      input := by
  rcases hstep : attempt input with ⟨result | _ | reason, between⟩
  · refine hattempt.chain hstep (hmatched result between hstep) ?_ ?_
    · rw [Attempt.branch, hstep]
    · intro hwhole
      rw [Attempt.branch, hwhole]
  · refine hattempt.chain hstep (hmissed between hstep) ?_ ?_
    · rw [Attempt.branch, hstep]
    · intro hwhole
      rw [Attempt.branch, hwhole]
  · refine hattempt.chain hstep (halt reason between) ?_ ?_
    · rw [Attempt.branch, hstep]
      rfl
    · intro hwhole
      rw [Attempt.branch, hwhole]
      rfl

/-- Attempts in a row agree if each does where the one before it has ended. -/
theorem bind {first : Attempt π α} {firstWhole : Attempt Silence α}
    {next : α → Attempt π β} {nextWhole : α → Attempt Silence β}
    (hfirst : Agrees text first firstWhole input)
    (hnext : ∀ result between, first input = (.matched result, between) →
      Agrees text (next result) (nextWhole result) between) :
    Agrees text (first >>= next) (firstWhole >>= nextWhole) input := by
  rw [Attempt.bind_eq_andThen, Attempt.bind_eq_andThen, Attempt.andThen_eq_branch,
    Attempt.andThen_eq_branch]
  exact hfirst.branch hnext fun between _ => miss between

/-- Alternatives agree if the second does on what the first has left. -/
theorem orElse {first second : Attempt π α} {firstWhole secondWhole : Attempt Silence α}
    (hfirst : Agrees text first firstWhole input)
    (hsecond : ∀ between, first input = (.missed, between) →
      Agrees text second secondWhole between) :
    Agrees text (first.orElse second) (firstWhole.orElse secondWhole) input := by
  rw [Attempt.orElse_eq_branch, Attempt.orElse_eq_branch]
  exact hfirst.branch (fun result between _ => succeed result between) hsecond

theorem absent {attempt : Attempt π α} {attemptWhole : Attempt Silence α}
    (hattempt : Agrees text attempt attemptWhole input) :
    Agrees text attempt.absent attemptWhole.absent input := by
  rw [Attempt.absent_eq_branch, Attempt.absent_eq_branch]
  exact hattempt.branch (fun _ between _ => miss between) fun between _ => succeed () between

end Agrees

theorem agrees_renderPieces (scope : Scope) (place : Position)
    (pieces : List Message.Piece) (input : Input π) :
    Agrees text (Message.renderPieces scope place pieces)
      (Message.renderPieces scope place pieces) input := by
  induction pieces generalizing input with
  | nil => exact .done "" input
  | cons piece rest ih =>
      have hpiece : Agrees text (piece.render scope place) (piece.render scope place) input := by
        cases piece with
        | found => exact (agrees_charAt place.offset input).map Message.ofFound
        | _ => exact .done _ input
      rcases hfront : piece.render scope place input with ⟨front, between⟩
      have hrest := (ih between).map fun back => front ++ back
      refine hpiece.chain hfront hrest ?_ ?_
      · rw [Message.renderPieces, hfront]
      · intro hwhole
        rw [Message.renderPieces, hwhole]

/-- A diagnostic at a place that has been reached. What stands before it is measured on
what has been received, so the place must not lie beyond that. -/
theorem agrees_raise (cause : Diagnostic.Cause) (message : String) {place : Position}
    {input : Input π} (hplace : place.offset ≤ input.buffer.size) :
    Agrees text (Diagnostic.raise cause message place)
      (Diagnostic.raise cause message place) input where
  grows := growing_raise cause message place input
  answers := by
    intro answer later hanswer hadmits
    have hinput := ((growing_raise _ _ _).after hanswer).admits hadmits
    have hslice : (Input.ofText text).slice 0 place.offset = input.slice 0 place.offset :=
      hinput.slice_eq (.inr (Nat.le_trans hplace (Nat.le_max_right _ _)))
    rw [Diagnostic.raise] at hanswer ⊢
    rcases hasked : input.charAt place.offset with ⟨_ | c, next⟩
    · simp only [hasked] at hanswer
      cases hanswer
      rw [hslice, (agrees_charAt place.offset input).answers hasked hadmits]
    · simp only [hasked] at hanswer
      cases hanswer
      rw [hslice, (agrees_charAt place.offset input).answers hasked hadmits]

theorem agrees_unconsumed {place : Position} {input : Input π}
    (hplace : place.offset ≤ input.buffer.size) :
    Agrees text (Diagnostic.unconsumed place) (Diagnostic.unconsumed place) input where
  grows := growing_unconsumed place input
  answers := by
    intro answer later hanswer hadmits
    rw [Diagnostic.unconsumed] at hanswer ⊢
    rcases hasked : input.charAt place.offset with ⟨found, next⟩
    have hlater := Nat.le_trans hplace ((growing_charAt _).after hasked).size_le
    cases found with
    | none =>
        simp only [hasked] at hanswer
        have hnext := ((growing_raise _ _ _).after hanswer).admits hadmits
        rw [(agrees_charAt place.offset input).answers hasked hnext]
        exact (agrees_raise _ _ hlater).answers hanswer hadmits
    | some c =>
        simp only [hasked] at hanswer
        have hnext := ((growing_raise _ _ _).after hanswer).admits hadmits
        rw [(agrees_charAt place.offset input).answers hasked hnext]
        exact (agrees_raise _ _ hlater).answers hanswer hadmits

namespace Match

theorem agrees_captureToken (count : Nat) (scope : Scope) (place : Position)
    (input : Input π) :
    Agrees text (captureToken count scope place) (captureToken count scope place) input :=
  .bind (.read (agrees_capture place count input)) fun _ between _ => .succeed _ between

theorem agrees_text (expected : String) (scope : Scope) (place : Position)
    (input : Input π) :
    Agrees text (Match.text expected scope place) (Match.text expected scope place) input := by
  apply Agrees.bind (.read (agrees_startsWith place.offset expected.toList input))
  intro found between _
  cases found with
  | true => exact agrees_captureToken expected.length scope place between
  | false => exact .miss between

theorem agrees_oneChar (members : List Char) (excluded : Bool) (scope : Scope)
    (place : Position) (input : Input π) :
    Agrees text (oneChar members excluded scope place) (oneChar members excluded scope place)
      input := by
  apply Agrees.bind (.read (agrees_charAt place.offset input))
  intro found between _
  cases found with
  | none => exact .miss between
  | some c =>
      dsimp only
      split
      · exact agrees_captureToken 1 scope place between
      · exact .miss between

theorem agrees_finish (scope : Scope) (place : Position) (input : Input π) :
    Agrees text (finish scope place) (finish scope place) input := by
  apply Agrees.bind (.read (agrees_isEnd place.offset input))
  intro atEnd between _
  cases atEnd with
  | true => exact .succeed _ between
  | false => exact .miss between

theorem agrees_wide (width : Nat) (scope : Scope) (place : Position) (input : Input π) :
    Agrees text (wide width scope place) (wide width scope place) input := by
  unfold wide
  split
  · exact agrees_captureToken width scope place input
  · split
    · exact .halt .overflow input
    · apply Agrees.bind (.read (agrees_has _ input))
      intro there between _
      cases there with
      | true => exact agrees_captureToken width scope place between
      | false => exact .miss between

theorem agrees_complain (message : Message) (scope : Scope) {place : Position}
    {input : Input π} (hplace : place.offset ≤ input.buffer.size) :
    Agrees text (complain message scope place) (complain message scope place) input := by
  apply Agrees.bind (.read (agrees_renderPieces scope place message.pieces input))
  intro filled between hfilled
  have hrendered : Growing (message.render (π := π) scope place) :=
    growing_renderPieces scope place message.pieces
  have hbetween := (Attempt.Grows.read hrendered).after hfilled
  have hthere := Nat.le_trans hplace hbetween.size_le
  apply Agrees.bind (.read (agrees_raise .expected filled hthere))
  intro diagnostic next _
  exact .halt _ next

/-- A matcher for inputs that arrive, and its counterpart for complete texts. -/
structure Streams (text : String) (matcher : Matcher π) (whole : Matcher Silence) :
    Prop where
  /-- They agree wherever the position has been received. -/
  agrees : ∀ pattern scope {place : Position} {input : Input π},
    place.offset ≤ input.buffer.size →
      Agrees text (matcher pattern scope place) (whole pattern scope place) input
  explained : Explained matcher

/-- A derivation that starts where the input has been received ends where it has been. -/
theorem received_of_derives {task : Task} {here there : Spot π} {values : List Value}
    (derived : Derives task here values there)
    (hhere : here.position.offset ≤ here.input.buffer.size) :
    there.position.offset ≤ there.input.buffer.size := by
  have hoffset := derived.leads.offset_le_max
  have hsize := derived.growsTo.size_le
  rw [Array.length_toList] at hoffset
  omega

variable {matcher : Matcher π} {whole : Matcher Silence} {input : Input π}

theorem Streams.received (hstreams : Streams text matcher whole) {pattern : Pattern}
    {scope : Scope} {place : Position} {success : Match} {after : Input π}
    (hmatched : matcher pattern scope place input = (.matched success, after))
    (hplace : place.offset ≤ input.buffer.size) :
    success.position.offset ≤ after.buffer.size :=
  received_of_derives (hstreams.explained hmatched) hplace

theorem agrees_allOf (hstreams : Streams text matcher whole) (parts : List Pattern)
    (scope : Scope) {place : Position} (hplace : place.offset ≤ input.buffer.size) :
    Agrees text (allOf matcher parts scope place) (allOf whole parts scope place) input := by
  induction parts generalizing scope place input with
  | nil => exact .succeed _ input
  | cons part rest ih =>
      refine .bind (hstreams.agrees part scope hplace) fun first between hfirst => ?_
      refine .bind (ih first.scope (hstreams.received hfirst hplace)) fun _ next _ => ?_
      exact .succeed _ next

theorem agrees_firstOf (hstreams : Streams text matcher whole) (options : List Pattern)
    (scope : Scope) {place : Position} (hplace : place.offset ≤ input.buffer.size) :
    Agrees text (firstOf matcher options scope place) (firstOf whole options scope place)
      input := by
  induction options generalizing input with
  | nil => exact .miss input
  | cons option rest ih =>
      have hfirst := hstreams.agrees option scope hplace
      refine .orElse hfirst fun between hmissed => ih ?_
      exact Nat.le_trans hplace (hfirst.after hmissed).size_le

theorem agrees_beforePart (hstreams : Streams text matcher whole)
    (separator : Option Pattern) {tally : Tally}
    (hplace : tally.position.offset ≤ input.buffer.size) :
    Agrees text (beforePart matcher separator tally) (beforePart whole separator tally)
      input := by
  cases separator with
  | none => exact .succeed tally input
  | some between =>
      unfold beforePart
      dsimp only
      split
      · exact .succeed tally input
      · refine .bind (hstreams.agrees between tally.scope hplace) fun _ next _ => ?_
        exact .succeed _ next

theorem received_of_beforePart (hstreams : Streams text matcher whole)
    {separator : Option Pattern} {tally ready : Tally} {between : Input π}
    (hready : beforePart matcher separator tally input = (.matched ready, between))
    (hplace : tally.position.offset ≤ input.buffer.size) :
    ready.position.offset ≤ between.buffer.size := by
  cases separator with
  | none =>
      cases hready
      exact hplace
  | some separating =>
      unfold beforePart at hready
      dsimp only at hready
      split at hready
      · cases hready
        exact hplace
      · simp only [Attempt.bind_eq_andThen, Attempt.pure_eq_succeed,
          Attempt.andThen_eq_matched_iff, Attempt.succeed_eq_matched_iff] at hready
        obtain ⟨before, _, hbefore, rfl, rfl⟩ := hready
        exact hstreams.received hbefore hplace

theorem agrees_round (hstreams : Streams text matcher whole) (part : Pattern)
    (separator : Option Pattern) {tally : Tally}
    (hplace : tally.position.offset ≤ input.buffer.size) :
    Agrees text (round matcher part separator tally) (round whole part separator tally)
      input := by
  refine .bind (agrees_beforePart hstreams separator hplace) fun ready between hready => ?_
  have hbetween := received_of_beforePart hstreams hready hplace
  refine .bind (hstreams.agrees part ready.scope hbetween) fun _ next _ => ?_
  exact .succeed _ next

theorem received_of_round (hstreams : Streams text matcher whole) {part : Pattern}
    {separator : Option Pattern} {tally later : Tally} {next : Input π}
    (hround : round matcher part separator tally input = (.matched later, next))
    (hplace : tally.position.offset ≤ input.buffer.size) :
    later.position.offset ≤ next.buffer.size := by
  obtain ⟨turn, hderived, -⟩ := derives_of_round hstreams.explained hround
  exact received_of_derives hderived hplace

theorem agrees_rounds (hstreams : Streams text matcher whole) (part : Pattern)
    (separator : Option Pattern) (most : Option Nat) (granted : Nat) {tally : Tally}
    (hplace : tally.position.offset ≤ input.buffer.size) :
    Agrees text (rounds matcher part separator most granted tally)
      (rounds whole part separator most granted tally) input := by
  induction granted generalizing tally input with
  | zero => exact .halt .exhausted input
  | succ granted ih =>
      rw [rounds_eq_branch, rounds_eq_branch]
      split
      · exact .succeed tally input
      · refine .branch (agrees_round hstreams part separator hplace) ?_ ?_
        · intro later next hround
          by_cases hsame : later.position.samePlace tally.position = true
          · simp only [hsame, if_true]
            exact .succeed later next
          · simp only [hsame]
            exact ih (received_of_round hstreams hround hplace)
        · exact fun next _ => .succeed tally next

theorem agrees_repetition (hstreams : Streams text matcher whole) (granted : Nat)
    (part : Pattern) (separator : Option Pattern) (keepSeparators : Bool) (least : Nat)
    (most : Option Nat) (scope : Scope) {place : Position}
    (hplace : place.offset ≤ input.buffer.size) :
    Agrees text
      (repetition matcher granted part separator keepSeparators least most scope place)
      (repetition whole granted part separator keepSeparators least most scope place)
      input := by
  apply Agrees.bind (agrees_rounds hstreams part separator most granted hplace)
  intro tally next _
  split
  · exact .miss next
  · exact .succeed _ next

theorem agrees_keepScope (scope : Scope) {attempt : Attempt π Match}
    {attemptWhole : Attempt Silence Match} (hattempt : Agrees text attempt attemptWhole input) :
    Agrees text (keepScope scope attempt) (keepScope scope attemptWhole) input :=
  .bind hattempt fun _ next _ => .succeed _ next

theorem agrees_follow (hstreams : Streams text matcher whole) (term : Term) (scope : Scope)
    {place : Position} (hplace : place.offset ≤ input.buffer.size) (binding : Binding) :
    Agrees text (follow matcher term scope place binding)
      (follow whole term scope place binding) input := by
  cases binding with
  | rule pattern => exact agrees_keepScope scope (hstreams.agrees pattern scope hplace)
  | value content =>
      rw [follow, follow]
      generalize content.asText? = spelled
      cases spelled with
      | some expected => exact agrees_text expected scope place input
      | none => exact .halt _ input

/-- One level of matching agrees if the matchers below it do. -/
theorem agrees_form (hstreams : Streams text matcher whole) (granted : Nat) (shape : Form)
    (scope : Scope) {place : Position} (hplace : place.offset ≤ input.buffer.size) :
    Agrees text (form matcher granted shape scope place) (form whole granted shape scope place)
      input := by
  cases shape with
  | literal term =>
      apply Agrees.bind (.resolved (term.textOf scope) input)
      exact fun expected next _ => agrees_text expected scope place next
  | charClass members excluded => exact agrees_oneChar members excluded scope place input
  | choice options => exact agrees_firstOf hstreams options scope hplace
  | sequence parts picks =>
      refine .bind (agrees_allOf hstreams parts scope hplace) fun _ between _ => ?_
      refine .bind (.resolved _ between) fun _ next _ => ?_
      exact .succeed _ next
  | repetition part least most separator keepSeparators =>
      apply Agrees.bind (.resolved (resolveBounds scope least most) input)
      intro bounds next hbounds
      obtain ⟨-, rfl⟩ := Attempt.resolved_eq_matched_iff.mp hbounds
      exact agrees_repetition hstreams granted part separator keepSeparators _ _ scope hplace
  | absence inner width =>
      apply Agrees.bind (hstreams.agrees inner scope hplace).absent
      exact fun _ next _ => agrees_wide width scope place next
  | demand inner message =>
      have hinner := hstreams.agrees inner scope hplace
      refine .orElse hinner fun next hmissed => agrees_complain message scope ?_
      exact Nat.le_trans hplace (hinner.after hmissed).size_le
  | capture inner name =>
      exact .bind (hstreams.agrees inner scope hplace) fun _ next _ => .succeed _ next
  | overlay inner bindings =>
      apply Agrees.bind (.resolved (scope.resolveAll bindings) input)
      intro frame next hframe
      obtain ⟨-, rfl⟩ := Attempt.resolved_eq_matched_iff.mp hframe
      exact agrees_keepScope scope (hstreams.agrees inner (scope.push frame) hplace)
  | reference term =>
      apply Agrees.bind (.resolved (term.resolve scope) input)
      intro binding next hbinding
      obtain ⟨-, rfl⟩ := Attempt.resolved_eq_matched_iff.mp hbinding
      exact agrees_follow hstreams term scope hplace binding
  | finish => exact agrees_finish scope place input

end Match

/-- Every pattern may be run on what arrives as well as on a complete text. -/
theorem streams_run (text : String) (granted : Nat) :
    Match.Streams text (Pattern.run (π := π) granted) (Pattern.run granted) := by
  induction granted with
  | zero => exact ⟨fun _ _ _ input _ => .halt .exhausted input, derives_of_run 0⟩
  | succ granted ih =>
      refine ⟨fun pattern scope place input hplace => ?_, derives_of_run (granted + 1)⟩
      apply Agrees.bind (Match.agrees_form ih granted pattern.form scope hplace)
      exact fun _ next _ => .succeed _ next

end ScopedGrammar
