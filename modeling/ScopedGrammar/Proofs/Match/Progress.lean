/-
# Repetitions come to an end

A repetition goes on after a round that it has accepted only if the round has moved, which is
told from the offset alone, across the separator and the part. Since no match moves back and
none moves past the end, every round that is followed by another has taken a character. So
there are no more rounds than characters left and one more, whichever of the part and the
separator takes characters and whichever matches without them, and wherever the repetition
starts.

That the repetition ends is therefore up to what it calls for. Its calls are told round by
round: in a round that is begun, the separator if one is due, and the part after it.
-/

import ScopedGrammar.Proofs.Match.Characters
import ScopedGrammar.Proofs.Match.Nesting
import ScopedGrammar.Proofs.Match.Stopping
import ScopedGrammar.Proofs.Match.Unrolling

namespace ScopedGrammar

/-- With enough steps, a call comes to an end. -/
def Call.Returns (text : String) (call : Call) : Prop :=
  ∃ verdict, Comes text (fun granted => call.pattern.run granted call.scope call.place) verdict

/-- Attempts in a row come to an end if the first one does and, where it matches, the next. -/
theorem exists_comes_bind {α β : Type} {text : String} {first : Nat → Attempt Silence α}
    {next : Nat → α → Attempt Silence β} (hsteady : Steady first)
    (hnext : ∀ result, Steady fun granted => next granted result)
    (hfirst : ∃ verdict, Comes text first verdict)
    (hafter : ∀ middle, Comes text first (.matched middle) →
      ∃ verdict, Comes text (fun granted => next granted middle) verdict) :
    ∃ verdict, Comes text (fun granted => first granted >>= next granted) verdict := by
  obtain ⟨middle | _ | reason, hfirst⟩ := hfirst
  · obtain ⟨result | _ | reason, hresult⟩ := hafter middle hfirst
    · exact ⟨_, (comes_bind_matched_iff hsteady hnext).mpr ⟨middle, hfirst, hresult⟩⟩
    · exact ⟨_, comes_bind_missed_of_next hsteady hnext hfirst hresult⟩
    · exact ⟨_, comes_bind_halted_of_next hsteady hnext hfirst hresult⟩
  · exact ⟨_, comes_bind_missed_of_first hfirst⟩
  · exact ⟨_, comes_bind_halted_of_first hfirst⟩

namespace Match

variable (text : String) (part : Pattern) (separator : Option Pattern) (most : Option Nat)

/-- A repetition accepts one more round. -/
structure Accepts (tally later : Tally) : Prop where
  open_ : tally.isFull most = false
  round : Comes text (fun granted => Match.round (Pattern.run granted) part separator tally)
    (.matched later)

/-- A repetition accepts one more round and goes on after it. -/
structure GoesOn (tally later : Tally) : Prop extends
    Accepts text part separator most tally later where
  moved : later.position.samePlace tally.position = false

/-- A repetition that starts at a place comes to a tally and begins another round. -/
structure Begins (scope : Scope) (place : Position) (tally : Tally) : Prop where
  rounds : Relation.ReflTransGen (GoesOn text part separator most) ⟨#[], #[], place, scope⟩ tally
  open_ : tally.isFull most = false

/-- What a round calls for: the separator, unless it is the first round or there is none, and
the part where the separator has ended. -/
inductive RoundCalls (tally : Tally) : Call → Prop
  | separator {between : Pattern} (due : separator = some between)
      (later : tally.parts.isEmpty = false) :
      RoundCalls tally ⟨between, tally.scope, tally.position⟩
  | part {ready : Tally}
      (separated : Comes text (fun granted => beforePart (Pattern.run granted) separator tally)
        (.matched ready)) :
      RoundCalls tally ⟨part, ready.scope, ready.position⟩

variable {text part separator most} {tally later : Tally} {scope : Scope} {place : Position}

theorem steady_beforePart (separator : Option Pattern) (tally : Tally) :
    Steady fun granted => beforePart (π := Silence) (Pattern.run granted) separator tally :=
  ⟨fun granted => grows_beforePart (grows_run granted) separator tally,
    fun granted => keptBy_beforePart (keptBy_run_succ granted) separator tally⟩

theorem steady_round (part : Pattern) (separator : Option Pattern) (tally : Tally) :
    Steady fun granted => Match.round (π := Silence) (Pattern.run granted) part separator tally :=
  ⟨fun granted => grows_round (grows_run granted) part separator tally,
    fun granted => keptBy_round (keptBy_run_succ granted) part separator tally⟩

/-- A round comes to an end if its calls do. -/
theorem exists_comes_round
    (hreturns : ∀ call, RoundCalls text part separator tally call → call.Returns text) :
    ∃ verdict, Comes text
      (fun granted => Match.round (Pattern.run granted) part separator tally) verdict := by
  refine exists_comes_bind (steady_beforePart separator tally) (fun ready => ?_) ?_ ?_
  · exact .bind (.run part ready.scope ready.position) fun _ => .const (.succeed _)
  · cases hseparator : separator with
    | none => exact ⟨_, .const rfl rfl⟩
    | some between =>
        unfold beforePart
        cases hfirst : tally.parts.isEmpty with
        | true => exact ⟨_, .const rfl rfl⟩
        | false =>
            exact exists_comes_bind (.run between tally.scope tally.position)
              (fun _ => .const (.succeed _)) (hreturns _ (.separator hseparator hfirst))
              fun _ _ => ⟨_, .const rfl rfl⟩
  · intro ready hready
    exact exists_comes_bind (.run part ready.scope ready.position)
      (fun _ => .const (.succeed _)) (hreturns _ (.part hready)) fun _ _ => ⟨_, .const rfl rfl⟩

/-- A round that is accepted adds one part, and leads on over the text. -/
theorem Accepts.advances (haccepts : Accepts text part separator most tally later) :
    later.parts.size = tally.parts.size + 1 ∧
      tally.position.Leads text.toList later.position := by
  obtain ⟨-, granted, hround⟩ := haccepts.round
  obtain ⟨turn, hderived, hparts, -⟩ := derives_of_round (derives_of_run granted) hround
  have hleads := hderived.leads
  rw [Input.ofText, List.toList_toArray] at hleads
  exact ⟨by rw [hparts, Array.size_push], hleads⟩

/-- There is a character for every round after which a repetition has gone on. -/
theorem size_le_of_rounds
    (hrounds : Relation.ReflTransGen (GoesOn text part separator most)
      ⟨#[], #[], place, scope⟩ tally) :
    place.offset + tally.parts.size ≤ tally.position.offset ∧
      tally.position.offset ≤ max place.offset text.length := by
  induction hrounds with
  | refl => exact ⟨Nat.le_refl _, Nat.le_max_left _ _⟩
  | @tail tally later _ hlater ih =>
      obtain ⟨hsize, hleads⟩ := hlater.advances
      have hforward := hleads.offset_le
      have hbound := hleads.offset_le_max
      have hmoved : later.position.offset ≠ tally.position.offset := by
        simpa [Position.samePlace] using hlater.moved
      -- Not back and not in place, so forward; and from within the text not past its end.
      rw [String.length_toList] at hbound
      omega

variable (text part separator most)

/-- With enough steps and enough rounds granted, those from a tally on come to a verdict. -/
def RoundsCome (tally : Tally) (verdict : Verdict Tally) : Prop :=
  verdict.isExhausted = false ∧ ∃ enough, ∀ granted turns, enough ≤ granted → enough ≤ turns →
    rounds (Pattern.run granted) part separator most turns tally (Input.ofText text) =
      (verdict, Input.ofText text)

/-- What rounds come to if one of them is the last: where it misses, to what there was before. -/
def Tally.closing (tally : Tally) : Verdict Tally → Verdict Tally
  | .missed => .matched tally
  | last => last

variable {text part separator most} {verdict : Verdict Tally}

namespace RoundsCome

theorem full (hfull : tally.isFull most = true) :
    RoundsCome text part separator most tally (.matched tally) := by
  refine ⟨rfl, 1, fun granted turns _ hturns => ?_⟩
  obtain ⟨turns, rfl⟩ := Nat.exists_eq_add_of_le' hturns
  rw [rounds, if_pos hfull]

/-- A round that misses, halts or has not moved is the last. -/
theorem last (hopen : tally.isFull most = false)
    (hround : Comes text
      (fun granted => Match.round (Pattern.run granted) part separator tally) verdict)
    (hstill : ∀ later, verdict = .matched later →
      later.position.samePlace tally.position = true) :
    RoundsCome text part separator most tally (tally.closing verdict) := by
  obtain ⟨enough, henough⟩ := hround.eventually (steady_round part separator tally)
  refine ⟨?_, enough + 1, fun granted turns hgranted hturns => ?_⟩
  · have hends := hround.1
    cases verdict with
    | missed => rfl
    | _ => exact hends
  · obtain ⟨turns, rfl⟩ := Nat.exists_eq_add_of_le' (Nat.le_trans (Nat.le_add_left 1 _) hturns)
    rw [rounds_eq_branch, if_neg (Bool.eq_false_iff.mp hopen)]
    simp only [Attempt.branch, henough granted (by omega)]
    cases verdict with
    | matched later => exact if_pos (hstill later rfl)
    | _ => rfl

/-- After a round that has moved, the rounds come to what those after it come to. -/
theorem after (hgoes : GoesOn text part separator most tally later)
    (hlater : RoundsCome text part separator most later verdict) :
    RoundsCome text part separator most tally verdict := by
  obtain ⟨enough, henough⟩ := hgoes.round.eventually (steady_round part separator tally)
  obtain ⟨hends, further, hfurther⟩ := hlater
  refine ⟨hends, max enough further + 1, fun granted turns hgranted hturns => ?_⟩
  obtain ⟨turns, rfl⟩ := Nat.exists_eq_add_of_le' (Nat.le_trans (Nat.le_add_left 1 _) hturns)
  rw [rounds_eq_branch, if_neg (Bool.eq_false_iff.mp hgoes.open_)]
  simp only [Attempt.branch, henough granted (by omega)]
  rw [if_neg (Bool.eq_false_iff.mp hgoes.moved)]
  exact hfurther granted turns (by omega) (by omega)

theorem after_all {start : Tally}
    (hrounds : Relation.ReflTransGen (GoesOn text part separator most) start tally)
    (hcome : RoundsCome text part separator most tally verdict) :
    RoundsCome text part separator most start verdict := by
  induction hrounds using Relation.ReflTransGen.head_induction_on with
  | refl => exact hcome
  | head hgoes _ ih => exact ih.after hgoes

/-- What the rounds come to from the start on, as a repetition collects it. -/
theorem upTo (hcome : RoundsCome text part separator most ⟨#[], #[], place, scope⟩ verdict) :
    Comes text
      (fun granted => Match.upTo (Pattern.run granted) granted part separator most scope place)
      verdict := by
  obtain ⟨hends, enough, henough⟩ := hcome
  exact ⟨hends, enough, henough enough enough (Nat.le_refl _) (Nat.le_refl _)⟩

end RoundsCome

/-- A repetition has no more parts than there are characters left and one. -/
theorem size_le_of_accepts
    (hrounds : Relation.ReflTransGen (GoesOn text part separator most)
      ⟨#[], #[], place, scope⟩ tally)
    (haccepts : Accepts text part separator most tally later) :
    later.parts.size ≤ text.length - place.offset + 1 := by
  have hbefore := size_le_of_rounds hrounds
  have hsize := haccepts.advances.1
  omega

/-- An accepted round moves on, or it is the last. -/
theorem moved_or_last
    (hrounds : Relation.ReflTransGen (GoesOn text part separator most)
      ⟨#[], #[], place, scope⟩ tally)
    (haccepts : Accepts text part separator most tally later) :
    tally.position.offset < later.position.offset ∨
      later.position.offset = tally.position.offset ∧
        RoundsCome text part separator most ⟨#[], #[], place, scope⟩ (.matched later) := by
  have hforward := haccepts.advances.2.offset_le
  by_cases hsame : later.position.offset = tally.position.offset
  · have hstill : later.position.samePlace tally.position = true := by
      simpa [Position.samePlace] using hsame
    exact .inr ⟨hsame, .after_all hrounds
      (.last haccepts.open_ haccepts.round fun _ hlater => by cases hlater; exact hstill)⟩
  · exact .inl (by omega)

/-- Rounds come to an end if all that are begun do, with no more parts than may be accepted.
The induction is on the characters that are left: a round after which the repetition goes on
has taken one. -/
theorem exists_roundsCome
    (hreturns : ∀ tally, Begins text part separator most scope place tally →
      ∀ call, RoundCalls text part separator tally call → call.Returns text)
    (hrounds : Relation.ReflTransGen (GoesOn text part separator most)
      ⟨#[], #[], place, scope⟩ tally) :
    ∃ verdict, RoundsCome text part separator most tally verdict ∧
      ∀ last, verdict = .matched last →
        last.parts.size ≤ text.length - place.offset + 1 := by
  induction hleft : max place.offset text.length - tally.position.offset using
    Nat.strong_induction_on generalizing tally with
  | h left ih =>
      have hfew : tally.parts.size ≤ text.length - place.offset + 1 := by
        have hbefore := size_le_of_rounds hrounds
        omega
      cases hopen : tally.isFull most with
      | true => exact ⟨_, .full hopen, fun _ hlast => by cases hlast; exact hfew⟩
      | false =>
          obtain ⟨verdict, hround⟩ := exists_comes_round (hreturns tally ⟨hrounds, hopen⟩)
          rcases verdict with later | _ | reason
          · have haccepts : Accepts text part separator most tally later := ⟨hopen, hround⟩
            cases hmoved : later.position.samePlace tally.position with
            | true =>
                exact ⟨_, .last hopen hround fun _ hsame => by cases hsame; exact hmoved,
                  fun _ hlast => by cases hlast; exact size_le_of_accepts hrounds haccepts⟩
            | false =>
                -- The next tally is reached too, with fewer characters left.
                have hgoes : GoesOn text part separator most tally later := ⟨haccepts, hmoved⟩
                have hlater := hrounds.tail hgoes
                have hforward := haccepts.advances.2.offset_le
                have hbound := (size_le_of_rounds hlater).2
                have hdifferent : later.position.offset ≠ tally.position.offset := by
                  simpa [Position.samePlace] using hmoved
                obtain ⟨verdict, hcome, hsize⟩ := ih _ (by omega) hlater rfl
                exact ⟨verdict, hcome.after hgoes, hsize⟩
          · refine ⟨_, .last hopen hround ?_, fun _ hlast => by cases hlast; exact hfew⟩
            rintro later ⟨⟩
          · refine ⟨_, .last hopen hround ?_, ?_⟩ <;> rintro later ⟨⟩

end Match

namespace Call

variable {text : String}

/-- A call that does not run out of a number of steps comes to an end. -/
theorem returns_of_run (call : Call) (granted : Nat)
    (hrun : (call.pattern.run granted call.scope call.place
      (Input.ofText text)).1.isExhausted = false) : call.Returns text :=
  ⟨_, hrun, granted, Prod.ext rfl ((Steady.run call.pattern call.scope call.place).settled rfl)⟩

/-- A repetition comes to an end as its rounds do. -/
theorem returns_repetition {part : Pattern} {least : Term} {upper : Option Term}
    {separator : Option Pattern} {keepSeparators : Bool} {factory : Option (Value → Value)}
    {label : Option String} {scope : Scope} {place : Position} {low : Nat} {most : Option Nat}
    {verdict : Verdict Match.Tally}
    (hbounds : Match.resolveBounds scope least upper = .ok (low, most))
    (hcome : Match.RoundsCome text part separator most ⟨#[], #[], place, scope⟩ verdict) :
    (Call.mk (.mk (.repetition part least upper separator keepSeparators) factory label)
      scope place).Returns text := by
  obtain ⟨hends, enough, henough⟩ := hcome
  refine returns_of_run _ (enough + 1) ?_
  rw [Pattern.run_repetition hbounds, henough enough enough (Nat.le_refl _) (Nat.le_refl _)]
  cases verdict with
  | matched tally =>
      dsimp only
      split <;> rfl
  | missed => rfl
  | halted reason => exact hends

/-- A choice of literals comes to an end wherever it is called for. -/
theorem returns_choice_of_literals (options : List String) (scope : Scope) (place : Position) :
    (Call.mk (.choice (options.map .literal)) scope place).Returns text := by
  refine returns_of_run _ 2 ?_
  rw [Pattern.run_choice]
  cases hchoice : Match.firstOf (Pattern.run 1) (options.map .literal) scope place
    (Input.ofText text) with
  | mk verdict after =>
      cases verdict with
      | halted reason =>
          obtain ⟨earlier, option, later, between, hoptions, -, hhalted⟩ :=
            Match.firstOf_eq_halted hchoice
          have hoption : option ∈ options.map Pattern.literal := by simp [hoptions]
          obtain ⟨expected, -, rfl⟩ := List.mem_map.mp hoption
          rw [Pattern.run_literal] at hhalted
          exact absurd hhalted Match.text_ne_halted
      | _ => rfl

end Call

/-- Repetitions come to an end, wherever they start and whatever their part and separator take,
if the calls that they make do. They accept no more parts than there are characters left and
one, since an accepted round has moved on unless the repetition ends with it. -/
theorem repetition_ends (text : String) (part : Pattern) (least : Term) (upper : Option Term)
    (separator : Option Pattern) (keepSeparators : Bool) (factory : Option (Value → Value))
    (label : Option String) (scope : Scope) (place : Position)
    (hreturns : ∀ low most, Match.resolveBounds scope least upper = .ok (low, most) →
      ∀ tally, Match.Begins text part separator most scope place tally →
      ∀ call, Match.RoundCalls text part separator tally call → call.Returns text) :
    (Call.mk (.mk (.repetition part least upper separator keepSeparators) factory label)
        scope place).Returns text ∧
      ∀ low most, Match.resolveBounds scope least upper = .ok (low, most) →
        (∃ verdict,
          Comes text
            (fun granted =>
              Match.upTo (Pattern.run granted) granted part separator most scope place)
            verdict ∧
          ∀ last, verdict = .matched last →
            last.parts.size ≤ text.length - place.offset + 1) ∧
        ∀ tally later, Match.Begins text part separator most scope place tally →
          Match.Accepts text part separator most tally later →
            later.parts.size = tally.parts.size + 1 ∧
            later.parts.size ≤ text.length - place.offset + 1 ∧
            (tally.position.offset < later.position.offset ∨
              later.position.offset = tally.position.offset ∧
              Comes text
                (fun granted =>
                  Match.upTo (Pattern.run granted) granted part separator most scope place)
                (.matched later)) := by
  constructor
  · cases hbounds : Match.resolveBounds scope least upper with
    | error defect =>
        refine Call.returns_of_run _ 1 ?_
        rw [Pattern.run_repetition_of_defect hbounds]
        rfl
    | ok bounds =>
        obtain ⟨verdict, hcome, -⟩ :=
          Match.exists_roundsCome (hreturns bounds.1 bounds.2 hbounds) .refl
        exact Call.returns_repetition hbounds hcome
  · intro low most hbounds
    refine ⟨?_, fun tally later hbegins haccepts => ?_⟩
    · obtain ⟨verdict, hcome, hsize⟩ :=
        Match.exists_roundsCome (hreturns low most hbounds) .refl
      exact ⟨verdict, hcome.upTo, hsize⟩
    · refine ⟨haccepts.advances.1, Match.size_le_of_accepts hbegins.rounds haccepts, ?_⟩
      exact (Match.moved_or_last hbegins.rounds haccepts).imp_right fun hlast =>
        ⟨hlast.1, hlast.2.upTo⟩

/-- Letters between commas where both may be left out, at the start of two letters and far past
their end, where only one empty part may be accepted. -/
theorem repetition_ends_past_end :
    let letter := Pattern.choice (["a", ""].map .literal)
    let comma := Pattern.choice ([",", ""].map .literal)
    let far : Position := ⟨1, 8, 7⟩
    (Call.mk (letter.separatedBy comma) Scope.empty Position.start).Returns "aa" ∧
      (Call.mk (letter.separatedBy comma) Scope.empty far).Returns "aa" ∧
      ∃ verdict,
        Comes "aa"
          (fun granted =>
            Match.upTo (Pattern.run granted) granted letter (some comma) none Scope.empty far)
          verdict ∧
        ∀ last, verdict = .matched last → last.parts.size ≤ 1 := by
  intro letter comma far
  have hreturns (most : Option Nat) (tally : Match.Tally) (call : Call)
      (hcall : Match.RoundCalls "aa" letter (some comma) tally call) : call.Returns "aa" := by
    cases hcall with
    | separator due _ =>
        cases due
        exact Call.returns_choice_of_literals [",", ""] _ _
    | part _ => exact Call.returns_choice_of_literals ["a", ""] _ _
  have hends (place : Position) :=
    repetition_ends "aa" letter (.ofCount 0) none (some comma) false none none Scope.empty place
      fun _ most _ tally _ call hcall => hreturns most tally call hcall
  have hbounds : Match.resolveBounds Scope.empty (.ofCount 0) none = .ok (0, none) := by cbv
  exact ⟨(hends Position.start).1, (hends far).1, ((hends far).2 0 none hbounds).1⟩

end ScopedGrammar
