/-
# Matches within matches

To match a pattern is to match other patterns within it: its parts, the options of a choice,
what an absence looks for, the rules that its names mean. Each of these is a call: a pattern,
a scope and a position. A form calls for a part only after the parts before it have matched,
for an option only after the options before it have missed, and for a further round of a
repetition only after each round before has moved on. That these are all the calls is a
theorem: a form comes to the same with any matcher that answers them as a run does.

In a grammar within a ranking, a call within a call stands at a later offset or has a smaller
height. So calls do not go on within one another for ever, and what is called for again has
taken a character in between. Repetitions take a character in every round but the last.
-/

import Mathlib.Logic.Relation
import ScopedGrammar.Proofs.Match.Repetition
import ScopedGrammar.Proofs.Match.Termination

namespace ScopedGrammar

variable {text : String} {scope inner : Scope} {place stop : Position}

/-- A pattern that is to be matched in a scope at a position. -/
structure Call where
  pattern : Pattern
  scope : Scope
  place : Position

/-- What a form calls for, in a scope and at a position of a text. -/
inductive Form.Calls (text : String) (scope : Scope) (place : Position) : Form → Call → Prop
  | option {earlier later : List Pattern} {option : Pattern}
      (missed : ∀ other ∈ earlier, other.Misses text scope place) :
      Calls text scope place (.choice (earlier ++ option :: later)) ⟨option, scope, place⟩
  | part {before after : List Pattern} {part : Pattern} {picks : Option (List Nat)}
      {values : List Value} {stop : Position} {inner : Scope}
      (matched : RowMatches text before scope place values stop inner) :
      Calls text scope place (.sequence (before ++ part :: after) picks) ⟨part, inner, stop⟩
  | round {part called : Pattern} {least : Term} {most : Option Term}
      {separator : Option Pattern} {keepSeparators : Bool} {count : Nat}
      {before after : List Pattern} {earlier values : List Value} {middle stop : Position}
      {within inner : Scope}
      (rounds : RowMatches text (unrolled part separator count) scope place earlier middle within)
      (moved : place.offset + count ≤ middle.offset)
      (row : dueAfter separator count ++ [part] = before ++ called :: after)
      (matched : RowMatches text before within middle values stop inner) :
      Calls text scope place (.repetition part least most separator keepSeparators)
        ⟨called, inner, stop⟩
  | absence {looked : Pattern} {width : Nat} :
      Calls text scope place (.absence looked width) ⟨looked, scope, place⟩
  | demand {demanded : Pattern} {message : Message} :
      Calls text scope place (.demand demanded message) ⟨demanded, scope, place⟩
  | capture {captured : Pattern} {name : String} :
      Calls text scope place (.capture captured name) ⟨captured, scope, place⟩
  | overlay {overlaid : Pattern} {bindings : List (String × Term)} {frame : Frame}
      (known : scope.resolveAll bindings = .ok frame) :
      Calls text scope place (.overlay overlaid bindings) ⟨overlaid, scope.push frame, place⟩
  | rule {term : Term} {rule : Pattern} (known : term.resolve scope = .ok (.rule rule)) :
      Calls text scope place (.reference term) ⟨rule, scope, place⟩

/-- One call directly within another. -/
def Call.Nests (text : String) (outer inner : Call) : Prop :=
  outer.pattern.form.Calls text outer.scope outer.place inner

/-- Two matchers answer a call alike. -/
def Call.AnsweredAlike (text : String) (matcher other : Matcher Silence) (call : Call) : Prop :=
  matcher call.pattern call.scope call.place (Input.ofText text) =
    other call.pattern call.scope call.place (Input.ofText text)

theorem RowMatches.append {first second : List Pattern} {values others : List Value}
    {middle : Position} {within : Scope}
    (hfirst : RowMatches text first scope place values middle within)
    (hsecond : RowMatches text second within middle others stop inner) :
    RowMatches text (first ++ second) scope place (values ++ others) stop inner := by
  induction first generalizing scope place values with
  | nil =>
      obtain ⟨rfl, rfl, rfl⟩ := rowMatches_nil_iff.mp hfirst
      exact hsecond
  | cons part rest ih =>
      obtain ⟨matched, more, hpart, hrest, rfl⟩ := rowMatches_cons_iff.mp hfirst
      exact .cons hpart (ih hrest)

namespace Match

variable {matcher : Matcher Silence} {granted : Nat}

/-- Options are asked for one after the other, up to one that does not miss. -/
theorem firstOf_eq_of_calls {options : List Pattern}
    (hcalls : ∀ earlier option later, options = earlier ++ option :: later →
      (∀ other ∈ earlier, other.Misses text scope place) →
      Call.AnsweredAlike text matcher (Pattern.run granted) ⟨option, scope, place⟩) :
    firstOf matcher options scope place (Input.ofText text) =
      firstOf (Pattern.run granted) options scope place (Input.ofText text) := by
  induction options with
  | nil => rfl
  | cons option rest ih =>
      have hoption := hcalls [] option rest rfl (List.forall_mem_nil _)
      unfold Call.AnsweredAlike at hoption
      rw [firstOf, firstOf, Attempt.orElse, Attempt.orElse, hoption]
      cases hending : option.run granted scope place (Input.ofText text) with
      | mk verdict next =>
          have hsame := (Steady.run option scope place).settled hending
          subst hsame
          cases verdict with
          | matched result => rfl
          | halted reason => rfl
          | missed =>
              apply ih
              rintro earlier other later rfl hmissed
              refine hcalls (option :: earlier) other later rfl ?_
              rw [List.forall_mem_cons]
              exact ⟨⟨rfl, granted, hending⟩, hmissed⟩

/-- Parts are asked for one after the other, each where the part before has ended. -/
theorem allOf_eq_of_calls {parts : List Pattern}
    (hcalls : ∀ before part after values stop inner, parts = before ++ part :: after →
      RowMatches text before scope place values stop inner →
      Call.AnsweredAlike text matcher (Pattern.run granted) ⟨part, inner, stop⟩) :
    allOf matcher parts scope place (Input.ofText text) =
      allOf (Pattern.run granted) parts scope place (Input.ofText text) := by
  induction parts generalizing scope place with
  | nil => rfl
  | cons part rest ih =>
      have hpart := hcalls [] part rest [] place scope rfl (rowMatches_nil_iff.mpr ⟨rfl, rfl, rfl⟩)
      unfold Call.AnsweredAlike at hpart
      simp only [allOf, Attempt.bind_eq_andThen, Attempt.andThen]
      rw [hpart]
      cases hending : part.run granted scope place (Input.ofText text) with
      | mk verdict next =>
          have hsame := (Steady.run part scope place).settled hending
          subst hsame
          cases verdict with
          | missed => rfl
          | halted reason => rfl
          | matched first =>
              have hfirst : part.Matches text scope place first := ⟨rfl, granted, hending⟩
              dsimp only
              rw [ih]
              rintro before other after values stop inner rfl hbefore
              exact hcalls (part :: before) other after (first.value :: values) stop inner rfl
                (.cons hfirst hbefore)

/-- Rounds that follow rounds which have moved on ask for the parts of a further round. -/
theorem rounds_eq_of_calls {part : Pattern} {least : Term} {mostTerm : Option Term}
    {separator : Option Pattern} {keepSeparators : Bool} {most : Option Nat} {turns : Nat}
    {tally : Tally} {earlier : List Value}
    (hrounds : RowMatches text (unrolled part separator tally.parts.size) scope place earlier
      tally.position tally.scope)
    (hmoved : place.offset + tally.parts.size ≤ tally.position.offset)
    (hcalls : ∀ call, Form.Calls text scope place
      (.repetition part least mostTerm separator keepSeparators) call →
      Call.AnsweredAlike text matcher (Pattern.run granted) call) :
    rounds matcher part separator most turns tally (Input.ofText text) =
      rounds (Pattern.run granted) part separator most turns tally (Input.ofText text) := by
  induction turns generalizing tally earlier with
  | zero => rfl
  | succ turns ih =>
      have hround : round matcher part separator tally (Input.ofText text) =
          round (Pattern.run granted) part separator tally (Input.ofText text) := by
        rw [round_eq_allOf, round_eq_allOf]
        simp only [Attempt.bind_eq_andThen, Attempt.andThen]
        rw [allOf_eq_of_calls]
        intro before called after values stop inner hrow hbefore
        exact hcalls _ (.round hrounds hmoved hrow hbefore)
      rw [rounds, rounds, hround]
      split
      · rfl
      cases hending : round (Pattern.run granted) part separator tally (Input.ofText text) with
      | mk verdict next =>
          cases verdict with
          | missed => rfl
          | halted reason => rfl
          | matched later =>
              dsimp only
              split
              · rfl
              next hstill =>
                rw [round_eq_allOf] at hending
                obtain ⟨⟨values, last, within⟩, between, hrow, hlater⟩ :=
                  Attempt.andThen_eq_matched_iff.mp hending
                have hsame := (Steady.allOf _ tally.scope tally.position).settled hrow
                subst hsame
                cases hlater
                have hone : RowMatches text (dueAfter separator tally.parts.size ++ [part])
                    tally.scope tally.position values last within := ⟨rfl, granted, hrow⟩
                have hleads : tally.position.offset ≤ last.offset :=
                  (derives_of_allOf (derives_of_run granted) hrow).leads.offset_le
                have hsize : (tally.withRow (values, last, within)).parts.size =
                    tally.parts.size + 1 := Array.size_push _
                have hfurther : last.offset ≠ tally.position.offset := by
                  simpa [Tally.withRow, Position.samePlace] using hstill
                apply ih
                · rw [hsize, unrolled]
                  exact hrounds.append hone
                · rw [hsize]
                  have hless := Nat.lt_of_le_of_ne hleads (Ne.symm hfurther)
                  show place.offset + (tally.parts.size + 1) ≤ last.offset
                  omega

/-- A form comes to the same with any matcher that answers its calls as a run does. -/
theorem form_eq_of_calls {shape : Form} (turns : Nat)
    (hcalls : ∀ call, shape.Calls text scope place call →
      Call.AnsweredAlike text matcher (Pattern.run granted) call) :
    form matcher turns shape scope place (Input.ofText text) =
      form (Pattern.run granted) turns shape scope place (Input.ofText text) := by
  cases shape with
  | literal term => rfl
  | charClass members excluded => rfl
  | finish => rfl
  | choice options =>
      apply firstOf_eq_of_calls
      rintro earlier option later rfl hmissed
      exact hcalls _ (.option hmissed)
  | sequence parts picks =>
      simp only [form, Attempt.bind_eq_andThen, Attempt.andThen]
      rw [allOf_eq_of_calls]
      rintro before part after values stop inner rfl hbefore
      exact hcalls _ (.part hbefore)
  | repetition part least most separator keepSeparators =>
      simp only [form, Attempt.bind_eq_andThen, Attempt.andThen]
      cases hbounds : resolveBounds scope least most with
      | error defect => rfl
      | ok bounds =>
          have hnone : RowMatches text (unrolled part separator 0) scope place [] place scope :=
            rowMatches_nil_iff.mpr ⟨rfl, rfl, rfl⟩
          have hrounds : upTo matcher turns part separator bounds.2 scope place
              (Input.ofText text) = upTo (Pattern.run granted) turns part separator bounds.2
                scope place (Input.ofText text) :=
            rounds_eq_of_calls hnone (Nat.le_refl _) hcalls
          simp only [Attempt.resolved, Attempt.succeed, repetition, Attempt.bind_eq_andThen,
            Attempt.andThen, hrounds]
  | absence looked width =>
      have hlooked := hcalls _ .absence
      unfold Call.AnsweredAlike at hlooked
      simp only [form, Attempt.bind_eq_andThen, Attempt.andThen, Attempt.absent, hlooked]
  | demand demanded message =>
      have hdemanded := hcalls _ .demand
      unfold Call.AnsweredAlike at hdemanded
      simp only [form, Attempt.orElse, hdemanded]
  | capture captured name =>
      have hcaptured := hcalls _ .capture
      unfold Call.AnsweredAlike at hcaptured
      simp only [form, Attempt.bind_eq_andThen, Attempt.andThen, hcaptured]
  | overlay overlaid bindings =>
      simp only [form, Attempt.bind_eq_andThen, Attempt.andThen]
      cases hframe : scope.resolveAll bindings with
      | error defect => rfl
      | ok frame =>
          have hoverlaid := hcalls _ (.overlay hframe)
          unfold Call.AnsweredAlike at hoverlaid
          simp only [Attempt.resolved, Attempt.succeed, keepScope, Attempt.bind_eq_andThen,
            Attempt.andThen, hoverlaid]
  | reference target =>
      simp only [form, Attempt.bind_eq_andThen, Attempt.andThen]
      cases hbinding : target.resolve scope with
      | error defect => rfl
      | ok binding =>
          cases binding with
          | value content => rfl
          | rule pattern =>
              have hrule := hcalls _ (.rule hbinding)
              unfold Call.AnsweredAlike at hrule
              simp only [Attempt.resolved, Attempt.succeed, follow, keepScope,
                Attempt.bind_eq_andThen, Attempt.andThen, hrule]

/-- A repetition has no more rounds than there are characters left and one, so more of them
change nothing. -/
theorem rounds_eq_of_left_lt {part : Pattern} {separator : Option Pattern} {most : Option Nat}
    {turns others : Nat} {tally : Tally} (hplace : tally.position.offset ≤ text.length)
    (hturns : text.length - tally.position.offset < turns)
    (hothers : text.length - tally.position.offset < others) :
    rounds (Pattern.run granted) part separator most turns tally (Input.ofText text) =
      rounds (Pattern.run granted) part separator most others tally (Input.ofText text) := by
  induction turns generalizing others tally with
  | zero => exact absurd hturns (Nat.not_lt_zero _)
  | succ turns ih =>
      obtain ⟨others, rfl⟩ := Nat.exists_eq_succ_of_ne_zero (Nat.ne_zero_of_lt hothers)
      rw [rounds, rounds]
      split
      · rfl
      cases hending : round (Pattern.run granted) part separator tally (Input.ofText text) with
      | mk verdict next =>
          cases verdict with
          | missed => rfl
          | halted reason => rfl
          | matched later =>
              dsimp only
              split
              · rfl
              next hstill =>
                obtain ⟨turn, hround, -⟩ := derives_of_round (derives_of_run granted) hending
                obtain ⟨hnext, hleads, hlast⟩ := hround.settles rfl hplace
                have hfurther : later.position.offset ≠ tally.position.offset := by
                  simpa [Position.samePlace] using hstill
                dsimp only at hnext hleads hlast
                subst hnext
                -- The round has taken a character, so one turn less is enough on both sides.
                exact ih hlast (by omega) (by omega)

/-- A form comes to the same with any number of rounds that is more than the characters left. -/
theorem form_eq_of_left_lt {shape : Form} {turns others : Nat}
    (hplace : place.offset ≤ text.length) (hturns : text.length - place.offset < turns)
    (hothers : text.length - place.offset < others) :
    form (Pattern.run granted) turns shape scope place (Input.ofText text) =
      form (Pattern.run granted) others shape scope place (Input.ofText text) := by
  cases shape with
  | repetition part least most separator keepSeparators =>
      simp only [form, Attempt.bind_eq_andThen, Attempt.andThen]
      cases hbounds : resolveBounds scope least most with
      | error defect => rfl
      | ok bounds =>
          have hrounds : upTo (Pattern.run granted) turns part separator bounds.2 scope place
              (Input.ofText text) = upTo (Pattern.run granted) others part separator bounds.2
                scope place (Input.ofText text) :=
            rounds_eq_of_left_lt hplace hturns hothers
          simp only [Attempt.resolved, Attempt.succeed, repetition, Attempt.bind_eq_andThen,
            Attempt.andThen, hrounds]
  | _ => rfl

end Match

namespace Ranking

variable {ranking : Ranking}

/-- A call within a ranking: its scope is ranked, its pattern is admitted and its position is
in the text. -/
structure Covers (ranking : Ranking) (text : String) (call : Call) : Prop where
  ranks : ranking.Ranks call.scope
  admitted : call.pattern.all ranking.admits = true
  inText : call.place.offset ≤ text.length

/-- What comes after parts that do not take a character counts for the height of a row. -/
theorem patternHeight_le_rowHeight {before after : List Pattern} {part : Pattern}
    (hstill : ranking.oneMoves before = false) :
    ranking.patternHeight part ≤ ranking.rowHeight (before ++ part :: after) := by
  induction before with
  | nil =>
      rw [List.nil_append, rowHeight]
      split
      · exact Nat.le_refl _
      · exact Nat.le_max_left _ _
  | cons first rest ih =>
      rw [oneMoves, Bool.or_eq_false_iff] at hstill
      rw [List.cons_append, rowHeight, hstill.1]
      exact (ih hstill.2).trans (Nat.le_max_right _ _)

/-- After a row of parts within a ranking, the scope is ranked, and a character has been taken
if one of the parts takes one. -/
theorem Ranks.row {parts : List Pattern} {values : List Value} (hranks : ranking.Ranks scope)
    (hadmits : ranking.Admits (.parts parts)) (hplace : place.offset ≤ text.length)
    (hrow : RowMatches text parts scope place values stop inner) :
    ranking.Ranks inner ∧ place.offset ≤ stop.offset ∧ stop.offset ≤ text.length ∧
      (ranking.oneMoves parts = true → place.offset < stop.offset) := by
  obtain ⟨-, granted, hrun⟩ := hrow
  have hderives := Match.derives_of_allOf (derives_of_run granted) hrun
  obtain ⟨hscope, hmoves⟩ := hderives.ranked hadmits hranks
  obtain ⟨-, hleads, hlast⟩ := hderives.settles rfl hplace
  exact ⟨hscope, hleads, hlast, hmoves⟩

/-- A part that is called for after those before it stands further on, or within the height of
the row. -/
theorem Ranks.part {before after : List Pattern} {part : Pattern} {values : List Value}
    (hranks : ranking.Ranks scope) (hadmits : ranking.Admits (.parts (before ++ part :: after)))
    (hplace : place.offset ≤ text.length)
    (hrow : RowMatches text before scope place values stop inner) :
    ranking.Covers text ⟨part, inner, stop⟩ ∧ place.offset ≤ stop.offset ∧
      (place.offset = stop.offset →
        ranking.patternHeight part ≤ ranking.rowHeight (before ++ part :: after)) := by
  have hbefore : ranking.Admits (.parts before) :=
    fun other hother => hadmits other (List.mem_append_left _ hother)
  obtain ⟨hscope, hleads, hlast, hmoves⟩ := hranks.row hbefore hplace hrow
  refine ⟨⟨hscope, hadmits part (by simp), hlast⟩, hleads, fun hsame => ?_⟩
  apply patternHeight_le_rowHeight
  rw [← Bool.not_eq_true]
  exact fun hone => Nat.ne_of_lt (hmoves hone) hsame

/-- A call within a call is within the ranking too, and where no character has been taken it
has a smaller height. -/
theorem Covers.nested {outer inner : Call} (hcovers : ranking.Covers text outer)
    (hnests : outer.Nests text inner) :
    ranking.Covers text inner ∧ outer.place.offset ≤ inner.place.offset ∧
      (outer.place.offset = inner.place.offset →
        ranking.patternHeight inner.pattern < ranking.patternHeight outer.pattern) := by
  obtain ⟨pattern, scope, place⟩ := outer
  obtain ⟨hranks, hadmitted, hplace⟩ := hcovers
  dsimp only [Call.Nests] at *
  obtain ⟨hadmits, hinside⟩ := Pattern.all_iff.mp hadmitted
  rw [ranking.patternHeight_eq pattern]
  simp only [Nat.lt_succ_iff]
  -- All that is asked of what stands at the same place: it is admitted, and not higher.
  have hhere {called : Pattern} {within : Scope} (hwithin : ranking.Ranks within)
      (hcalled : called.all ranking.admits = true)
      (hheight : ranking.patternHeight called ≤ ranking.formHeight pattern.form) :
      ranking.Covers text ⟨called, within, place⟩ ∧ place.offset ≤ place.offset ∧
        (place.offset = place.offset →
          ranking.patternHeight called ≤ ranking.formHeight pattern.form) :=
    ⟨⟨hwithin, hcalled, hplace⟩, Nat.le_refl _, fun _ => hheight⟩
  generalize hform : pattern.form = shape at hnests hadmits hinside hhere
  cases hnests with
  | @option earlier later option missed =>
      have hmem : option ∈ earlier ++ option :: later := by simp
      exact hhere hranks (Pattern.allOfList_iff.mp hinside option hmem)
        (ranking.height_le_of_mem hmem)
  | part matched => exact hranks.part (Pattern.allOfList_iff.mp hinside) hplace matched
  | @round part called _ _ separator _ count before after _ values middle stop within inner
      rounds moved row matched =>
      have hform : ranking.Admits (.form (.repetition part _ _ separator _)) := ⟨hadmits, hinside⟩
      obtain ⟨hscope, hleads, hmiddle, -⟩ :=
        hranks.row (admits_unrolled hform count) hplace rounds
      have hround := admits_round hform count
      rw [row] at hround
      obtain ⟨hcovers, hfurther, hheight⟩ := hscope.part hround hmiddle matched
      refine ⟨hcovers, hleads.trans hfurther, fun hsame => ?_⟩
      -- Without a character taken, this is the first round, which is the part alone.
      have hcount : count = 0 := by dsimp only at hsame; omega
      subst hcount
      have hfirst := hheight (by dsimp only at hsame; omega)
      rw [← row] at hfirst
      refine hfirst.trans ?_
      show ranking.rowHeight [part] ≤ ranking.patternHeight part
      rw [rowHeight]
      split
      · exact Nat.le_refl _
      · exact Nat.max_le.mpr ⟨Nat.le_refl _, Nat.zero_le _⟩
  | absence => exact hhere hranks hinside (Nat.le_refl _)
  | demand => exact hhere hranks hinside (Nat.le_refl _)
  | capture => exact hhere hranks hinside (Nat.le_refl _)
  | overlay known =>
      rw [Form.allInside, Bool.and_eq_true] at hinside
      exact hhere (hranks.overlaid (admits_overlay hadmits) hinside.2 known) hinside.1
        (Nat.le_refl _)
  | rule known =>
      obtain ⟨promised, hpromised, hkeeps⟩ := hranks.keeps_of_resolve hinside known
      refine hhere hranks hkeeps.admitted ?_
      rw [formHeight_reference, hpromised]
      exact (Entry.keeps_iff.mp hkeeps.kept).1

/-- So is a call within a call at any depth. -/
theorem Covers.nestedWithin {outer inner : Call} (hcovers : ranking.Covers text outer)
    (hnests : Relation.TransGen (Call.Nests text) outer inner) :
    ranking.Covers text inner ∧ outer.place.offset ≤ inner.place.offset ∧
      (outer.place.offset = inner.place.offset →
        ranking.patternHeight inner.pattern < ranking.patternHeight outer.pattern) := by
  induction hnests with
  | single hnests => exact hcovers.nested hnests
  | tail _ hnests ih =>
      obtain ⟨hmiddle, hleads, hless⟩ := ih
      obtain ⟨hinner, hfurther, hlesser⟩ := hmiddle.nested hnests
      refine ⟨hinner, hleads.trans hfurther, fun hsame => ?_⟩
      exact (hlesser (by omega)).trans (hless (by omega))

/-- What is called for again within itself has taken a character in between. -/
theorem Covers.offset_lt {outer inner : Call} (hcovers : ranking.Covers text outer)
    (hnests : Relation.TransGen (Call.Nests text) outer inner)
    (hsame : inner.pattern.form = outer.pattern.form) :
    outer.place.offset < inner.place.offset := by
  obtain ⟨-, hleads, hless⟩ := hcovers.nestedWithin hnests
  refine Nat.lt_of_le_of_ne hleads fun hstill => ?_
  have hlower := hless hstill
  rw [patternHeight_eq, patternHeight_eq, hsame] at hlower
  exact Nat.lt_irrefl _ hlower

/-- Calls within a ranking do not go on within one another for ever. -/
theorem Covers.accessible {call : Call} (hcovers : ranking.Covers text call) :
    Acc (fun inner outer => Call.Nests text outer inner) call := by
  generalize hmeasure : ranking.enough (text.length - call.place.offset)
    (.pattern call.pattern) = measure
  induction measure using Nat.strong_induction_on generalizing call with
  | h measure ih =>
      constructor
      intro inner hnests
      obtain ⟨hinner, hleads, hless⟩ := hcovers.nested hnests
      refine ih _ ?_ hinner rfl
      subst hmeasure
      have hinText := hinner.inText
      rcases Nat.lt_or_eq_of_le hleads with hfurther | hstill
      · have hheight := patternHeight_le_limit hinner.admitted
        have hpositive : 0 < ranking.patternHeight call.pattern := by
          rw [patternHeight_eq]
          exact Nat.succ_pos _
        obtain ⟨taken, htaken⟩ := Nat.exists_eq_add_of_lt (n := text.length - call.place.offset)
          (m := text.length - inner.place.offset) (by omega)
        show ranking.limit * _ + ranking.patternHeight _ <
          ranking.limit * _ + ranking.patternHeight _
        rw [htaken, Nat.mul_add, Nat.mul_add]
        omega
      · have hheight := hless hstill
        rw [hstill]
        exact Nat.add_lt_add_left hheight _

end Ranking

end ScopedGrammar
