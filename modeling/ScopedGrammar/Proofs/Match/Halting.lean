/-
# How a match halts

A run that halts has a derivation too. It leads from the pattern that was run down to the
place where the reason arose, past parts that matched and options that missed. There are
four kinds of reason: a demand that is not met, a defect of the grammar, an offset that
leaves its word, and no steps left. So what holds of every diagnostic, and of every
defect, is proved by induction on these derivations, one case for each way down.

The number of steps granted is part of the derivation here, because running out of them is
one of the reasons. A repetition has used up its rounds only if each of them has moved on.
-/

import ScopedGrammar.Proofs.Match.Positions

namespace ScopedGrammar

variable {π : Type} [Producer π]

/-- How a task, with a number of steps granted, halted: at a spot, for a reason, and with
which input. -/
inductive Halts : Nat → Task → Spot π → Halt → Input π → Prop
  | exhausted {pattern : Pattern} {here : Spot π} :
      Halts 0 (.pattern pattern) here .exhausted here.input
  | pattern {granted : Nat} {pattern : Pattern} {here : Spot π} {reason : Halt}
      {after : Input π} (raw : Halts granted (.form pattern.form) here reason after) :
      Halts (granted + 1) (.pattern pattern) here reason after
  | head {granted : Nat} {part : Pattern} {parts : List Pattern} {here : Spot π}
      {reason : Halt} {after : Input π}
      (first : Halts granted (.pattern part) here reason after) :
      Halts granted (.parts (part :: parts)) here reason after
  | tail {granted : Nat} {part : Pattern} {parts : List Pattern} {here middle : Spot π}
      {value : Value} {reason : Halt} {after : Input π}
      (first : Derives (.pattern part) here [value] middle)
      (rest : Halts granted (.parts parts) middle reason after) :
      Halts granted (.parts (part :: parts)) here reason after
  | literal {granted : Nat} {term : Term} {here : Spot π} {defect : Defect}
      (unknown : term.textOf here.scope = .error defect) :
      Halts granted (.form (.literal term)) here (.defect defect) here.input
  | choice {granted : Nat} {earlier later : List Pattern} {option : Pattern}
      {here : Spot π} {between after : Input π} {reason : Halt}
      (missed : Match.firstOf (Pattern.run granted) earlier here.scope here.position
        here.input = (.missed, between))
      (chosen : Halts granted (.pattern option) { here with input := between } reason
        after) :
      Halts granted (.form (.choice (earlier ++ option :: later))) here reason after
  | sequence {granted : Nat} {parts : List Pattern} {picks : Option (List Nat)}
      {here : Spot π} {reason : Halt} {after : Input π}
      (all : Halts granted (.parts parts) here reason after) :
      Halts granted (.form (.sequence parts picks)) here reason after
  | picks {granted : Nat} {parts : List Pattern} {picks : Option (List Nat)}
      {here there : Spot π} {values : List Value} {defect : Defect}
      (all : Derives (.parts parts) here values there)
      (unpicked : Match.pickValues values picks = .error defect) :
      Halts granted (.form (.sequence parts picks)) here (.defect defect) there.input
  | bounds {granted : Nat} {part : Pattern} {least : Term} {most : Option Term}
      {separator : Option Pattern} {keepSeparators : Bool} {here : Spot π}
      {defect : Defect}
      (unbounded : Match.resolveBounds here.scope least most = .error defect) :
      Halts granted (.form (.repetition part least most separator keepSeparators)) here
        (.defect defect) here.input
  | round {granted : Nat} {part : Pattern} {least : Term} {most : Option Term}
      {separator : Option Pattern} {keepSeparators : Bool} {turns : List Turn}
      {here there : Spot π} {reason : Halt} {after : Input π}
      (rounds : Derives (.parts (unrolled part separator turns.length)) here
        (turns.flatMap Turn.values) there)
      (moved : here.position.offset + turns.length ≤ there.position.offset)
      (next : Halts granted (.parts (dueAfter separator turns.length ++ [part])) there
        reason after) :
      Halts granted (.form (.repetition part least most separator keepSeparators)) here
        reason after
  | rounds {granted : Nat} {part : Pattern} {least : Term} {most : Option Term}
      {separator : Option Pattern} {keepSeparators : Bool} {turns : List Turn}
      {here there : Spot π} (all : turns.length = granted)
      (rounds : Derives (.parts (unrolled part separator turns.length)) here
        (turns.flatMap Turn.values) there)
      (moved : here.position.offset + turns.length ≤ there.position.offset) :
      Halts granted (.form (.repetition part least most separator keepSeparators)) here
        .exhausted there.input
  | absence {granted : Nat} {inner : Pattern} {width : Nat} {here : Spot π}
      {reason : Halt} {after : Input π}
      (looked : Halts granted (.pattern inner) here reason after) :
      Halts granted (.form (.absence inner width)) here reason after
  | overflow {granted : Nat} {inner : Pattern} {width : Nat} {here : Spot π}
      {after : Input π} (positive : width ≠ 0)
      (beyond : offsetBound ≤ here.position.offset + width)
      (missed : inner.run granted here.scope here.position here.input = (.missed, after)) :
      Halts granted (.form (.absence inner width)) here .overflow after
  | unmet {granted : Nat} {inner : Pattern} {message : Message} {here : Spot π}
      {text : String} {diagnostic : Diagnostic} {between next after : Input π}
      (missed : inner.run granted here.scope here.position here.input =
        (.missed, between))
      (rendered : message.render here.scope here.position between = (text, next))
      (raised : Diagnostic.expected text here.position next = (diagnostic, after)) :
      Halts granted (.form (.demand inner message)) here (.diagnostic diagnostic) after
  | demand {granted : Nat} {inner : Pattern} {message : Message} {here : Spot π}
      {reason : Halt} {after : Input π}
      (demanded : Halts granted (.pattern inner) here reason after) :
      Halts granted (.form (.demand inner message)) here reason after
  | capture {granted : Nat} {inner : Pattern} {name : String} {here : Spot π}
      {reason : Halt} {after : Input π}
      (captured : Halts granted (.pattern inner) here reason after) :
      Halts granted (.form (.capture inner name)) here reason after
  | bindings {granted : Nat} {inner : Pattern} {bindings : List (String × Term)}
      {here : Spot π} {defect : Defect}
      (unknown : here.scope.resolveAll bindings = .error defect) :
      Halts granted (.form (.overlay inner bindings)) here (.defect defect) here.input
  | overlay {granted : Nat} {inner : Pattern} {bindings : List (String × Term)}
      {frame : Frame} {here : Spot π} {reason : Halt} {after : Input π}
      (known : here.scope.resolveAll bindings = .ok frame)
      (overlaid : Halts granted (.pattern inner)
        { here with scope := here.scope.push frame } reason after) :
      Halts granted (.form (.overlay inner bindings)) here reason after
  | target {granted : Nat} {term : Term} {here : Spot π} {defect : Defect}
      (unknown : term.resolve here.scope = .error defect) :
      Halts granted (.form (.reference term)) here (.defect defect) here.input
  | unparsable {granted : Nat} {term : Term} {content : Value} {here : Spot π}
      (known : term.resolve here.scope = .ok (.value content))
      (unspelled : content.asText? = none) :
      Halts granted (.form (.reference term)) here
        (.defect (.notParsable term.display content.kind)) here.input
  | rule {granted : Nat} {term : Term} {pattern : Pattern} {here : Spot π}
      {reason : Halt} {after : Input π}
      (known : term.resolve here.scope = .ok (.rule pattern))
      (followed : Halts granted (.pattern pattern) here reason after) :
      Halts granted (.form (.reference term)) here reason after

namespace Attempt

variable {α : Type} {input after : Input π} {reason : Halt}

omit [Producer π] in
theorem succeed_ne_halted {result : α} :
    succeed result input ≠ (.halted reason, after) := by
  simp [succeed]

omit [Producer π] in
theorem miss_ne_halted : (miss : Attempt π α) input ≠ (.halted reason, after) := by
  simp [miss]

omit [Producer π] in
theorem read_ne_halted {step : Input π → α × Input π} :
    read step input ≠ (.halted reason, after) := by
  simp [read]

omit [Producer π] in
theorem resolved_eq_halted_iff {term : Except Defect α} :
    resolved term input = (.halted reason, after) ↔
      ∃ defect, term = .error defect ∧ reason = .defect defect ∧ input = after := by
  cases term <;> simp [resolved, succeed, halt, eq_comm]

omit [Producer π] in
theorem absent_eq_halted_iff {attempt : Attempt π α} :
    attempt.absent input = (.halted reason, after) ↔
      attempt input = (.halted reason, after) := by
  unfold absent
  rcases attempt input with ⟨_ | _ | _, between⟩ <;> simp

end Attempt

namespace Match

variable {input after : Input π} {reason : Halt}

theorem captureToken_ne_halted {count : Nat} {scope : Scope} {place : Position} :
    captureToken count scope place input ≠ (.halted reason, after) := by
  intro hhalted
  simp only [captureToken, Attempt.bind_eq_andThen, Attempt.pure_eq_succeed,
    Attempt.andThen_eq_halted_iff, Attempt.read_ne_halted, Attempt.succeed_ne_halted,
    and_false, exists_false, or_self] at hhalted

theorem text_ne_halted {expected : String} {scope : Scope} {place : Position} :
    text expected scope place input ≠ (.halted reason, after) := by
  intro hhalted
  simp only [text, Attempt.bind_eq_andThen, Attempt.andThen_eq_halted_iff,
    Attempt.read_ne_halted, false_or] at hhalted
  obtain ⟨found, between, -, hrest⟩ := hhalted
  cases found with
  | true => exact captureToken_ne_halted hrest
  | false => exact Attempt.miss_ne_halted hrest

theorem oneChar_ne_halted {members : List Char} {excluded : Bool} {scope : Scope}
    {place : Position} : oneChar members excluded scope place input ≠
      (.halted reason, after) := by
  intro hhalted
  simp only [oneChar, Attempt.bind_eq_andThen, Attempt.andThen_eq_halted_iff,
    Attempt.read_ne_halted, false_or] at hhalted
  obtain ⟨found, between, -, hrest⟩ := hhalted
  cases found with
  | none => exact Attempt.miss_ne_halted hrest
  | some c =>
      dsimp only at hrest
      split at hrest
      · exact captureToken_ne_halted hrest
      · exact Attempt.miss_ne_halted hrest

theorem finish_ne_halted {scope : Scope} {place : Position} :
    finish scope place input ≠ (.halted reason, after) := by
  intro hhalted
  simp only [finish, Attempt.bind_eq_andThen, Attempt.andThen_eq_halted_iff,
    Attempt.read_ne_halted, false_or] at hhalted
  obtain ⟨atEnd, between, -, hrest⟩ := hhalted
  cases atEnd with
  | true => exact Attempt.succeed_ne_halted hrest
  | false => exact Attempt.miss_ne_halted hrest

/-- Taking characters halts only where the sum of offset and width leaves its word. -/
theorem wide_eq_halted {width : Nat} {scope : Scope} {place : Position}
    (hhalted : wide width scope place input = (.halted reason, after)) :
    width ≠ 0 ∧ offsetBound ≤ place.offset + width ∧ reason = .overflow ∧
      input = after := by
  unfold wide at hhalted
  split at hhalted
  next => exact absurd hhalted captureToken_ne_halted
  next hpositive =>
    split at hhalted
    next hbeyond =>
      cases hhalted
      exact ⟨hpositive, hbeyond, rfl, rfl⟩
    next =>
      simp only [Attempt.bind_eq_andThen, Attempt.andThen_eq_halted_iff,
        Attempt.read_ne_halted, false_or] at hhalted
      obtain ⟨there, between, -, hrest⟩ := hhalted
      cases there with
      | true => exact absurd hrest captureToken_ne_halted
      | false => exact absurd hrest Attempt.miss_ne_halted

theorem complain_eq_halted {message : Message} {scope : Scope} {place : Position}
    (hhalted : complain message scope place input = (.halted reason, after)) :
    ∃ text diagnostic next, message.render scope place input = (text, next) ∧
      Diagnostic.expected text place next = (diagnostic, after) ∧
      reason = .diagnostic diagnostic := by
  simp only [complain, Attempt.bind_eq_andThen, Attempt.andThen_eq_halted_iff,
    Attempt.read_ne_halted, Attempt.read_eq_matched_iff, false_or] at hhalted
  obtain ⟨text, next, hrendered, diagnostic, _, hraised, hreason⟩ := hhalted
  cases hreason
  exact ⟨text, diagnostic, next, hrendered, hraised, rfl⟩

omit [Producer π] in
/-- A choice that halts has a first option that does not miss, and that one halts. -/
theorem firstOf_eq_halted {matcher : Matcher π} {options : List Pattern} {scope : Scope}
    {place : Position} {input after : Input π} {reason : Halt}
    (hhalted : firstOf matcher options scope place input = (.halted reason, after)) :
    ∃ earlier option later between, options = earlier ++ option :: later ∧
      firstOf matcher earlier scope place input = (.missed, between) ∧
      matcher option scope place between = (.halted reason, after) := by
  induction options generalizing input with
  | nil => cases hhalted
  | cons option rest ih =>
      rw [firstOf, Attempt.orElse_eq_iff] at hhalted
      rcases hhalted with ⟨next, hmissed, hrest⟩ | ⟨hfirst, -⟩
      · obtain ⟨earlier, chosen, later, between, rfl, hearlier, hchosen⟩ := ih hrest
        refine ⟨option :: earlier, chosen, later, between, rfl, ?_, hchosen⟩
        exact Attempt.orElse_eq_iff.mpr (.inl ⟨next, hmissed, hearlier⟩)
      · exact ⟨[], option, rest, input, rfl, rfl, hfirst⟩

/-- A matcher whose halts all have derivations, when so many steps are granted to it. -/
def Accounted (granted : Nat) (matcher : Matcher π) : Prop :=
  ∀ {pattern scope place input reason after},
    matcher pattern scope place input = (.halted reason, after) →
      Halts granted (.pattern pattern) ⟨scope, place, input⟩ reason after

variable {granted : Nat} {matcher : Matcher π}

theorem halts_of_allOf (hexplained : Explained matcher)
    (haccounted : Accounted granted matcher) {parts : List Pattern} {scope : Scope}
    {place : Position} {input after : Input π} {reason : Halt}
    (hhalted : allOf matcher parts scope place input = (.halted reason, after)) :
    Halts granted (.parts parts) ⟨scope, place, input⟩ reason after := by
  induction parts generalizing scope place input with
  | nil => exact absurd hhalted Attempt.succeed_ne_halted
  | cons part rest ih =>
      simp only [allOf, Attempt.bind_eq_andThen, Attempt.pure_eq_succeed,
        Attempt.andThen_eq_halted_iff, Attempt.succeed_ne_halted, and_false, exists_false,
        or_false] at hhalted
      rcases hhalted with hfirst | ⟨first, between, hfirst, hrest⟩
      · exact .head (haccounted hfirst)
      · exact .tail (hexplained hfirst) (ih hrest)

/-- A round halts in the separator that is due or in the part. -/
theorem halts_of_round (hexplained : Explained matcher)
    (haccounted : Accounted granted matcher) {part : Pattern} {separator : Option Pattern}
    {tally : Tally} {input after : Input π} {reason : Halt}
    (hhalted : round matcher part separator tally input = (.halted reason, after)) :
    Halts granted (.parts (dueAfter separator tally.parts.size ++ [part]))
      ⟨tally.scope, tally.position, input⟩ reason after := by
  simp only [round, Attempt.bind_eq_andThen, Attempt.pure_eq_succeed,
    Attempt.andThen_eq_halted_iff, Attempt.succeed_ne_halted, and_false, exists_false,
    or_false] at hhalted
  cases separator with
  | none =>
      rcases hhalted with hready | ⟨ready, between, hready, hpart⟩
      · exact absurd hready Attempt.succeed_ne_halted
      · cases hready
        simpa [dueAfter] using Halts.head (haccounted hpart)
  | some separating =>
      by_cases hempty : tally.parts.isEmpty = true
      · have hsize : tally.parts.size = 0 := by simpa using hempty
        simp only [beforePart, hempty, if_true] at hhalted
        rcases hhalted with hready | ⟨ready, between, hready, hpart⟩
        · exact absurd hready Attempt.succeed_ne_halted
        · cases hready
          simpa [dueAfter, hsize] using Halts.head (haccounted hpart)
      · have hsize : tally.parts.size ≠ 0 := by simpa using hempty
        have hdue : dueAfter (some separating) tally.parts.size ++ [part] =
            [separating, part] := by
          simp [dueAfter, hsize]
        rw [hdue]
        simp only [beforePart, hempty, Bool.false_eq_true, if_false,
          Attempt.bind_eq_andThen, Attempt.pure_eq_succeed, Attempt.andThen_eq_halted_iff,
          Attempt.andThen_eq_matched_iff, Attempt.succeed_eq_matched_iff,
          Attempt.succeed_ne_halted, and_false, exists_false, or_false] at hhalted
        rcases hhalted with hbefore | ⟨ready, between, ⟨before, _, hbefore, rfl, rfl⟩, hpart⟩
        · exact .head (haccounted hbefore)
        · exact .tail (hexplained hbefore) (.head (haccounted hpart))

/-- Rounds halt in one of them, or because there have been as many as were granted. All
rounds before have moved on, since one that does not is the last. -/
theorem Collected.rounds_halt (hexplained : Explained matcher)
    (haccounted : Accounted granted matcher) {part : Pattern} {separator : Option Pattern}
    {least : Term} {mostTerm : Option Term} {keepSeparators : Bool} {most : Option Nat}
    {remaining : Nat} {here : Spot π} {turns : List Turn} {tally : Tally}
    {input after : Input π} {reason : Halt}
    (hcollected : Collected part separator here turns tally input)
    (hmoved : here.position.offset + turns.length ≤ tally.position.offset)
    (hremaining : turns.length + remaining = granted)
    (hhalted : Match.rounds matcher part separator most remaining tally input =
      (.halted reason, after)) :
    Halts granted (.form (.repetition part least mostTerm separator keepSeparators)) here
      reason after := by
  induction remaining generalizing turns tally input with
  | zero =>
      cases hhalted
      exact .rounds hremaining hcollected.rounds hmoved
  | succ remaining ih =>
      unfold Match.rounds at hhalted
      split at hhalted
      · cases hhalted
      · cases hending : Match.round matcher part separator tally input with
        | mk verdict next =>
            rw [hending] at hhalted
            cases verdict with
            | missed => cases hhalted
            | halted earlier =>
                cases hhalted
                have hsize : tally.parts.size = turns.length := by
                  rw [← Array.length_toList, hcollected.parts, List.length_map]
                have hround := halts_of_round hexplained haccounted hending
                rw [hsize] at hround
                exact .round hcollected.rounds hmoved hround
            | matched later =>
                obtain ⟨turn, hlater⟩ := hcollected.round hexplained hending
                dsimp only at hhalted
                split at hhalted
                · cases hhalted
                · next hplace =>
                    obtain ⟨_, hround, -, -⟩ := derives_of_round hexplained hending
                    have hoffset : tally.position.offset ≤ later.position.offset :=
                      hround.leads.offset_le
                    have hother : later.position.offset ≠ tally.position.offset := by
                      simpa [Position.samePlace] using hplace
                    refine ih hlater ?_ ?_ hhalted
                    · rw [List.length_append, List.length_singleton]
                      omega
                    · rw [List.length_append, List.length_singleton]
                      omega

/-- A form that halts has a derivation if patterns that halt have. -/
theorem halts_of_form (haccounted : Accounted granted (Pattern.run (π := π) granted))
    {shape : Form} {scope : Scope} {place : Position} {input after : Input π}
    {reason : Halt}
    (hhalted : form (Pattern.run granted) granted shape scope place input =
      (.halted reason, after)) :
    Halts granted (.form shape) ⟨scope, place, input⟩ reason after := by
  have hexplained : Explained (Pattern.run (π := π) granted) := derives_of_run granted
  cases shape with
  | literal term =>
      simp only [form, Attempt.bind_eq_andThen, Attempt.andThen_eq_halted_iff,
        Attempt.resolved_eq_halted_iff, text_ne_halted, and_false, exists_false,
        or_false] at hhalted
      obtain ⟨defect, hunknown, rfl, rfl⟩ := hhalted
      exact .literal hunknown
  | charClass members excluded => exact absurd hhalted oneChar_ne_halted
  | choice options =>
      obtain ⟨earlier, option, later, between, rfl, hmissed, hchosen⟩ :=
        firstOf_eq_halted hhalted
      exact .choice hmissed (haccounted hchosen)
  | sequence parts picks =>
      simp only [form, Attempt.bind_eq_andThen, Attempt.pure_eq_succeed,
        Attempt.andThen_eq_halted_iff, Attempt.resolved_eq_halted_iff,
        Attempt.succeed_ne_halted, and_false, exists_false, or_false] at hhalted
      rcases hhalted with hall | ⟨⟨values, last, inner⟩, between, hall, defect, hpicks, rfl, rfl⟩
      · exact .sequence (halts_of_allOf hexplained haccounted hall)
      · exact .picks (derives_of_allOf hexplained hall) hpicks
  | repetition part least most separator keepSeparators =>
      simp only [form, Attempt.bind_eq_andThen, Attempt.andThen_eq_halted_iff,
        Attempt.resolved_eq_halted_iff, Attempt.resolved_eq_matched_iff] at hhalted
      rcases hhalted with ⟨defect, hbounds, rfl, rfl⟩ |
        ⟨⟨low, high⟩, _, ⟨-, rfl⟩, hrepetition⟩
      · exact .bounds hbounds
      · simp only [repetition, Attempt.bind_eq_andThen, Attempt.pure_eq_succeed,
          Attempt.andThen_eq_halted_iff] at hrepetition
        rcases hrepetition with hrounds | ⟨tally, between, -, hresult⟩
        · have hnone : Collected part separator ⟨scope, place, input⟩ []
              ⟨#[], #[], place, scope⟩ input := ⟨rfl, rfl, .nil⟩
          exact hnone.rounds_halt hexplained haccounted (Nat.le_refl _) (Nat.zero_add _)
            hrounds
        · split at hresult
          · exact absurd hresult Attempt.miss_ne_halted
          · exact absurd hresult Attempt.succeed_ne_halted
  | absence inner width =>
      simp only [form, Attempt.bind_eq_andThen, Attempt.andThen_eq_halted_iff,
        Attempt.absent_eq_halted_iff] at hhalted
      rcases hhalted with hlooked | ⟨⟨⟩, between, habsent, hwide⟩
      · exact .absence (haccounted hlooked)
      · obtain ⟨hpositive, hbeyond, rfl, rfl⟩ := wide_eq_halted hwide
        exact .overflow hpositive hbeyond (Attempt.absent_eq_matched_iff.mp habsent)
  | demand inner message =>
      simp only [form, Attempt.orElse_eq_iff] at hhalted
      rcases hhalted with ⟨between, hmissed, hcomplain⟩ | ⟨hdemanded, -⟩
      · obtain ⟨text, diagnostic, next, hrendered, hraised, rfl⟩ :=
          complain_eq_halted hcomplain
        exact .unmet hmissed hrendered hraised
      · exact .demand (haccounted hdemanded)
  | capture inner name =>
      simp only [form, Attempt.bind_eq_andThen, Attempt.pure_eq_succeed,
        Attempt.andThen_eq_halted_iff, Attempt.succeed_ne_halted, and_false, exists_false,
        or_false] at hhalted
      exact .capture (haccounted hhalted)
  | overlay inner bindings =>
      simp only [form, keepScope, Attempt.bind_eq_andThen, Attempt.pure_eq_succeed,
        Attempt.andThen_eq_halted_iff, Attempt.resolved_eq_halted_iff,
        Attempt.resolved_eq_matched_iff, Attempt.succeed_ne_halted, and_false,
        exists_false, or_false] at hhalted
      rcases hhalted with ⟨defect, hunknown, rfl, rfl⟩ | ⟨frame, _, ⟨hknown, rfl⟩, hinner⟩
      · exact .bindings hunknown
      · exact .overlay hknown (haccounted hinner)
  | reference term =>
      simp only [form, Attempt.bind_eq_andThen, Attempt.andThen_eq_halted_iff,
        Attempt.resolved_eq_halted_iff, Attempt.resolved_eq_matched_iff] at hhalted
      rcases hhalted with ⟨defect, hunknown, rfl, rfl⟩ | ⟨binding, _, ⟨hknown, rfl⟩, hfollow⟩
      · exact .target hunknown
      · cases binding with
        | rule pattern =>
            simp only [follow, keepScope, Attempt.bind_eq_andThen, Attempt.pure_eq_succeed,
              Attempt.andThen_eq_halted_iff, Attempt.succeed_ne_halted, and_false,
              exists_false, or_false] at hfollow
            exact .rule hknown (haccounted hfollow)
        | value content =>
            cases hspelled : content.asText? with
            | none =>
                simp only [follow, hspelled] at hfollow
                cases hfollow
                exact .unparsable hknown hspelled
            | some expected =>
                simp only [follow, hspelled] at hfollow
                exact absurd hfollow text_ne_halted
  | finish => exact absurd hhalted finish_ne_halted

end Match

/-- Every halt of a run has a derivation. -/
theorem halts_of_run (granted : Nat) :
    Match.Accounted granted (Pattern.run (π := π) granted) := by
  induction granted with
  | zero =>
      intro pattern scope place input reason after hhalted
      cases hhalted
      exact .exhausted
  | succ granted ih =>
      intro pattern scope place input reason after hhalted
      simp only [Pattern.run, Attempt.bind_eq_andThen, Attempt.pure_eq_succeed,
        Attempt.andThen_eq_halted_iff, Attempt.succeed_ne_halted, and_false, exists_false,
        or_false] at hhalted
      exact .pattern (Match.halts_of_form ih hhalted)

end ScopedGrammar
