/-
# Derivations of matches

A run that succeeds has a derivation: a tree that says which form was matched where, and
what became of the scope and the input on the way. Misses leave no trace in it apart from
the input they may have lengthened, and the number of steps granted does not occur. What
holds of every match is therefore proved by induction on derivations, one case for each
way to succeed.

A repetition appears as the sequence it amounts to: its part as often as it matched, with
the separator before every part but the first.
-/

import ScopedGrammar.Proofs.Match.Growth

namespace ScopedGrammar

variable {π : Type}

/-- Where matching stands. -/
structure Spot (π : Type) where
  scope : Scope
  position : Position
  input : Input π

/-- What a derivation is about. -/
inductive Task where
  /-- The raw match of a form. -/
  | form (shape : Form)
  | pattern (pattern : Pattern)
  /-- The matches of several patterns in a row. -/
  | parts (parts : List Pattern)

/-- What one round of a repetition yields: the part, and the separator before it if one
was due. -/
structure Turn where
  separator : Option Value
  part : Value

namespace Turn

/-- The values of a round in the order of the text. -/
def values (turn : Turn) : List Value :=
  turn.separator.toList ++ [turn.part]

/-- The value of a repetition with these rounds. -/
def result (turns : List Turn) (keepSeparators : Bool) : Value :=
  if keepSeparators then
    .list [.list (turns.map part), .list (turns.filterMap separator)]
  else .list (turns.map part)

end Turn

/-- The separator that is due after a number of parts. None is due before the first. -/
def dueAfter (separator : Option Pattern) (count : Nat) : List Pattern :=
  if count = 0 then [] else separator.toList

/-- The sequence that a number of rounds amounts to. -/
def unrolled (part : Pattern) (separator : Option Pattern) : Nat → List Pattern
  | 0 => []
  | count + 1 => unrolled part separator count ++ (dueAfter separator count ++ [part])

/-- Only the part and the separator take part in the rounds. -/
theorem mem_unrolled {part pattern : Pattern} {separator : Option Pattern} {count : Nat}
    (hpattern : pattern ∈ unrolled part separator count) :
    pattern = part ∨ separator = some pattern := by
  induction count with
  | zero => cases hpattern
  | succ count ih =>
      rcases List.mem_append.mp hpattern with hearlier | hround
      · exact ih hearlier
      · rcases List.mem_append.mp hround with hdue | hpart
        · right
          unfold dueAfter at hdue
          split at hdue
          · cases hdue
          · exact Option.mem_toList.mp hdue
        · exact .inl (List.mem_singleton.mp hpart)

variable [Producer π]

/-- A form recognises the next `count` characters of an input, which has then grown to
the one given last. These are the forms that take characters themselves. -/
inductive Recognises : Form → Spot π → Nat → Input π → Prop
  | literal {term : Term} {expected : String} {here : Spot π} {next : Input π}
      (known : term.textOf here.scope = .ok expected)
      (found : here.input.startsWith here.position.offset expected.toList = (true, next)) :
      Recognises (.literal term) here expected.length next
  | text {term : Term} {content : Value} {expected : String} {here : Spot π}
      {next : Input π} (known : term.resolve here.scope = .ok (.value content))
      (spelled : content.asText? = some expected)
      (found : here.input.startsWith here.position.offset expected.toList = (true, next)) :
      Recognises (.reference term) here expected.length next
  | oneChar {members : List Char} {excluded : Bool} {c : Char} {here : Spot π}
      {next : Input π} (found : here.input.charAt here.position.offset = (some c, next))
      (fits : (members.contains c != excluded) = true) :
      Recognises (.charClass members excluded) here 1 next
  | ahead {inner : Pattern} {granted : Nat} {here : Spot π} {next : Input π}
      (missed : inner.run granted here.scope here.position here.input = (.missed, next)) :
      Recognises (.absence inner 0) here 0 next
  | wide {inner : Pattern} {width granted : Nat} {here : Spot π} {between next : Input π}
      (missed : inner.run granted here.scope here.position here.input = (.missed, between))
      (there : between.has (here.position.offset + width - 1) = (true, next)) :
      Recognises (.absence inner width) here width next

/-- How a task succeeded: at a spot, with some values, and where matching stands then. -/
inductive Derives : Task → Spot π → List Value → Spot π → Prop
  | token {shape : Form} {here : Spot π} {count : Nat} {between after : Input π}
      {token : Token} (recognised : Recognises shape here count between)
      (captured : Token.capture here.position count between = (token, after)) :
      Derives (.form shape) here [.token token] ⟨here.scope, token.stop, after⟩
  | finish {here : Spot π} {after : Input π}
      (ended : here.input.isEnd here.position.offset = (true, after)) :
      Derives (.form .finish) here [.endMark] { here with input := after }
  | choice {earlier later : List Pattern} {option : Pattern} {granted : Nat}
      {here there : Spot π} {between : Input π} {value : Value}
      (missed : Match.firstOf (Pattern.run granted) earlier here.scope here.position
        here.input = (.missed, between))
      (chosen : Derives (.pattern option) { here with input := between } [value] there) :
      Derives (.form (.choice (earlier ++ option :: later))) here [value] there
  | sequence {parts : List Pattern} {picks : Option (List Nat)} {here there : Spot π}
      {values : List Value} {value : Value}
      (all : Derives (.parts parts) here values there)
      (picked : Match.pickValues values picks = .ok value) :
      Derives (.form (.sequence parts picks)) here [value] there
  | repetition {part : Pattern} {least : Term} {most : Option Term}
      {separator : Option Pattern} {keepSeparators : Bool} {low : Nat} {high : Option Nat}
      {turns : List Turn} {here there : Spot π} {after : Input π}
      (bounds : Match.resolveBounds here.scope least most = .ok (low, high))
      (enough : low ≤ turns.length)
      (rounds : Derives (.parts (unrolled part separator turns.length)) here
        (turns.flatMap Turn.values) there)
      (last : there.input.GrowsTo after) :
      Derives (.form (.repetition part least most separator keepSeparators)) here
        [Turn.result turns keepSeparators] { there with input := after }
  | demand {inner : Pattern} {message : Message} {here there : Spot π} {value : Value}
      (met : Derives (.pattern inner) here [value] there) :
      Derives (.form (.demand inner message)) here [value] there
  | capture {inner : Pattern} {name : String} {here there : Spot π} {value : Value}
      (matched : Derives (.pattern inner) here [value] there) :
      Derives (.form (.capture inner name)) here [value]
        { there with scope := there.scope.bind name (.value value) }
  | overlay {inner : Pattern} {bindings : List (String × Term)} {frame : Frame}
      {here : Spot π} {scope : Scope} {position : Position} {after : Input π}
      {value : Value} (known : here.scope.resolveAll bindings = .ok frame)
      (matched : Derives (.pattern inner) { here with scope := here.scope.push frame }
        [value] ⟨scope, position, after⟩) :
      Derives (.form (.overlay inner bindings)) here [value] ⟨here.scope, position, after⟩
  | rule {term : Term} {pattern : Pattern} {here : Spot π} {scope : Scope}
      {position : Position} {after : Input π} {value : Value}
      (known : term.resolve here.scope = .ok (.rule pattern))
      (matched : Derives (.pattern pattern) here [value] ⟨scope, position, after⟩) :
      Derives (.form (.reference term)) here [value] ⟨here.scope, position, after⟩
  | pattern {pattern : Pattern} {here there : Spot π} {value : Value}
      (raw : Derives (.form pattern.form) here [value] there) :
      Derives (.pattern pattern) here [pattern.finishValue value] there
  | nil {here : Spot π} : Derives (.parts []) here [] here
  | cons {part : Pattern} {parts : List Pattern} {here middle there : Spot π}
      {value : Value} {values : List Value}
      (first : Derives (.pattern part) here [value] middle)
      (rest : Derives (.parts parts) middle values there) :
      Derives (.parts (part :: parts)) here (value :: values) there

namespace Recognises

/-- Recognised characters have been received. -/
theorem there {shape : Form} {here : Spot π} {count : Nat} {next : Input π}
    (recognised : Recognises shape here count next) :
    count ≤ next.buffer.size - here.position.offset := by
  cases recognised with
  | literal known found | text known spelled found =>
      simpa [String.length_toList] using (Input.prefix_of_startsWith found).length_le
  | oneChar found fits =>
      have inside := Input.lt_size_of_charAt found
      omega
  | ahead missed => exact Nat.zero_le _
  | wide missed there =>
      have inside := Input.lt_size_of_has there
      omega

theorem growsTo {shape : Form} {here : Spot π} {count : Nat} {next : Input π}
    (recognised : Recognises shape here count next) : here.input.GrowsTo next := by
  cases recognised with
  | literal known found | text known spelled found =>
      exact (growing_startsWith _ _).after found
  | oneChar found fits => exact (growing_charAt _).after found
  | ahead missed => exact (grows_run _ _ _ _).after missed
  | wide missed there =>
      exact ((grows_run _ _ _ _).after missed).trans ((growing_has _).after there)

end Recognises

namespace Derives

/-- The token of recognised characters holds exactly those, and taking it requests
nothing. -/
theorem captured_eq {shape : Form} {here : Spot π} {count : Nat} {between after : Input π}
    {token : Token} (recognised : Recognises shape here count between)
    (captured : Token.capture here.position count between = (token, after)) :
    token = ⟨between.slice here.position.offset (here.position.offset + count),
        here.position, here.position.past
          ((between.buffer.toList.drop here.position.offset).take count)⟩ ∧
      after = between := by
  rw [capture_of_received here.position count recognised.there] at captured
  exact ⟨(congrArg Prod.fst captured).symm, (congrArg Prod.snd captured).symm⟩

/-- Deriving only lets the input grow. -/
theorem growsTo {task : Task} {here there : Spot π} {values : List Value}
    (derived : Derives task here values there) : here.input.GrowsTo there.input := by
  induction derived with
  | token recognised captured =>
      obtain ⟨-, rfl⟩ := captured_eq recognised captured
      exact recognised.growsTo
  | finish ended => exact (growing_isEnd _).after ended
  | choice missed chosen ih =>
      exact ((Match.grows_firstOf (grows_run _) _ _ _).after missed).trans ih
  | sequence all picked ih => exact ih
  | repetition bounds enough rounds last ih => exact ih.trans last
  | demand met ih => exact ih
  | capture matched ih => exact ih
  | overlay known matched ih => exact ih
  | rule known matched ih => exact ih
  | pattern raw ih => exact ih
  | nil => exact .refl _
  | cons first rest ihfirst ihrest => exact ihfirst.trans ihrest

/-- Two runs of parts, one after the other, are one. -/
theorem append {first second : List Pattern} {here middle there : Spot π}
    {firstValues secondValues : List Value}
    (hfirst : Derives (.parts first) here firstValues middle)
    (hsecond : Derives (.parts second) middle secondValues there) :
    Derives (.parts (first ++ second)) here (firstValues ++ secondValues) there := by
  induction first generalizing here firstValues with
  | nil =>
      cases hfirst with
      | nil => exact hsecond
  | cons part parts ih =>
      cases hfirst with
      | cons hpart hrest => exact .cons hpart (ih hrest)

/-- A single part is a pattern. -/
theorem single {pattern : Pattern} {here there : Spot π} {value : Value}
    (matched : Derives (.pattern pattern) here [value] there) :
    Derives (.parts [pattern]) here [value] there :=
  .cons matched .nil

end Derives

namespace Match

theorem captureToken_eq_matched {count : Nat} {scope : Scope} {place : Position}
    {input after : Input π} {success : Match}
    (hmatched : captureToken count scope place input = (.matched success, after)) :
    ∃ token, Token.capture place count input = (token, after) ∧
      success = ⟨.token token, token.stop, scope⟩ := by
  simp only [captureToken, Attempt.bind_eq_andThen, Attempt.pure_eq_succeed,
    Attempt.andThen_eq_matched_iff, Attempt.read_eq_matched_iff,
    Attempt.succeed_eq_matched_iff] at hmatched
  obtain ⟨token, between, hcapture, hsuccess, rfl⟩ := hmatched
  exact ⟨token, hcapture, hsuccess.symm⟩

theorem text_eq_matched {expected : String} {scope : Scope} {place : Position}
    {input after : Input π} {success : Match}
    (hmatched : text expected scope place input = (.matched success, after)) :
    ∃ between, input.startsWith place.offset expected.toList = (true, between) ∧
      captureToken expected.length scope place between = (.matched success, after) := by
  simp only [text, Attempt.bind_eq_andThen, Attempt.andThen_eq_matched_iff,
    Attempt.read_eq_matched_iff] at hmatched
  obtain ⟨found, between, hfound, hcapture⟩ := hmatched
  cases found with
  | true => exact ⟨between, hfound, hcapture⟩
  | false => cases hcapture

theorem oneChar_eq_matched {members : List Char} {excluded : Bool} {scope : Scope}
    {place : Position} {input after : Input π} {success : Match}
    (hmatched : oneChar members excluded scope place input = (.matched success, after)) :
    ∃ c between, input.charAt place.offset = (some c, between) ∧
      (members.contains c != excluded) = true ∧
      captureToken 1 scope place between = (.matched success, after) := by
  simp only [oneChar, Attempt.bind_eq_andThen, Attempt.andThen_eq_matched_iff,
    Attempt.read_eq_matched_iff] at hmatched
  obtain ⟨found, between, hfound, hcapture⟩ := hmatched
  cases found with
  | none => cases hcapture
  | some c =>
      dsimp only at hcapture
      split at hcapture
      next hfits => exact ⟨c, between, hfound, hfits, hcapture⟩
      next => cases hcapture

theorem wide_eq_matched {width : Nat} {scope : Scope} {place : Position}
    {input after : Input π} {success : Match}
    (hmatched : wide width scope place input = (.matched success, after)) :
    (width = 0 ∧ captureToken 0 scope place input = (.matched success, after)) ∨
      ∃ between, input.has (place.offset + width - 1) = (true, between) ∧
        captureToken width scope place between = (.matched success, after) := by
  unfold wide at hmatched
  split at hmatched
  next hzero => exact .inl ⟨hzero, hzero ▸ hmatched⟩
  next =>
    split at hmatched
    next => cases hmatched
    next =>
      simp only [Attempt.bind_eq_andThen, Attempt.andThen_eq_matched_iff,
        Attempt.read_eq_matched_iff] at hmatched
      obtain ⟨there, between, hthere, hcapture⟩ := hmatched
      cases there with
      | true => exact .inr ⟨between, hthere, hcapture⟩
      | false => cases hcapture

omit [Producer π] in
/-- A choice that matches has a first option that does. -/
theorem firstOf_eq_matched {matcher : Matcher π} {options : List Pattern} {scope : Scope}
    {place : Position} {input after : Input π} {success : Match}
    (hmatched : firstOf matcher options scope place input = (.matched success, after)) :
    ∃ earlier option later between, options = earlier ++ option :: later ∧
      firstOf matcher earlier scope place input = (.missed, between) ∧
      matcher option scope place between = (.matched success, after) := by
  induction options generalizing input with
  | nil => cases hmatched
  | cons option rest ih =>
      rw [firstOf, Attempt.orElse_eq_iff] at hmatched
      rcases hmatched with ⟨next, hmissed, hrest⟩ | ⟨hfirst, -⟩
      · obtain ⟨earlier, chosen, later, between, rfl, hearlier, hchosen⟩ := ih hrest
        refine ⟨option :: earlier, chosen, later, between, rfl, ?_, hchosen⟩
        exact Attempt.orElse_eq_iff.mpr (.inl ⟨next, hmissed, hearlier⟩)
      · exact ⟨[], option, rest, input, rfl, rfl, hfirst⟩

/-- A matcher whose successes all have derivations. -/
def Explained (matcher : Matcher π) : Prop :=
  ∀ {pattern scope place input success after},
    matcher pattern scope place input = (.matched success, after) →
      Derives (.pattern pattern) ⟨scope, place, input⟩ [success.value]
        ⟨success.scope, success.position, after⟩

variable {matcher : Matcher π}

theorem derives_of_allOf (hmatcher : Explained matcher) {parts : List Pattern}
    {scope inner : Scope} {place last : Position} {input after : Input π}
    {values : List Value}
    (hmatched : allOf matcher parts scope place input = (.matched (values, last, inner), after)) :
    Derives (.parts parts) ⟨scope, place, input⟩ values ⟨inner, last, after⟩ := by
  induction parts generalizing scope place input values with
  | nil =>
      cases hmatched
      exact .nil
  | cons part rest ih =>
      simp only [allOf, Attempt.bind_eq_andThen, Attempt.pure_eq_succeed,
        Attempt.andThen_eq_matched_iff, Attempt.succeed_eq_matched_iff] at hmatched
      obtain ⟨first, between, hfirst, ⟨others, _, _⟩, next, hrest, hresult, rfl⟩ := hmatched
      cases hresult
      exact .cons (hmatcher hfirst) (ih hrest)

/-- A round matches the separator that is due and the part. -/
theorem derives_of_round (hmatcher : Explained matcher) {part : Pattern}
    {separator : Option Pattern} {tally later : Tally} {input after : Input π}
    (hmatched : round matcher part separator tally input = (.matched later, after)) :
    ∃ turn : Turn,
      Derives (.parts (dueAfter separator tally.parts.size ++ [part]))
        ⟨tally.scope, tally.position, input⟩ turn.values
        ⟨later.scope, later.position, after⟩ ∧
      later.parts = tally.parts.push turn.part ∧
      later.separators.toList = tally.separators.toList ++ turn.separator.toList := by
  simp only [round, Attempt.bind_eq_andThen, Attempt.pure_eq_succeed,
    Attempt.andThen_eq_matched_iff, Attempt.succeed_eq_matched_iff] at hmatched
  obtain ⟨ready, between, hready, matched, _, hpart, rfl, rfl⟩ := hmatched
  have hlast := (hmatcher hpart).single
  cases separator with
  | none =>
      cases hready
      refine ⟨⟨none, matched.value⟩, ?_, rfl, by simp⟩
      simpa [dueAfter, Turn.values] using hlast
  | some separating =>
      by_cases hempty : tally.parts.isEmpty = true
      · have hsize : tally.parts.size = 0 := by simpa using hempty
        simp only [beforePart, hempty, if_true] at hready
        cases hready
        refine ⟨⟨none, matched.value⟩, ?_, rfl, by simp⟩
        simpa [dueAfter, hsize, Turn.values] using hlast
      · have hsize : tally.parts.size ≠ 0 := by simpa using hempty
        simp only [beforePart, hempty, Bool.false_eq_true, if_false,
          Attempt.bind_eq_andThen, Attempt.pure_eq_succeed,
          Attempt.andThen_eq_matched_iff, Attempt.succeed_eq_matched_iff] at hready
        obtain ⟨before, _, hbefore, rfl, rfl⟩ := hready
        refine ⟨⟨some before.value, matched.value⟩, ?_, rfl, by simp⟩
        simpa [dueAfter, hsize, Turn.values] using (hmatcher hbefore).single.append hlast

/-- What a repetition has collected since a spot is what some rounds yielded. -/
structure Collected (part : Pattern) (separator : Option Pattern) (here : Spot π)
    (turns : List Turn) (tally : Tally) (input : Input π) : Prop where
  parts : tally.parts.toList = turns.map Turn.part
  separators : tally.separators.toList = turns.filterMap Turn.separator
  rounds : Derives (.parts (unrolled part separator turns.length)) here
    (turns.flatMap Turn.values) ⟨tally.scope, tally.position, input⟩

/-- One more round adds one turn. -/
theorem Collected.round (hmatcher : Explained matcher) {part : Pattern}
    {separator : Option Pattern} {here : Spot π} {turns : List Turn} {tally later : Tally}
    {input after : Input π} (hcollected : Collected part separator here turns tally input)
    (hmatched : Match.round matcher part separator tally input = (.matched later, after)) :
    ∃ turn, Collected part separator here (turns ++ [turn]) later after := by
  obtain ⟨turn, hround, hparts, hseparators⟩ := derives_of_round hmatcher hmatched
  have hsize : tally.parts.size = turns.length := by
    rw [← Array.length_toList, hcollected.parts, List.length_map]
  rw [hsize] at hround
  refine ⟨turn, ?_, ?_, ?_⟩
  · simp [hparts, hcollected.parts]
  · rw [hseparators, hcollected.separators]
    cases turn with
    | mk before value => cases before <;> simp
  · simpa [unrolled] using hcollected.rounds.append hround

/-- Rounds that come to an end have added turns. The last round may have missed, and then
it leaves nothing but a longer input. -/
theorem Collected.rounds_end (hmatcher : Explained matcher) {part : Pattern}
    {separator : Option Pattern} {most : Option Nat} {granted : Nat} {here : Spot π}
    {turns : List Turn} {tally final : Tally} {input after : Input π}
    (hgrows : Grows matcher) (hcollected : Collected part separator here turns tally input)
    (hmatched : Match.rounds matcher part separator most granted tally input =
      (.matched final, after)) :
    ∃ turns last, Collected part separator here turns final last ∧ last.GrowsTo after := by
  induction granted generalizing turns tally input with
  | zero => cases hmatched
  | succ granted ih =>
      unfold Match.rounds at hmatched
      split at hmatched
      · cases hmatched
        exact ⟨turns, after, hcollected, .refl after⟩
      · cases hending : Match.round matcher part separator tally input with
        | mk verdict next =>
            rw [hending] at hmatched
            cases verdict with
            | missed =>
                cases hmatched
                exact ⟨turns, input, hcollected,
                  (grows_round hgrows _ _ _).after hending⟩
            | halted reason => cases hmatched
            | matched later =>
                obtain ⟨turn, hlater⟩ := hcollected.round hmatcher hending
                dsimp only at hmatched
                split at hmatched
                · cases hmatched
                  exact ⟨_, after, hlater, .refl after⟩
                · exact ih hlater hmatched

/-- A matched form has a derivation if matched patterns have. -/
theorem derives_of_form {granted : Nat} (hmatcher : Explained (Pattern.run (π := π) granted))
    {shape : Form} {scope : Scope} {place : Position} {input after : Input π}
    {success : Match}
    (hmatched : form (Pattern.run granted) granted shape scope place input =
      (.matched success, after)) :
    Derives (.form shape) ⟨scope, place, input⟩ [success.value]
      ⟨success.scope, success.position, after⟩ := by
  have hgrows := grows_run (π := π) granted
  cases shape with
  | literal term =>
      simp only [form, Attempt.bind_eq_andThen, Attempt.andThen_eq_matched_iff,
        Attempt.resolved_eq_matched_iff] at hmatched
      obtain ⟨expected, _, ⟨hknown, rfl⟩, htext⟩ := hmatched
      obtain ⟨between, hfound, hcapture⟩ := text_eq_matched htext
      obtain ⟨token, htoken, rfl⟩ := captureToken_eq_matched hcapture
      exact .token (.literal hknown hfound) htoken
  | charClass members excluded =>
      obtain ⟨c, between, hfound, hfits, hcapture⟩ := oneChar_eq_matched hmatched
      obtain ⟨token, htoken, rfl⟩ := captureToken_eq_matched hcapture
      exact .token (.oneChar hfound hfits) htoken
  | choice options =>
      obtain ⟨earlier, option, later, between, rfl, hmissed, hchosen⟩ :=
        firstOf_eq_matched hmatched
      exact .choice hmissed (hmatcher hchosen)
  | sequence parts picks =>
      simp only [form, Attempt.bind_eq_andThen, Attempt.pure_eq_succeed,
        Attempt.andThen_eq_matched_iff, Attempt.resolved_eq_matched_iff,
        Attempt.succeed_eq_matched_iff] at hmatched
      obtain ⟨⟨values, last, inner⟩, between, hall, value, _, ⟨hpicked, rfl⟩, rfl, rfl⟩ :=
        hmatched
      exact .sequence (derives_of_allOf hmatcher hall) hpicked
  | repetition part least most separator keepSeparators =>
      simp only [form, Attempt.bind_eq_andThen, Attempt.andThen_eq_matched_iff,
        Attempt.resolved_eq_matched_iff] at hmatched
      obtain ⟨⟨low, high⟩, _, ⟨hbounds, rfl⟩, hrepetition⟩ := hmatched
      simp only [repetition, Attempt.bind_eq_andThen, Attempt.pure_eq_succeed,
        Attempt.andThen_eq_matched_iff] at hrepetition
      obtain ⟨tally, next, hrounds, hresult⟩ := hrepetition
      have hnone : Collected part separator ⟨scope, place, input⟩ []
          ⟨#[], #[], place, scope⟩ input := ⟨rfl, rfl, .nil⟩
      obtain ⟨turns, last, hturns, hlast⟩ := hnone.rounds_end hmatcher hgrows hrounds
      have hsize : tally.parts.size = turns.length := by
        rw [← Array.length_toList, hturns.parts, List.length_map]
      split at hresult
      next => cases hresult
      next henough =>
        cases hresult
        have hvalue : tally.value keepSeparators = Turn.result turns keepSeparators := by
          simp only [Tally.value, Turn.result, hturns.parts, hturns.separators]
        rw [hvalue]
        exact .repetition hbounds (by omega) hturns.rounds hlast
  | absence inner width =>
      simp only [form, Attempt.bind_eq_andThen, Attempt.andThen_eq_matched_iff] at hmatched
      obtain ⟨⟨⟩, between, habsent, hwide⟩ := hmatched
      have hmissed := Attempt.absent_eq_matched_iff.mp habsent
      rcases wide_eq_matched hwide with ⟨rfl, hcapture⟩ | ⟨next, hthere, hcapture⟩
      · obtain ⟨token, htoken, rfl⟩ := captureToken_eq_matched hcapture
        exact .token (.ahead hmissed) htoken
      · obtain ⟨token, htoken, rfl⟩ := captureToken_eq_matched hcapture
        exact .token (.wide hmissed hthere) htoken
  | demand inner message =>
      simp only [form, Attempt.orElse_eq_iff] at hmatched
      rcases hmatched with ⟨between, -, hcomplain⟩ | ⟨hmet, -⟩
      · cases hcomplain
      · exact .demand (hmatcher hmet)
  | capture inner name =>
      simp only [form, Attempt.bind_eq_andThen, Attempt.pure_eq_succeed,
        Attempt.andThen_eq_matched_iff, Attempt.succeed_eq_matched_iff] at hmatched
      obtain ⟨matched, _, hinner, rfl, rfl⟩ := hmatched
      exact .capture (hmatcher hinner)
  | overlay inner bindings =>
      simp only [form, keepScope, Attempt.bind_eq_andThen, Attempt.pure_eq_succeed,
        Attempt.andThen_eq_matched_iff, Attempt.resolved_eq_matched_iff,
        Attempt.succeed_eq_matched_iff] at hmatched
      obtain ⟨frame, _, ⟨hknown, rfl⟩, matched, _, hinner, rfl, rfl⟩ := hmatched
      have hderived := hmatcher hinner
      exact .overlay hknown hderived
  | reference term =>
      simp only [form, Attempt.bind_eq_andThen, Attempt.andThen_eq_matched_iff,
        Attempt.resolved_eq_matched_iff] at hmatched
      obtain ⟨binding, _, ⟨hknown, rfl⟩, hfollow⟩ := hmatched
      cases binding with
      | rule pattern =>
          simp only [follow, keepScope, Attempt.bind_eq_andThen, Attempt.pure_eq_succeed,
            Attempt.andThen_eq_matched_iff, Attempt.succeed_eq_matched_iff] at hfollow
          obtain ⟨matched, _, hinner, rfl, rfl⟩ := hfollow
          have hderived := hmatcher hinner
          exact .rule hknown hderived
      | value content =>
          cases hspelled : content.asText? with
          | none =>
              simp only [follow, hspelled] at hfollow
              cases hfollow
          | some expected =>
              simp only [follow, hspelled] at hfollow
              obtain ⟨between, hfound, hcapture⟩ := text_eq_matched hfollow
              obtain ⟨token, htoken, rfl⟩ := captureToken_eq_matched hcapture
              exact .token (.text hknown hspelled hfound) htoken
  | finish =>
      simp only [form, finish, Attempt.bind_eq_andThen, Attempt.andThen_eq_matched_iff,
        Attempt.read_eq_matched_iff] at hmatched
      obtain ⟨atEnd, between, hended, hresult⟩ := hmatched
      cases atEnd with
      | true =>
          cases hresult
          exact .finish hended
      | false => cases hresult

end Match

/-- Every match of a run has a derivation. -/
theorem derives_of_run (granted : Nat) : Match.Explained (Pattern.run (π := π) granted) := by
  induction granted with
  | zero =>
      intro pattern scope place input success after hmatched
      cases hmatched
  | succ granted ih =>
      intro pattern scope place input success after hmatched
      simp only [Pattern.run, Attempt.bind_eq_andThen, Attempt.pure_eq_succeed,
        Attempt.andThen_eq_matched_iff, Attempt.succeed_eq_matched_iff] at hmatched
      obtain ⟨raw, _, hform, rfl, rfl⟩ := hmatched
      exact .pattern (Match.derives_of_form ih hform)

end ScopedGrammar
