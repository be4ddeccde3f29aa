/-
# One match over two inputs

A pattern may be matched twice from one position and in one scope, and the two matches
differ only in what they read. Scopes, terms and bindings are then the same on both sides,
so all of their laws hold without regard to the inputs. What is left to show is that reading
answers alike, and that a demand which is not met halts alike.
-/

import ScopedGrammar.Proofs.Match.Accord

namespace ScopedGrammar

variable {π ρ : Type}

/-- The accord of one match over two inputs. Both sides have the same parts, so only the
inputs, the places and the halts are left to choose, with those that the first side may have
alone. -/
def Accord.overInputs (inputs : Input π → Input ρ → Prop) (places : Position → Position → Prop)
    (halts : Halt → Halt → Prop) (excuses : Halt → Prop) : Accord π ρ where
  inputs := inputs
  places := places
  values := Eq
  contents := Eq
  scopes := Eq
  patterns := Eq
  terms := Eq
  targets := Eq
  messages := Eq
  halts := halts
  excuses := excuses
  pardons _ := False
  steps := Eq

namespace Accord

variable {inputs : Input π → Input ρ → Prop} {places : Position → Position → Prop}
  {halts : Halt → Halt → Prop} {excuses : Halt → Prop}

theorem bindings_overInputs (binding : Binding) :
    (overInputs inputs places halts excuses).Bindings binding binding := by
  cases binding with
  | value content => exact .value rfl
  | rule pattern => exact .rule rfl

theorem eq_of_bindings_overInputs {binding other : Binding}
    (hbindings : (overInputs inputs places halts excuses).Bindings binding other) :
    binding = other := by
  cases hbindings with
  | value hcontents => exact congrArg Binding.value hcontents
  | rule hpatterns => exact congrArg Binding.rule hpatterns

theorem eq_of_frames_overInputs {frame other : Frame}
    (hframes : (overInputs inputs places halts excuses).Frames frame other) : frame = other := by
  induction hframes with
  | nil => rfl
  | cons hentry _ ih =>
      rw [ih, Prod.ext hentry.1 (eq_of_bindings_overInputs hentry.2)]

theorem forms_overInputs (shape : Form) :
    (overInputs inputs places halts excuses).Forms shape shape := by
  cases shape with
  | literal text => exact .literal rfl
  | charClass members excluded => exact .charClass members excluded
  | choice options => exact .choice (List.forall₂_same.mpr fun _ _ => rfl)
  | sequence parts picks => exact .sequence (List.forall₂_same.mpr fun _ _ => rfl) picks
  | repetition part least most separator keepSeparators =>
      refine .repetition rfl rfl ?_ ?_ keepSeparators
      · cases most with
        | none => exact .none
        | some most => exact .some rfl
      · cases separator with
        | none => exact .none
        | some separator => exact .some rfl
  | absence inner width => exact .absence rfl width
  | demand inner message => exact .demand rfl rfl
  | capture inner name => exact .capture rfl name
  | overlay inner bindings =>
      exact .overlay rfl (List.forall₂_same.mpr fun _ _ => ⟨rfl, rfl⟩)
  | reference target => exact .reference rfl
  | finish => exact .finish

variable [Producer π] [Producer ρ]

/-- Both sides stand at the same places, so what is left of the laws about reading are those
about characters and tokens. -/
theorem reads_overInputs (hplaces : ∀ {place other}, places place other → place = other)
    (hoverflow : halts .overflow .overflow)
    (hcharAt : ∀ {place input other}, places place place → inputs input other → ∀ ahead,
      (input.charAt (place.offset + ahead)).1 = (other.charAt (place.offset + ahead)).1 ∧
        inputs (input.charAt (place.offset + ahead)).2 (other.charAt (place.offset + ahead)).2)
    (hcapture : ∀ {place input other}, places place place → inputs input other → ∀ count,
      (Token.capture place count input).1 = (Token.capture place count other).1 ∧
        places (Token.capture place count input).1.stop
          (Token.capture place count other).1.stop ∧
        inputs (Token.capture place count input).2 (Token.capture place count other).2) :
    (overInputs inputs places halts excuses).Reads where
  charAt := by
    intro place other input otherInput hplace hinputs ahead
    obtain rfl := hplaces hplace
    exact hcharAt hplace hinputs ahead
  capture := by
    intro place other input otherInput hplace hinputs count
    obtain rfl := hplaces hplace
    obtain ⟨hsame, hstops, hafter⟩ := hcapture hplace hinputs count
    exact ⟨⟨congrArg Value.token hsame, hstops⟩, hafter⟩
  samePlace := by
    intro place other later otherLater hplace hlater
    rw [hplaces hplace, hplaces hlater]
  overflow := by
    intro place other hplace width
    rw [hplaces hplace]
    exact .inl ⟨hoverflow, Iff.rfl⟩
  empty := rfl
  endMark := rfl
  list hmembers := congrArg Value.list (List.forall₂_eq_eq_eq ▸ hmembers)

/-- A demand that is not met halts alike, if its message reads alike and the diagnostic is
raised alike. -/
theorem complain_overInputs {message : Message} {scope : Scope} {place : Position}
    (hrender : ∀ {input other}, inputs input other →
      (message.render scope place input).1 = (message.render scope place other).1 ∧
        inputs (message.render scope place input).2 (message.render scope place other).2)
    (hraise : ∀ {text input other}, inputs input other →
      halts (.diagnostic (Diagnostic.expected text place input).1)
          (.diagnostic (Diagnostic.expected text place other).1) ∧
        inputs (Diagnostic.expected text place input).2
          (Diagnostic.expected text place other).2) :
    (overInputs inputs places halts excuses).InStep
      (overInputs inputs places halts excuses).Successes
      (Match.complain message scope place) (Match.complain message scope place) := by
  have hread : (overInputs inputs places halts excuses).InStep Eq
      (Attempt.read (message.render scope place)) (Attempt.read (message.render scope place)) :=
    .read hrender
  refine .bind hread ?_
  rintro text _ rfl
  have hexpected : (overInputs inputs places halts excuses).InStep
      (fun diagnostic other => halts (.diagnostic diagnostic) (.diagnostic other))
      (Attempt.read (Diagnostic.expected text place))
      (Attempt.read (Diagnostic.expected text place)) :=
    .read hraise
  exact .bind hexpected fun hhalts => .halt hhalts

theorem scopes_overInputs (hplaces : ∀ {place other}, places place other → place = other)
    (hdefect : ∀ defect, halts (.defect defect) (.defect defect))
    (hexhausted : halts .exhausted .exhausted)
    (hcomplain : ∀ message scope {place}, places place place →
      (overInputs inputs places halts excuses).InStep
        (overInputs inputs places halts excuses).Successes
        (Match.complain message scope place) (Match.complain message scope place)) :
    (overInputs inputs places halts excuses).Scopes where
  value := by
    rintro term _ scope _ rfl rfl
    exact .of_eq hdefect (fun _ => rfl) _
  resolve := by
    rintro term _ scope _ rfl rfl
    exact .of_eq hdefect bindings_overInputs _
  asText := congrArg _
  asInt := congrArg _
  notText := by
    rintro term _ content _ rfl rfl
    exact hdefect _
  notParsable := by
    rintro term _ content _ rfl rfl
    exact hdefect _
  invalidBound := by
    rintro content _ rfl
    exact hdefect _
  bind := by
    rintro scope _ value _ rfl rfl name
    rfl
  push := by
    rintro scope _ frame other rfl hframes
    exact congrArg scope.push (eq_of_frames_overInputs hframes)
  complain := by
    rintro message _ scope _ place other rfl rfl hplace
    obtain rfl := hplaces hplace
    exact hcomplain message scope hplace
  defect := hdefect
  exhausted := hexhausted
  steps_pred := Nat.succ.inj
  excuses_of_steps hsteps := nomatch hsteps
  pardons_of_steps hsteps := nomatch hsteps

/-- Every pattern comes to the same over both inputs, if its parts that read do. -/
theorem matchers_overInputs (hreads : (overInputs inputs places halts excuses).Reads)
    (hscopes : (overInputs inputs places halts excuses).Scopes) (granted : Nat) :
    (overInputs inputs places halts excuses).Matchers (Pattern.run granted)
      (Pattern.run granted) := by
  refine matchers_run hreads hscopes (fun _ => rfl) ?_ ?_ granted
  · rintro pattern _ rfl
    exact forms_overInputs pattern.form
  · rintro pattern _ value _ rfl rfl
    rfl

end Accord

end ScopedGrammar
