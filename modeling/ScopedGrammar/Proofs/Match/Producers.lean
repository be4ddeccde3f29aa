/-
# Producers that answer alike

A parse knows its producer by the chunks that it gets. If two producers give the same chunks to
the same prompts, now and after every request, then a parse has the same result with both,
receives the same text, and asks as often. What else a producer does on the way, such as
writing its prompts somewhere, has no effect.
-/

import ScopedGrammar.Grammar.Basic
import ScopedGrammar.Proofs.Match.Parallel

namespace ScopedGrammar

variable {π ρ : Type} [Producer π] [Producer ρ] {relation : π → ρ → Prop}

/-- Related producers give the same chunk to any prompt, and are related afterwards. -/
def AnswersAlike (relation : π → ρ → Prop) : Prop :=
  ∀ ⦃producer : π⦄ ⦃other : ρ⦄, relation producer other → ∀ prompt,
    (Producer.request producer prompt).1 = (Producer.request other prompt).1 ∧
      relation (Producer.request producer prompt).2 (Producer.request other prompt).2

/-- Two inputs differ at most in their producers, and these are related. -/
structure Input.Alike (relation : π → ρ → Prop) (input : Input π) (other : Input ρ) : Prop where
  buffer : input.buffer = other.buffer
  finished : input.finished = other.finished
  requests : input.requests = other.requests
  producer : relation input.producer other.producer

namespace Input.Alike

variable {input : Input π} {other : Input ρ}

omit [Producer π] [Producer ρ] in
theorem ofProducer {producer : π} {otherProducer : ρ} (hrelated : relation producer otherProducer) :
    (Input.ofProducer producer).Alike relation (Input.ofProducer otherProducer) :=
  ⟨rfl, rfl, rfl, hrelated⟩

theorem request (hanswers : AnswersAlike relation) (halike : input.Alike relation other) :
    input.request.Alike relation other.request := by
  have hprompt : other.nextPrompt = input.nextPrompt := by
    rw [Input.nextPrompt, Input.nextPrompt, halike.requests]
  obtain ⟨hchunk, hafter⟩ := hanswers halike.producer input.nextPrompt
  unfold Input.request
  rw [hprompt]
  generalize Producer.request input.producer input.nextPrompt = answer at hchunk hafter ⊢
  generalize Producer.request other.producer input.nextPrompt = otherAnswer at hchunk hafter ⊢
  obtain ⟨chunk, next⟩ := answer
  obtain ⟨otherChunk, otherNext⟩ := otherAnswer
  cases hchunk
  have hrequests := congrArg (· + 1) halike.requests
  cases chunk with
  | finish => exact ⟨halike.buffer, rfl, hrequests, hafter⟩
  | text content =>
      dsimp only
      split
      · exact ⟨halike.buffer, rfl, hrequests, hafter⟩
      · exact ⟨by rw [halike.buffer], halike.finished, hrequests, hafter⟩

theorem fill (hanswers : AnswersAlike relation) (offset : Nat)
    (halike : input.Alike relation other) :
    (input.fill offset).Alike relation (other.fill offset) := by
  fun_induction Input.fill offset input generalizing other with
  | case1 input hwanting ih =>
      have hother : other.fill offset = other.request.fill offset := by
        conv_lhs => rw [Input.fill]
        rw [if_pos (by rwa [← halike.finished, ← halike.buffer])]
      rw [hother]
      exact ih (halike.request hanswers)
  | case2 input hsatisfied =>
      rw [Input.fill, if_neg (by rwa [← halike.finished, ← halike.buffer])]
      exact halike

end Input.Alike

/-- Two ways to read give the same answers on alike inputs, and leave them alike. -/
def ReadsAlike {α : Type} (relation : π → ρ → Prop) (step : Input π → α × Input π)
    (otherStep : Input ρ → α × Input ρ) : Prop :=
  ∀ ⦃input : Input π⦄ ⦃other : Input ρ⦄, input.Alike relation other →
    (step input).1 = (otherStep other).1 ∧
      (step input).2.Alike relation (otherStep other).2

namespace ReadsAlike

variable {α β : Type} {step : Input π → α × Input π} {otherStep : Input ρ → α × Input ρ}

omit [Producer π] [Producer ρ] in
theorem const (relation : π → ρ → Prop) (result : α) :
    ReadsAlike relation (fun input : Input π => (result, input))
      (fun input : Input ρ => (result, input)) :=
  fun _ _ halike => ⟨rfl, halike⟩

omit [Producer π] [Producer ρ] in
/-- What is read after an answer may depend on it. -/
theorem andThen {next : α → Input π → β × Input π} {otherNext : α → Input ρ → β × Input ρ}
    (hstep : ReadsAlike relation step otherStep)
    (hnext : ∀ result, ReadsAlike relation (next result) (otherNext result)) :
    ReadsAlike relation (fun input => next (step input).1 (step input).2)
      (fun input => otherNext (otherStep input).1 (otherStep input).2) := by
  intro input other halike
  obtain ⟨hsame, hafter⟩ := hstep halike
  dsimp only
  rw [hsame]
  exact hnext _ hafter

omit [Producer π] [Producer ρ] in
/-- What is told of the characters received is the same. -/
theorem received (relation : π → ρ → Prop) (look : Array Char → α) :
    ReadsAlike relation (fun input : Input π => (look input.buffer, input))
      (fun input : Input ρ => (look input.buffer, input)) :=
  fun _ _ halike => ⟨congrArg look halike.buffer, halike⟩

theorem charAt (hanswers : AnswersAlike relation) (offset : Nat) :
    ReadsAlike relation (Input.charAt (π := π) offset) (Input.charAt offset) := by
  intro input other halike
  have hfilled := halike.fill hanswers offset
  exact ⟨congrArg (·[offset]?) hfilled.buffer, hfilled⟩

theorem isEnd (hanswers : AnswersAlike relation) (offset : Nat) :
    ReadsAlike relation (Input.isEnd (π := π) offset) (Input.isEnd offset) :=
  (ReadsAlike.charAt hanswers offset).andThen fun found => .const relation found.isNone

/-- What is read after a character may depend on it. -/
theorem charAt_then {found : Char → Input π → α × Input π} {missing : Input π → α × Input π}
    {otherFound : Char → Input ρ → α × Input ρ} {otherMissing : Input ρ → α × Input ρ}
    (hanswers : AnswersAlike relation) (offset : Nat)
    (hfound : ∀ c, ReadsAlike relation (found c) (otherFound c))
    (hmissing : ReadsAlike relation missing otherMissing) :
    ReadsAlike relation
      (fun input =>
        match input.charAt offset with
        | (some c, next) => found c next
        | (none, next) => missing next)
      (fun input =>
        match input.charAt offset with
        | (some c, next) => otherFound c next
        | (none, next) => otherMissing next) := by
  intro input other halike
  obtain ⟨hsame, hafter⟩ := ReadsAlike.charAt hanswers offset halike
  dsimp only
  generalize input.charAt offset = answer at hsame hafter ⊢
  generalize other.charAt offset = otherAnswer at hsame hafter ⊢
  obtain ⟨there, next⟩ := answer
  obtain ⟨otherThere, otherNext⟩ := otherAnswer
  cases hsame
  cases there with
  | none => exact hmissing hafter
  | some c => exact hfound c hafter

theorem advance (hanswers : AnswersAlike relation) (place : Position) (count : Nat) :
    ReadsAlike relation (place.advance (π := π) count) (place.advance count) := by
  induction count generalizing place with
  | zero => exact .const relation place
  | succ count ih =>
      exact .charAt_then hanswers place.offset (fun c => ih (place.step c)) (.const relation _)

theorem capture (hanswers : AnswersAlike relation) (place : Position) (count : Nat) :
    ReadsAlike relation (Token.capture (π := π) place count) (Token.capture place count) := by
  have htoken (stop : Position) := ReadsAlike.received relation fun buffer =>
    Token.mk (String.ofList (buffer.extract place.offset stop.offset).toList) place stop
  exact (ReadsAlike.advance hanswers place count).andThen htoken

theorem raise (hanswers : AnswersAlike relation) (cause : Diagnostic.Cause) (message : String)
    (place : Position) :
    ReadsAlike relation (Diagnostic.raise (π := π) cause message place)
      (Diagnostic.raise cause message place) := by
  have hfirst := ReadsAlike.received relation fun buffer =>
    (String.ofList (buffer.extract 0 place.offset).toList).utf8ByteSize
  have hraised (first length : Nat) := ReadsAlike.const relation
    (Diagnostic.mk cause message place ⟨first, length⟩)
  exact hfirst.andThen fun first =>
    .charAt_then hanswers place.offset (fun c => hraised first c.utf8Size) (hraised first 0)

theorem unconsumed (hanswers : AnswersAlike relation) (place : Position) :
    ReadsAlike relation (Diagnostic.unconsumed (π := π) place) (Diagnostic.unconsumed place) :=
  .charAt_then hanswers place.offset (fun _ => .raise hanswers _ _ place)
    (.raise hanswers _ _ place)

theorem piece (hanswers : AnswersAlike relation) (scope : Scope) (place : Position)
    (piece : Message.Piece) :
    ReadsAlike relation (piece.render (π := π) scope place) (piece.render scope place) := by
  cases piece with
  | found => exact (ReadsAlike.charAt hanswers place.offset).andThen fun there => .const relation _
  | _ => exact .const relation _

theorem renderPieces (hanswers : AnswersAlike relation) (scope : Scope) (place : Position)
    (pieces : List Message.Piece) :
    ReadsAlike relation (Message.renderPieces (π := π) scope place pieces)
      (Message.renderPieces scope place pieces) := by
  induction pieces with
  | nil => exact .const relation _
  | cons piece rest ih =>
      exact (ReadsAlike.piece hanswers scope place piece).andThen fun first =>
        ih.andThen fun others => .const relation _

end ReadsAlike

/-- The accord of equal parts that read alike inputs. -/
def Accord.alike (relation : π → ρ → Prop) : Accord π ρ where
  inputs := Input.Alike relation
  places := Eq
  values := Eq
  contents := Eq
  scopes := Eq
  patterns := Eq
  terms := Eq
  targets := Eq
  messages := Eq
  halts := Eq
  excuses _ := False
  pardons _ := False
  steps := Eq

namespace Accord

theorem reads_alike (hanswers : AnswersAlike relation) : (Accord.alike relation).Reads := by
  refine reads_overInputs id rfl ?_ ?_
  · exact fun _ halike ahead => ReadsAlike.charAt hanswers _ halike
  · intro place input other _ halike count
    obtain ⟨hsame, hafter⟩ := ReadsAlike.capture hanswers place count halike
    exact ⟨hsame, congrArg Token.stop hsame, hafter⟩

theorem complain_alike (hanswers : AnswersAlike relation) (message : Message) (scope : Scope)
    (place : Position) :
    (Accord.alike relation).InStep (Accord.alike relation).Successes
      (Match.complain message scope place) (Match.complain message scope place) := by
  refine complain_overInputs ?_ ?_
  · exact fun halike => ReadsAlike.renderPieces hanswers scope place message.pieces halike
  · intro text input other halike
    obtain ⟨hsame, hafter⟩ := ReadsAlike.raise hanswers .expected text place halike
    exact ⟨congrArg Halt.diagnostic hsame, hafter⟩

theorem scopes_alike (hanswers : AnswersAlike relation) : (Accord.alike relation).Scopes :=
  scopes_overInputs id (fun _ => rfl) rfl fun message scope {place} _ =>
    complain_alike hanswers message scope place

/-- A pattern comes to the same with producers that answer alike. -/
theorem inStep_run_alike (hanswers : AnswersAlike relation) (granted : Nat) (pattern : Pattern)
    (scope : Scope) (place : Position) :
    (Accord.alike relation).InStep (Accord.alike relation).Successes
      (pattern.run granted scope place) (pattern.run granted scope place) :=
  matchers_overInputs (reads_alike hanswers) (scopes_alike hanswers) granted rfl rfl rfl

end Accord

namespace ReadsAlike

theorem run (hanswers : AnswersAlike relation) (granted : Nat) (pattern : Pattern)
    (scope : Scope) (place : Position) :
    ReadsAlike relation (pattern.run (π := π) granted scope place)
      (pattern.run granted scope place) := by
  intro input other halike
  have hends := Accord.inStep_run_alike hanswers granted pattern scope place halike
  generalize pattern.run granted scope place input = ending at hends ⊢
  generalize pattern.run granted scope place other = otherEnding at hends ⊢
  cases hends with
  | @matched success otherSuccess _ _ hresults hinputs =>
      obtain ⟨value, position, inner⟩ := success
      obtain ⟨otherValue, otherPosition, otherInner⟩ := otherSuccess
      obtain ⟨rfl, rfl, rfl⟩ := hresults
      exact ⟨rfl, hinputs⟩
  | missed hinputs => exact ⟨rfl, hinputs⟩
  | halted hhalts hinputs => exact ⟨congrArg Verdict.halted hhalts, hinputs⟩
  | excused hexcused => exact hexcused.elim
  | pardoned hpardoned => exact hpardoned.elim

theorem leadingPart (hanswers : AnswersAlike relation) (run : Run) (granted : Nat) :
    ReadsAlike relation (run.leadingPart (π := π) granted) (run.leadingPart granted) := by
  unfold Run.leadingPart
  cases run.scope.rule? run.start with
  | none => exact .const relation _
  | some rule =>
      intro input other halike
      obtain ⟨hsame, hafter⟩ := ReadsAlike.run hanswers granted rule run.scope run.position halike
      simp only [Attempt.bind_eq_andThen, Attempt.andThen]
      generalize rule.run granted run.scope run.position input = ending at hsame hafter ⊢
      generalize rule.run granted run.scope run.position other = otherEnding at hsame hafter ⊢
      obtain ⟨verdict, next⟩ := ending
      obtain ⟨otherVerdict, otherNext⟩ := otherEnding
      cases hsame
      cases verdict <;> exact ⟨rfl, hafter⟩

theorem leftOver (hanswers : AnswersAlike relation) (place : Position) :
    ReadsAlike relation (Run.leftOver (π := π) place) (Run.leftOver place) := by
  have herror (diagnostic : Diagnostic) :=
    ReadsAlike.const relation (.error (.diagnostic diagnostic) : Except Halt Value)
  exact (ReadsAlike.unconsumed hanswers place).andThen herror

theorem whole (hanswers : AnswersAlike relation) (run : Run) (granted : Nat) :
    ReadsAlike relation (run.whole (π := π) granted) (run.whole granted) := by
  intro input other halike
  obtain ⟨hsame, hafter⟩ := ReadsAlike.leadingPart hanswers run granted halike
  unfold Run.whole
  generalize run.leadingPart granted input = ending at hsame hafter ⊢
  generalize run.leadingPart granted other = otherEnding at hsame hafter ⊢
  obtain ⟨verdict, next⟩ := ending
  obtain ⟨otherVerdict, otherNext⟩ := otherEnding
  cases hsame
  rcases verdict with ⟨value, place⟩ | _ | reason
  · obtain ⟨hended, hlast⟩ := ReadsAlike.isEnd hanswers place.offset hafter
    dsimp only
    generalize next.isEnd place.offset = answer at hended hlast ⊢
    generalize otherNext.isEnd place.offset = otherAnswer at hended hlast ⊢
    obtain ⟨ended, last⟩ := answer
    obtain ⟨otherEnded, otherLast⟩ := otherAnswer
    cases hended
    cases ended with
    | true => exact ⟨rfl, hlast⟩
    | false => exact ReadsAlike.leftOver hanswers place hlast
  · exact ReadsAlike.leftOver hanswers run.position hafter
  · exact ⟨rfl, hafter⟩

end ReadsAlike

/-- Two parses of produced input differ at most in their producers, and these are related. -/
structure Transcript.Alike (relation : π → ρ → Prop) (transcript : Transcript π)
    (other : Transcript ρ) : Prop where
  result : transcript.result = other.result
  received : transcript.received = other.received
  requests : transcript.requests = other.requests
  producer : relation transcript.producer other.producer

/-- A parse comes to the same with producers that answer alike, and leaves them so. -/
theorem Grammar.parseProduced_alike (hanswers : AnswersAlike relation) (grammar : Grammar)
    (granted : Nat) {producer : π} {other : ρ} (hrelated : relation producer other) :
    (grammar.parseProduced granted producer).Alike relation
      (grammar.parseProduced granted other) := by
  obtain ⟨hresult, hafter⟩ := ReadsAlike.whole hanswers grammar.run granted
    (Input.Alike.ofProducer hrelated)
  exact ⟨hresult, congrArg (fun buffer : Array Char => String.ofList buffer.toList) hafter.buffer,
    hafter.requests, hafter.producer⟩

end ScopedGrammar
