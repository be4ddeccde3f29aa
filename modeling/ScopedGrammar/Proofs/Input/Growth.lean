/-
# Inputs only grow

Asking an input for a character may request chunks, and each chunk is added at the end of
what has been received. So an input after a question is related to the input before it in
one way: it is what some requests made of it, all of them made before it had ended. The
relation is reflexive and transitive, which is all that reading adds up to. What was
received stays at its place, and an input that has ended stays as it is.
-/

import ScopedGrammar.Input.Token

namespace ScopedGrammar

variable {π α : Type} [Producer π]

namespace Input

/-- What may have happened to an input between two moments: requests, while it was open. -/
inductive GrowsTo : Input π → Input π → Prop
  | refl (input : Input π) : GrowsTo input input
  | request {input later : Input π} (hopen : input.finished = false)
      (hlater : GrowsTo input.request later) : GrowsTo input later

/-- A request leaves what was received where it was. -/
theorem prefix_request (input : Input π) :
    input.buffer.toList <+: input.request.buffer.toList := by
  unfold request
  split
  · split
    · exact List.prefix_refl _
    · simp
  · exact List.prefix_refl _

theorem requests_request (input : Input π) : input.request.requests = input.requests + 1 := by
  unfold request
  split
  · split <;> rfl
  · rfl

namespace GrowsTo

theorem trans {first middle last : Input π} (hfirst : first.GrowsTo middle)
    (hlast : middle.GrowsTo last) : first.GrowsTo last := by
  induction hfirst with
  | refl input => exact hlast
  | request hopen hlater ih => exact .request hopen (ih hlast)

/-- What was received is still there, at the same offsets. -/
theorem received {input later : Input π} (hgrows : input.GrowsTo later) :
    input.buffer.toList <+: later.buffer.toList := by
  induction hgrows with
  | refl input => exact List.prefix_refl _
  | @request input later hopen hlater ih => exact (prefix_request input).trans ih

/-- An input that had ended is as it was. -/
theorem settled {input later : Input π} (hgrows : input.GrowsTo later)
    (ended : input.finished = true) : later = input := by
  cases hgrows with
  | refl input => rfl
  | request hopen hlater =>
      rw [ended] at hopen
      cases hopen

theorem size_le {input later : Input π} (hgrows : input.GrowsTo later) :
    input.buffer.size ≤ later.buffer.size := by
  simpa using hgrows.received.length_le

theorem requests_le {input later : Input π} (hgrows : input.GrowsTo later) :
    input.requests ≤ later.requests := by
  induction hgrows with
  | refl input => exact Nat.le_refl _
  | request hopen hlater ih =>
      rw [requests_request] at ih
      exact Nat.le_of_succ_le ih

/-- Without a request nothing changes. -/
theorem eq_of_requests {input later : Input π} (hgrows : input.GrowsTo later)
    (hrequests : later.requests = input.requests) : later = input := by
  cases hgrows with
  | refl input => rfl
  | request hopen hlater =>
      have hless := hlater.requests_le
      rw [requests_request, hrequests] at hless
      exact absurd hless (Nat.not_succ_le_self _)

end GrowsTo

theorem growsTo_fill (offset : Nat) (input : Input π) : input.GrowsTo (input.fill offset) := by
  fun_induction fill offset input with
  | case1 input wanting ih => exact .request wanting.1 ih
  | case2 input satisfied => exact .refl input

end Input

/-- A step on inputs that can only let them grow. -/
def Growing (step : Input π → α × Input π) : Prop :=
  ∀ input : Input π, input.GrowsTo (step input).2

/-- Where a growing step leads, its input has grown. -/
theorem Growing.after {step : Input π → α × Input π} (hstep : Growing step)
    {input next : Input π} {answer : α} (hanswer : step input = (answer, next)) :
    input.GrowsTo next := by
  simpa only [hanswer] using hstep input

theorem growing_charAt (offset : Nat) : Growing (Input.charAt (π := π) offset) :=
  Input.growsTo_fill offset

theorem growing_has (offset : Nat) : Growing (Input.has (π := π) offset) :=
  growing_charAt offset

theorem growing_isEnd (offset : Nat) : Growing (Input.isEnd (π := π) offset) :=
  growing_charAt offset

theorem growing_startsWith (offset : Nat) (expected : List Char) :
    Growing (Input.startsWith (π := π) offset expected) := by
  induction expected generalizing offset with
  | nil => exact Input.GrowsTo.refl
  | cons first rest ih =>
      intro input
      have hfirst := growing_charAt offset input
      rw [Input.startsWith]
      generalize input.charAt offset = answer at hfirst ⊢
      rcases answer with ⟨_ | found, next⟩
      · exact hfirst
      · by_cases same : found = first
        · simpa [same] using hfirst.trans (ih (offset + 1) next)
        · simpa [same] using hfirst

theorem growing_advance (place : Position) (count : Nat) :
    Growing (place.advance (π := π) count) := by
  induction count generalizing place with
  | zero => exact Input.GrowsTo.refl
  | succ count ih =>
      intro input
      have hfirst := growing_charAt place.offset input
      rw [Position.advance]
      generalize input.charAt place.offset = answer at hfirst ⊢
      rcases answer with ⟨_ | c, next⟩
      · exact hfirst
      · exact hfirst.trans (ih (place.step c) next)

theorem growing_capture (place : Position) (count : Nat) :
    Growing (Token.capture (π := π) place count) :=
  growing_advance place count

namespace Input

/-- A text that stands at an offset has been received from there on. -/
theorem prefix_of_startsWith {offset : Nat} {expected : List Char} {input after : Input π}
    (found : input.startsWith offset expected = (true, after)) :
    expected <+: after.buffer.toList.drop offset := by
  induction expected generalizing offset input with
  | nil => exact List.nil_prefix
  | cons first rest ih =>
      rw [startsWith] at found
      rcases hfirst : input.charAt offset with ⟨_ | c, next⟩
      · simp [hfirst] at found
      · by_cases same : c = first
        · rw [hfirst] at found
          simp only [same, if_true] at found
          have later := ((growing_startsWith (offset + 1) rest).after found).received
          have there : next.buffer.toList[offset]? = some first := by
            have answer := congrArg Prod.fst hfirst
            have filled := congrArg Prod.snd hfirst
            simp only [charAt] at answer filled
            simpa [filled, same] using answer
          obtain ⟨inside, hvalue⟩ := List.getElem?_eq_some_iff.mp there
          have kept : after.buffer.toList[offset]? = some first := by
            rw [List.prefix_iff_getElem?] at later
            rw [later offset inside, hvalue]
          obtain ⟨inside', hvalue'⟩ := List.getElem?_eq_some_iff.mp kept
          rw [List.drop_eq_getElem_cons inside', hvalue']
          exact (List.prefix_cons_inj first).mpr (ih found)
        · simp [hfirst, same] at found

/-- A character that was found is received. -/
theorem lt_size_of_charAt {offset : Nat} {c : Char} {input after : Input π}
    (found : input.charAt offset = (some c, after)) : offset < after.buffer.size := by
  have answer := congrArg Prod.fst found
  have filled := congrArg Prod.snd found
  simp only [charAt] at answer filled
  rw [filled] at answer
  exact (Array.getElem?_eq_some_iff.mp answer).1

/-- No character is found only at the end. -/
theorem finished_of_charAt {offset : Nat} {input after : Input π}
    (missing : input.charAt offset = (none, after)) : after.finished = true := by
  have answer := congrArg Prod.fst missing
  have filled := congrArg Prod.snd missing
  simp only [charAt] at answer filled
  rw [filled] at answer
  rcases finished_or_lt_size_fill offset input with ended | inside
  · rwa [filled] at ended
  · rw [filled, ← Nat.not_le] at inside
    exact absurd (Array.getElem?_eq_none_iff.mp answer) inside

theorem lt_size_of_has {offset : Nat} {input after : Input π}
    (found : input.has offset = (true, after)) : offset < after.buffer.size := by
  unfold has at found
  rcases hanswer : input.charAt offset with ⟨_ | c, next⟩
  · simp [hanswer] at found
  · have hsame : next = after := by simpa [hanswer] using found
    exact hsame ▸ lt_size_of_charAt hanswer

end Input

/-- A token of received characters holds exactly those, and taking it requests nothing. -/
theorem capture_of_received {input : Input π} (place : Position) (count : Nat)
    (there : count ≤ input.buffer.size - place.offset) :
    Token.capture place count input =
      (⟨input.slice place.offset (place.offset + count), place,
        place.past ((input.buffer.toList.drop place.offset).take count)⟩, input) := by
  have length : ((input.buffer.toList.drop place.offset).take count).length = count := by
    rw [List.length_take, List.length_drop, Array.length_toList]
    omega
  rw [Token.capture, Position.advance_of_received place count there]
  simp only [Position.offset_past, length]

end ScopedGrammar
