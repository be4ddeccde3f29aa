/-
# Input read by offset

An input is the characters received so far together with the producer of the rest.
Asking for the character at an offset requests chunks until that offset is received or
the input has ended, and never asks again for what it has. Cutting a piece out requests
nothing. A complete text is the special case of an input that has ended before the first
question, so fixed and growing inputs share every operation and every law.
-/

import ScopedGrammar.Input.Producer

namespace ScopedGrammar

/-- The state of an input: the characters received, whether the end has been announced,
how many requests were made, and the producer to ask next. Offsets count characters. -/
structure Input (π : Type) where
  buffer : Array Char
  finished : Bool
  requests : Nat
  producer : π

namespace Input

variable {π : Type}

/-- An input of which nothing has been received yet. -/
def ofProducer (producer : π) : Input π where
  buffer := #[]
  finished := false
  requests := 0
  producer := producer

/-- An input that is complete from the start. -/
def ofText (text : String) : Input Silence where
  buffer := text.toList.toArray
  finished := true
  requests := 0
  producer := {}

/-- Everything received so far. -/
def received (input : Input π) : String :=
  String.ofList input.buffer.toList

/-- The prompt of the next request. -/
def nextPrompt (input : Input π) : Prompt :=
  if input.requests = 0 then .primary else .continuation

/-- One request to the producer. An empty chunk ends the input like an explicit end. -/
def request [Producer π] (input : Input π) : Input π :=
  match Producer.request input.producer input.nextPrompt with
  | (.text content, producer) =>
      if content.toList = [] then
        { input with finished := true, requests := input.requests + 1, producer }
      else
        { input with
          buffer := input.buffer ++ content.toList.toArray
          requests := input.requests + 1
          producer }
  | (.finish, producer) =>
      { input with finished := true, requests := input.requests + 1, producer }

/-- Every request ends the input or lengthens what has been received. -/
theorem finished_or_size_lt_request [Producer π] (input : Input π) :
    input.request.finished = true ∨ input.buffer.size < input.request.buffer.size := by
  unfold request
  split
  · split
    · exact Or.inl rfl
    · rename_i content _ _ nonempty
      right
      have grows : 0 < content.toList.length := List.length_pos_iff.mpr nonempty
      simpa using grows
  · exact Or.inl rfl

/-- Requests chunks until the offset is received or the input has ended. -/
def fill [Producer π] (offset : Nat) (input : Input π) : Input π :=
  if input.finished = false ∧ input.buffer.size ≤ offset then
    fill offset input.request
  else
    input
termination_by if input.finished then 0 else offset + 1 - input.buffer.size
decreasing_by
  rename_i open_
  rcases finished_or_size_lt_request input with ended | grows
  · simp [open_.1, ended]
    omega
  · simp only [open_.1]
    split
    · simp
      omega
    · simp
      omega

/-- The character at an offset, or nothing at the end of input. -/
def charAt [Producer π] (offset : Nat) (input : Input π) : Option Char × Input π :=
  let filled := input.fill offset
  (filled.buffer[offset]?, filled)

/-- Whether there is a character at an offset. -/
def has [Producer π] (offset : Nat) (input : Input π) : Bool × Input π :=
  let (found, next) := input.charAt offset
  (found.isSome, next)

/-- Whether an offset is at or past the end of the input. -/
def isEnd [Producer π] (offset : Nat) (input : Input π) : Bool × Input π :=
  let (found, next) := input.charAt offset
  (found.isNone, next)

/-- Whether the given characters stand at an offset. The comparison stops at the first
character that differs, so nothing is requested beyond what decides it. -/
def startsWith [Producer π] (offset : Nat) : List Char → Input π → Bool × Input π
  | [], input => (true, input)
  | expected :: rest, input =>
      match input.charAt offset with
      | (some found, next) =>
          if found = expected then startsWith (offset + 1) rest next else (false, next)
      | (none, next) => (false, next)

/-- An input that has ended is not asked again. -/
theorem fill_of_finished [Producer π] {input : Input π} (ended : input.finished = true)
    (offset : Nat) : input.fill offset = input := by
  rw [fill]
  simp [ended]

/-- What has been received is not asked for again. -/
theorem fill_of_received [Producer π] {input : Input π} {offset : Nat}
    (received : offset < input.buffer.size) : input.fill offset = input := by
  rw [fill]
  simp [Nat.not_le.mpr received]

/-- After filling up to an offset, the input has ended or the offset is received. -/
theorem finished_or_lt_size_fill [Producer π] (offset : Nat) (input : Input π) :
    (input.fill offset).finished = true ∨ offset < (input.fill offset).buffer.size := by
  fun_induction fill offset input with
  | case1 input wanting ih => exact ih
  | case2 input satisfied =>
      by_cases ended : input.finished = true
      · exact Or.inl ended
      · right
        have open_ : input.finished = false := by simpa using ended
        exact Nat.lt_of_not_le fun short => satisfied ⟨open_, short⟩

/-- An input that has ended answers from what it has, and stays as it is. -/
theorem charAt_of_finished [Producer π] {input : Input π} (ended : input.finished = true)
    (offset : Nat) : input.charAt offset = (input.buffer[offset]?, input) := by
  simp [charAt, fill_of_finished ended]

/-- A received character is the answer, and the input stays as it is. -/
theorem charAt_of_received [Producer π] {input : Input π} {offset : Nat}
    (received : offset < input.buffer.size) :
    input.charAt offset = (some input.buffer[offset], input) := by
  simp [charAt, fill_of_received received, received]

/-- In a complete text, the character at an offset is that of the text. -/
theorem charAt_ofText (text : String) (offset : Nat) :
    (ofText text).charAt offset = (text.toList[offset]?, ofText text) := by
  rw [charAt_of_finished rfl]
  simp [ofText]

/-- In an input that has ended, a text stands at an offset exactly if it is the start of
what was received from there on. -/
theorem startsWith_of_finished [Producer π] {input : Input π} (ended : input.finished = true)
    (offset : Nat) (expected : List Char) :
    startsWith offset expected input =
      (expected.isPrefixOf (input.buffer.toList.drop offset), input) := by
  induction expected generalizing offset with
  | nil => simp [startsWith]
  | cons first rest ih =>
      rw [startsWith, charAt_of_finished ended]
      by_cases inside : offset < input.buffer.size
      · have found : input.buffer[offset]? = some input.buffer[offset] := by simp [inside]
        have tail : input.buffer.toList.drop offset =
            input.buffer[offset] :: input.buffer.toList.drop (offset + 1) := by
          rw [List.drop_eq_getElem_cons (by simpa using inside)]
          simp
        rw [found, tail]
        simp only [List.isPrefixOf, ih]
        by_cases same : input.buffer[offset] = first
        · simp [same]
        · have different : (first == input.buffer[offset]) = false := by
            simpa using fun equal : first = input.buffer[offset] => same equal.symm
          simp [same, different]
      · have missing : input.buffer[offset]? = none := by
          simpa using Nat.le_of_not_lt inside
        have nothing : input.buffer.toList.drop offset = [] := by
          simpa using Nat.le_of_not_lt inside
        rw [missing, nothing]
        simp [List.isPrefixOf]

/-- The received characters from one offset up to another. Nothing is requested: what is
not received is not in the piece. -/
def slice (first past : Nat) (input : Input π) : String :=
  String.ofList (input.buffer.extract first past).toList

theorem toList_slice (first past : Nat) (input : Input π) :
    (input.slice first past).toList = (input.buffer.toList.drop first).take (past - first) := by
  rw [slice, String.toList_ofList, Array.toList_extract, List.extract]

end Input

end ScopedGrammar
