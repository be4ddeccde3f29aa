/-
# What an input has asked for

An input asks its producer only for a character that it does not have, and never after the
end. So after any questions it stands where the fewest requests have brought it with which
all of them could be answered: how often it asked, what it received, which prompts it showed
and where the next input goes on follow from the furthest offset alone. Neither the order of
the questions nor how often one is put again makes a difference.

For a script the states of an input are numbered by the requests made, which turns every
statement about a sequence of questions into one about a number.
-/

import ScopedGrammar.Proofs.Input.Admission
import Mathlib.Order.Bounds.Basic

namespace ScopedGrammar

variable {π : Type} [Producer π]

/-- A question to an input. -/
inductive Query where
  | charAt (offset : Nat)
  | has (offset : Nat)
  | isEnd (offset : Nat)
  | startsWith (offset : Nat) (expected : String)
  | slice (first past : Nat)
  /-- How many characters have been received. -/
  | size

/-- The offsets at which a text is read to see whether some characters stand there: up to
and with the first that differs. -/
def comparedOffsets (text : List Char) (offset : Nat) : List Char → List Nat
  | [] => []
  | c :: rest =>
      offset :: if text[offset]? = some c then comparedOffsets text (offset + 1) rest else []

/-- The offsets whose characters a question about a text needs. -/
def Query.offsets (text : List Char) : Query → List Nat
  | .charAt offset => [offset]
  | .has offset => [offset]
  | .isEnd offset => [offset]
  | .startsWith offset expected => comparedOffsets text offset expected.toList
  | .slice _ _ => []
  | .size => []

/-- The furthest offset that some questions about a text need. -/
def furthestOf (text : List Char) (queries : List Query) : Option Nat :=
  (queries.flatMap (Query.offsets text)).max?

namespace Input

/-- The input after a question. -/
def ask (input : Input π) : Query → Input π
  | .charAt offset => (input.charAt offset).2
  | .has offset => (input.has offset).2
  | .isEnd offset => (input.isEnd offset).2
  | .startsWith offset expected => (input.startsWith offset expected.toList).2
  | .slice _ _ => input
  | .size => input

/-- The input after some questions, one after the other. -/
def askAll (input : Input π) (queries : List Query) : Input π :=
  queries.foldl ask input

/-- The input after it was read at some offsets, one after the other. -/
def readAt (input : Input π) (offsets : List Nat) : Input π :=
  offsets.foldl (fun input offset => (input.charAt offset).2) input

theorem readAt_cons (input : Input π) (offset : Nat) (rest : List Nat) :
    input.readAt (offset :: rest) = (input.fill offset).readAt rest :=
  rfl

theorem readAt_append (input : Input π) (first second : List Nat) :
    input.readAt (first ++ second) = (input.readAt first).readAt second :=
  List.foldl_append

theorem growsTo_readAt (input : Input π) (offsets : List Nat) :
    input.GrowsTo (input.readAt offsets) := by
  induction offsets generalizing input with
  | nil => exact .refl input
  | cons offset rest ih => exact (growsTo_fill offset input).trans (ih _)

theorem expectation_ofChunks (chunks : List (Option String)) :
    (ofProducer (Script.ofChunks chunks)).expectation = Script.contents chunks := by
  simp [expectation, ofProducer, Script.ofChunks]

/-- The character at an offset is that of the text which is expected to arrive. -/
theorem charAt_eq_expectation (input : Input Script) (offset : Nat) :
    input.charAt offset = (input.expectation[offset]?, input.fill offset) := by
  have hadmits := (input.fill offset).admits_expectation
  have hfilled := hadmits.getElem?_fill
  rw [String.toList_ofList, (growsTo_fill offset input).expectation_eq] at hfilled
  rw [charAt, hfilled]

theorem startsWith_eq_readAt (input : Input Script) (offset : Nat) (expected : List Char) :
    (input.startsWith offset expected).2 =
      input.readAt (comparedOffsets input.expectation offset expected) := by
  induction expected generalizing input offset with
  | nil => rfl
  | cons c rest ih =>
      have hnext := ih (input.fill offset) (offset + 1)
      rw [(growsTo_fill offset input).expectation_eq] at hnext
      rw [startsWith, charAt_eq_expectation, comparedOffsets, readAt_cons]
      cases hthere : input.expectation[offset]? with
      | none => rfl
      | some found =>
          by_cases hsame : found = c
          · simp only [hsame, if_true, hnext]
          · have hother : some found ≠ some c := fun heq => hsame (Option.some.inj heq)
            simp only [hsame, hother, if_false]
            rfl

/-- A question reads the input at the offsets that it needs, and nowhere else. -/
theorem ask_eq_readAt (input : Input Script) (query : Query) :
    input.ask query = input.readAt (query.offsets input.expectation) := by
  cases query with
  | startsWith offset expected => exact input.startsWith_eq_readAt offset expected.toList
  | charAt offset => rfl
  | has offset => rfl
  | isEnd offset => rfl
  | slice first past => rfl
  | size => rfl

theorem askAll_eq_readAt (input : Input Script) (queries : List Query) :
    input.askAll queries = input.readAt (queries.flatMap (Query.offsets input.expectation)) := by
  induction queries generalizing input with
  | nil => rfl
  | cons query rest ih =>
      have hrest := ih (input.ask query)
      have hsame : (input.ask query).expectation = input.expectation := by
        rw [ask_eq_readAt]
        exact (input.growsTo_readAt _).expectation_eq
      rw [hsame, ask_eq_readAt, ← readAt_append] at hrest
      rw [List.flatMap_cons, ← hrest, ← ask_eq_readAt]
      rfl

theorem expectation_askAll (input : Input Script) (queries : List Query) :
    (input.askAll queries).expectation = input.expectation := by
  rw [askAll_eq_readAt]
  exact (input.growsTo_readAt _).expectation_eq

end Input

namespace Script

variable {chunks : List (Option String)} {offsets : List Nat} {count later : Nat}

/-- Whether the answer to a request ends the input: it is the announced end or an empty text,
or there are no chunks left. Requests are counted from one. -/
def EndsAt (chunks : List (Option String)) : Nat → Prop
  | 0 => False
  | count + 1 => (chunks[count]?.join).getD "" = ""

instance (chunks : List (Option String)) : DecidablePred (EndsAt chunks)
  | 0 => inferInstanceAs (Decidable False)
  | count + 1 => inferInstanceAs (Decidable ((chunks[count]?.join).getD "" = ""))

/-- What the first chunks hold. -/
def held (chunks : List (Option String)) (count : Nat) : List Char :=
  (chunks.take count).flatMap fun chunk => (chunk.getD "").toList

/-- The prompts of so many requests: the primary one, and the continuation from then on. -/
def promptsOf : Nat → Array Prompt
  | 0 => #[]
  | count + 1 => (Prompt.primary :: List.replicate count Prompt.continuation).toArray

/-- The input that has made so many requests to a script. -/
def fetched (chunks : List (Option String)) (count : Nat) : Input Script where
  buffer := (held chunks count).toArray
  finished := decide (EndsAt chunks count)
  requests := count
  producer := ⟨chunks.drop count, promptsOf count⟩

theorem fetched_zero (chunks : List (Option String)) :
    fetched chunks 0 = Input.ofProducer (Script.ofChunks chunks) :=
  rfl

theorem endsAt_succ_iff :
    EndsAt chunks (count + 1) ↔ ((chunks.drop count).head?.join).getD "" = "" := by
  rw [List.head?_drop]
  rfl

theorem promptsOf_succ (count : Nat) :
    promptsOf (count + 1) =
      (promptsOf count).push (if count = 0 then .primary else .continuation) := by
  cases count with
  | zero => rfl
  | succ count => simp [promptsOf, List.replicate_succ']

theorem held_succ (chunks : List (Option String)) (count : Nat) :
    held chunks (count + 1) =
      held chunks count ++ ((chunks[count]?.join).getD "").toList := by
  rw [held, List.take_add_one, List.flatMap_append]
  cases chunks[count]? <;> simp [held]

/-- A request leads from one state to the next. -/
theorem request_fetched (hopen : ¬ EndsAt chunks count) :
    (fetched chunks count).request = fetched chunks (count + 1) := by
  have hprompt : (fetched chunks count).nextPrompt =
      if count = 0 then .primary else .continuation := rfl
  have hdrop : chunks.drop (count + 1) = (chunks.drop count).tail := List.tail_drop.symm
  have hheld := held_succ chunks count
  rw [← List.head?_drop] at hheld
  rw [Input.request, hprompt, fetched, fetched, promptsOf_succ, hdrop, hheld]
  simp only [Producer.request, Script.request, endsAt_succ_iff]
  rcases chunks.drop count with _ | ⟨_ | content, rest⟩
  · simp
  · simp
  · by_cases hempty : content = "" <;> simp [hempty, hopen]

theorem held_prefix_held (chunks : List (Option String)) (hle : count ≤ later) :
    held chunks count <+: held chunks later := by
  induction hle with
  | refl => exact List.prefix_refl _
  | step hle ih =>
      rw [held_succ]
      exact ih.trans (List.prefix_append _ _)

/-- Whether so many requests are enough to know what stands at some offsets. -/
def Suffices (chunks : List (Option String)) (offsets : List Nat) (count : Nat) : Prop :=
  EndsAt chunks count ∨ ∀ offset ∈ offsets, offset < (held chunks count).length

/-- Filling an input requests until the offset is there, and no longer. -/
theorem exists_fill (chunks : List (Option String)) (offset count : Nat) :
    ∃ later, count ≤ later ∧ (fetched chunks count).fill offset = fetched chunks later ∧
      Suffices chunks [offset] later ∧
      ∀ earlier, count ≤ earlier → earlier < later → ¬ Suffices chunks [offset] earlier := by
  generalize hinput : fetched chunks count = input
  fun_induction Input.fill offset input generalizing count with
  | case1 input wanting ih =>
      subst hinput
      have hopen : ¬ EndsAt chunks count := of_decide_eq_false wanting.1
      have hshort : (held chunks count).length ≤ offset := wanting.2
      obtain ⟨later, hle, hfill, hsuffices, hearlier⟩ := ih (count + 1) (request_fetched hopen).symm
      refine ⟨later, by omega, hfill, hsuffices, fun earlier hfrom hbefore => ?_⟩
      by_cases hsame : earlier = count
      · subst hsame
        simpa [Suffices, hopen] using hshort
      · exact hearlier earlier (by omega) hbefore
  | case2 input satisfied =>
      subst hinput
      refine ⟨count, Nat.le_refl count, rfl, ?_, by omega⟩
      by_cases hended : EndsAt chunks count
      · exact .inl hended
      · right
        have hthere : ¬ (held chunks count).length ≤ offset :=
          fun hshort => satisfied ⟨decide_eq_false hended, hshort⟩
        simpa using hthere

/-- Reading at several offsets makes the fewest requests that are enough for all of them. -/
theorem exists_readAt (chunks : List (Option String)) (offsets : List Nat) (count : Nat) :
    ∃ later, count ≤ later ∧ (fetched chunks count).readAt offsets = fetched chunks later ∧
      Suffices chunks offsets later ∧
      ∀ earlier, count ≤ earlier → earlier < later → ¬ Suffices chunks offsets earlier := by
  induction offsets generalizing count with
  | nil => exact ⟨count, Nat.le_refl count, rfl, .inr (by simp), by omega⟩
  | cons offset rest ih =>
      obtain ⟨middle, hmiddle, hfill, hfirst, hbefore⟩ := exists_fill chunks offset count
      obtain ⟨later, hlater, hread, hrest, hbetween⟩ := ih middle
      refine ⟨later, by omega, ?_, ?_, fun earlier hfrom hless hsuffices => ?_⟩
      · rw [Input.readAt_cons, hfill, hread]
      · rcases hrest with hended | hrest
        · exact .inl hended
        rcases hfirst with hended | hfirst
        · -- An input that has ended is not asked again, so it ends in the same state.
          have hsame : later = middle :=
            Nat.le_antisymm (Nat.le_of_not_lt fun hless =>
              hbetween middle (Nat.le_refl _) hless (.inl hended)) hlater
          exact .inl (hsame ▸ hended)
        · have hlonger := (held_prefix_held chunks hlater).length_le
          have hthere := hfirst offset (List.mem_singleton_self offset)
          exact .inr (List.forall_mem_cons.mpr ⟨by omega, hrest⟩)
      · by_cases hearly : earlier < middle
        · refine hbefore earlier hfrom hearly (hsuffices.imp_right fun hall => ?_)
          exact List.forall_mem_singleton.mpr (hall offset List.mem_cons_self)
        · refine hbetween earlier (Nat.le_of_not_lt hearly) hless (hsuffices.imp_right ?_)
          exact fun hall other hmem => hall other (List.mem_cons_of_mem offset hmem)

/-- Whether so many chunks hold more characters than a furthest offset, or the last of them
ends the input. Where nothing was asked, no chunk is needed. -/
def Reaches (chunks : List (Option String)) (furthest : Option Nat) (count : Nat) : Prop :=
  EndsAt chunks count ∨ ∀ offset ∈ furthest, offset < (held chunks count).length

/-- Of some offsets the furthest decides how many requests are enough. -/
theorem suffices_iff_reaches :
    Suffices chunks offsets count ↔ Reaches chunks offsets.max? count := by
  refine or_congr_right ?_
  cases hmax : offsets.max? with
  | none =>
      rw [List.max?_eq_none_iff.mp hmax]
      simp
  | some furthest =>
      obtain ⟨hmem, hle⟩ := List.max?_eq_some_iff.mp hmax
      constructor
      · rintro hall _ ⟨⟩
        exact hall furthest hmem
      · exact fun hfurthest offset hoffset =>
          Nat.lt_of_le_of_lt (hle offset hoffset) (hfurthest furthest rfl)

end Script

theorem exists_askAll (chunks : List (Option String)) (queries : List Query) :
    ∃ count, (Input.ofProducer (Script.ofChunks chunks)).askAll queries =
        Script.fetched chunks count ∧
      IsLeast {count | Script.Reaches chunks (furthestOf (Script.contents chunks) queries) count}
        count := by
  have hread := (Input.ofProducer (Script.ofChunks chunks)).askAll_eq_readAt queries
  rw [Input.expectation_ofChunks, ← Script.fetched_zero] at hread
  obtain ⟨count, -, hcount, hsuffices, hearlier⟩ :=
    Script.exists_readAt chunks (queries.flatMap (Query.offsets (Script.contents chunks))) 0
  refine ⟨count, ?_, Script.suffices_iff_reaches.mp hsuffices, fun other hother => ?_⟩
  · rw [← Script.fetched_zero, hread, hcount]
  · exact Nat.le_of_not_lt fun hless =>
      hearlier other (Nat.zero_le other) hless (Script.suffices_iff_reaches.mpr hother)

/-- Each question reads an input from a script at the offsets that it needs. After any
questions the input has made the fewest requests with which the furthest of these offsets is
received or the input has ended. What it has received, whether it has ended,
the prompts and the chunks that are left follow from their number. Questions with the same
furthest offset, in whatever order, leave the same input; and once it has ended, no question
changes it. -/
theorem requests_follow_furthest (chunks : List (Option String)) (queries : List Query) :
    let text := Script.contents chunks
    let start := Input.ofProducer (Script.ofChunks chunks)
    let input := start.askAll queries
    (∀ earlier query, (start.askAll earlier).ask query =
        (start.askAll earlier).readAt (query.offsets text)) ∧
      IsLeast {count | Script.Reaches chunks (furthestOf text queries) count} input.requests ∧
      input.buffer.toList = Script.held chunks input.requests ∧
      (input.finished = true ↔ Script.EndsAt chunks input.requests) ∧
      input.producer = ⟨chunks.drop input.requests, Script.promptsOf input.requests⟩ ∧
      (∀ others, furthestOf text others = furthestOf text queries →
        start.askAll others = input) ∧
      (input.finished = true → ∀ more, input.askAll more = input) := by
  intro text start input
  obtain ⟨count, hinput, hleast⟩ := exists_askAll chunks queries
  have hfetched : input = Script.fetched chunks count := hinput
  refine ⟨?_, ?_, ?_, ?_, ?_, ?_, ?_⟩
  · intro earlier query
    have hask := (start.askAll earlier).ask_eq_readAt query
    rwa [start.expectation_askAll, Input.expectation_ofChunks] at hask
  · rw [hfetched]
    exact hleast
  · rw [hfetched]
    rfl
  · rw [hfetched]
    exact decide_eq_true_iff
  · rw [hfetched]
    rfl
  · intro others hsame
    obtain ⟨other, hother, hleastOther⟩ := exists_askAll chunks others
    have hfurthest : furthestOf (Script.contents chunks) others =
        furthestOf (Script.contents chunks) queries := hsame
    rw [hfurthest] at hleastOther
    rw [hother, hfetched, hleast.unique hleastOther]
  · intro hended more
    have hmore := input.askAll_eq_readAt more
    rw [hmore]
    exact (input.growsTo_readAt _).settled hended

/-- A comparison stops at the first difference, and so do the requests: what could stand
after it is not asked for. -/
example :
    let input := (Input.ofProducer (Script.ofChunks [some "ab", some "cd", none])).askAll
      [.startsWith 1 "bx", .slice 0 9, .has 0, .startsWith 0 "xbcd"]
    (input.requests, input.received) = (2, "abcd") := by
  cbv

end ScopedGrammar
