/-
# Advancing in words

A program keeps lines, columns and offsets in words. Checked advancing stops where one of them
would leave its word, and otherwise comes to the place that unbounded counting gives. Whether it
stops is told by the characters alone: by how many newlines there are, and by how far the first
of them is. So it does not depend on how the count is split or on how the characters arrive.

From the start of a text nothing stops it, as long as the length of the text is below the bound.
From a position that a caller makes up, one character can be enough.
-/

import ScopedGrammar.Proofs.Input.Advancing

namespace ScopedGrammar

variable {π : Type} [Producer π]

namespace Position

variable {place stop : Position} {run : List Char}

theorem past?_cons (place : Position) (c : Char) (run : List Char) :
    place.past? (c :: run) = (place.step? c).bind fun later => later.past? run :=
  rfl

theorem step?_of_inWords {c : Char} (hwords : (place.step c).InWords) :
    place.step? c = some (place.step c) :=
  if_pos hwords

theorem step?_of_not_inWords {c : Char} (hout : ¬ (place.step c).InWords) :
    place.step? c = none :=
  if_neg hout

/-- Where checked counting comes to a place, it is the place that counting gives. -/
theorem eq_past_of_past? (hstop : place.past? run = some stop) : stop = place.past run := by
  induction run generalizing place with
  | nil => exact (Option.some.inj hstop).symm
  | cons c run ih =>
      rw [past?_cons] at hstop
      by_cases hwords : (place.step c).InWords
      · rw [step?_of_inWords hwords] at hstop
        exact ih hstop
      · rw [step?_of_not_inWords hwords] at hstop
        cases hstop

theorem isSome_past?_cons (place : Position) (c : Char) (run : List Char) :
    (place.past? (c :: run)).isSome ↔
      (place.step c).InWords ∧ ((place.step c).past? run).isSome := by
  rw [past?_cons]
  by_cases hwords : (place.step c).InWords
  · rw [step?_of_inWords hwords, Option.bind_some, and_iff_right hwords]
  · rw [step?_of_not_inWords hwords]
    exact iff_of_false Bool.false_ne_true fun hboth => hwords hboth.1

/-- Checked counting comes to its end exactly if all places on the way are in words. -/
theorem isSome_past?_iff (hplace : place.InWords) :
    (place.past? run).isSome ↔ ∀ part, part <+: run → (place.past part).InWords := by
  induction run generalizing place with
  | nil =>
      refine iff_of_true rfl fun part hpart => ?_
      rw [List.prefix_nil.mp hpart]
      exact hplace
  | cons c run ih =>
      rw [isSome_past?_cons, and_congr_right fun hwords => ih hwords]
      constructor
      · rintro ⟨-, hall⟩ part hpart
        rcases List.prefix_cons_iff.mp hpart with rfl | ⟨rest, rfl, hrest⟩
        · exact hplace
        · exact hall rest hrest
      · intro hall
        exact ⟨hall [c] (List.cons_prefix_cons.mpr ⟨rfl, List.nil_prefix⟩),
          fun rest hrest => hall (c :: rest) (List.cons_prefix_cons.mpr ⟨rfl, hrest⟩)⟩

/-- A newline leaves the words if there is no further line. -/
theorem inWords_step_newline (hfits : place.offset + 1 < offsetBound) :
    (place.step '\n').InWords ↔ place.line + 1 < offsetBound := by
  have hstep : place.step '\n' = ⟨place.line + 1, 1, place.offset + 1⟩ := rfl
  rw [hstep]
  have hfirst : 1 < offsetBound := by decide
  exact ⟨InWords.line, fun hline => ⟨hline, hfirst, hfits⟩⟩

/-- Any other character leaves the words if there is no further column. -/
theorem inWords_step_of_ne {c : Char} (hother : c ≠ '\n') (hplace : place.InWords)
    (hfits : place.offset + 1 < offsetBound) :
    (place.step c).InWords ↔ place.column + 1 < offsetBound := by
  have hstep : place.step c = ⟨place.line, place.column + 1, place.offset + 1⟩ :=
    if_neg hother
  rw [hstep]
  exact ⟨InWords.column, fun hcolumn => ⟨hplace.line, hcolumn, hfits⟩⟩

theorem length_takeWhile_staysOnLine_le (run : List Char) :
    (run.takeWhile staysOnLine).length ≤ run.length :=
  (List.takeWhile_prefix staysOnLine).length_le

/-- As long as the offsets fit, what can leave a word is the line, by the newlines, and the
column, by the characters before the first of them. A later line is no longer than the offsets
are. -/
theorem isSome_past?_iff_bounds (hplace : place.InWords)
    (hfits : place.offset + run.length < offsetBound) :
    (place.past? run).isSome ↔ place.line + run.count '\n' < offsetBound ∧
      place.column + (run.takeWhile staysOnLine).length < offsetBound := by
  induction run generalizing place with
  | nil => exact iff_of_true rfl ⟨hplace.line, hplace.column⟩
  | cons c run ih =>
      rw [List.length_cons] at hfits
      have hlater : (place.step c).offset + run.length < offsetBound := by
        rw [offset_step]
        omega
      rw [isSome_past?_cons, and_congr_right fun hwords => ih hwords hlater]
      by_cases hnewline : c = '\n'
      · subst hnewline
        have hbroken : ('\n' :: run).takeWhile staysOnLine = [] := rfl
        have hcolumn := hplace.column
        have hlonger := length_takeWhile_staysOnLine_le run
        rw [inWords_step_newline (by omega), List.count_cons_self, hbroken, List.length_nil,
          step, if_pos rfl]
        dsimp only
        omega
      · have hstays : staysOnLine c = true := by simpa [staysOnLine] using hnewline
        rw [inWords_step_of_ne hnewline hplace (by omega), List.count_cons_of_ne hnewline,
          List.takeWhile_cons_of_pos hstays, List.length_cons, step, if_neg hnewline]
        dsimp only
        omega

/-- The length of a text is a word, and what is left of the text at a place is shorter than what
is left of the words of its line and its column. -/
structure HasRoom (text : String) (place : Position) : Prop where
  length : text.length < offsetBound
  line : place.line + (text.length - place.offset) < offsetBound
  column : place.column + (text.length - place.offset) < offsetBound

/-- At the start of a text there is room for all of it. -/
theorem hasRoom_start {text : String} (hfits : text.length + 1 < offsetBound) :
    start.HasRoom text := by
  have hword : 1 + (text.length - 0) < offsetBound := by omega
  exact ⟨Nat.lt_of_succ_lt hfits, hword, hword⟩

namespace HasRoom

variable {text : String}

/-- Where there is room, nothing stops checked counting. -/
theorem isSome_past? (hroom : place.HasRoom text)
    (hrun : run.length ≤ text.length - place.offset) : (place.past? run).isSome := by
  cases run with
  | nil => rfl
  | cons c rest =>
      obtain ⟨hlength, hline, hcolumn⟩ := hroom
      have hcount : (c :: rest).count '\n' ≤ (c :: rest).length := List.count_le_length
      have htaken := length_takeWhile_staysOnLine_le (c :: rest)
      have hpositive : 0 < (c :: rest).length := Nat.succ_pos _
      have hwords : place.InWords := ⟨by omega, by omega, by omega⟩
      exact (isSome_past?_iff_bounds hwords (by omega)).mpr ⟨by omega, by omega⟩

theorem step (hroom : place.HasRoom text) (hinside : place.offset < text.length) (c : Char) :
    (place.step c).HasRoom text := by
  obtain ⟨hlength, hline, hcolumn⟩ := hroom
  rw [Position.step]
  split
  · exact ⟨hlength, by dsimp only; omega, by dsimp only; omega⟩
  · exact ⟨hlength, by dsimp only; omega, by dsimp only; omega⟩

/-- There is room further on, if there is at the beginning. -/
theorem advance (hroom : place.HasRoom text) (count : Nat) :
    (place.advance count (Input.ofText text)).1.HasRoom text := by
  induction count generalizing place with
  | zero => exact hroom
  | succ count ih =>
      rw [Position.advance, Input.charAt_ofText]
      rcases hfound : text.toList[place.offset]? with _ | c
      · obtain ⟨hlength, hline, hcolumn⟩ := hroom
        exact ⟨hlength, by dsimp only; omega, by dsimp only; omega⟩
      · obtain ⟨hinside, -⟩ := List.getElem?_eq_some_iff.mp hfound
        rw [String.length_toList] at hinside
        exact ih (hroom.step hinside c)

end HasRoom

/-- Checked advancing by a sum is checked advancing by one part and then by the other. -/
theorem advance?_add (place : Position) (first second : Nat) (input : Input π) :
    place.advance? (first + second) input =
      (place.advance? first input).bind fun halfway => halfway.1.advance? second halfway.2 := by
  induction first generalizing place input with
  | zero =>
      rw [Nat.zero_add]
      rfl
  | succ first ih =>
      have hsum : first + 1 + second = first + second + 1 := Nat.add_right_comm first 1 second
      rw [hsum, advance?, advance?]
      rcases input.charAt place.offset with ⟨_ | c, next⟩
      · rfl
      · dsimp only
        cases place.step? c with
        | none => rfl
        | some later => exact ih later next

/-- The next so many characters of a text at a place. -/
def passed (place : Position) (count : Nat) (text : String) : List Char :=
  (text.toList.drop place.offset).take count

theorem length_passed {count : Nat} {text : String} (hthere : count ≤ text.length - place.offset) :
    (place.passed count text).length = count := by
  rw [passed, List.length_take, List.length_drop, String.length_toList, Nat.min_eq_left hthere]

theorem passed_succ {count : Nat} {text : String} {c : Char}
    (hfound : text.toList[place.offset]? = some c) :
    place.passed (count + 1) text = c :: (place.step c).passed count text := by
  obtain ⟨hinside, rfl⟩ := List.getElem?_eq_some_iff.mp hfound
  rw [passed, passed, offset_step, List.drop_eq_getElem_cons hinside, List.take_succ_cons]

/-- Over an input that turns out to be a text, checked advancing counts the characters of the
text, and asks for what advancing asks for. -/
theorem advance?_of_admits {count : Nat} {text : String} {input : Input π}
    (hadmits : (place.advance count input).2.Admits text)
    (hthere : count ≤ text.length - place.offset) :
    place.advance? count input =
      (place.past? (place.passed count text)).map fun stop =>
        (stop, (place.advance count input).2) := by
  induction count generalizing place input with
  | zero => rfl
  | succ count ih =>
      have hasks : Agrees text (Input.charAt place.offset) (Input.charAt place.offset) input :=
        agrees_charAt place.offset input
      rw [advance] at hadmits ⊢
      rw [advance?]
      rcases hasked : input.charAt place.offset with ⟨_ | c, next⟩
      · rw [hasked] at hadmits
        have hmissing := hasks.answers hasked hadmits
        rw [Input.charAt_ofText, Prod.mk.injEq, List.getElem?_eq_none_iff,
          String.length_toList] at hmissing
        omega
      · rw [hasked] at hadmits
        have hnext := (growing_advance (place.step c) count next).admits hadmits
        have hfound := hasks.answers hasked hnext
        rw [Input.charAt_ofText, Prod.mk.injEq] at hfound
        rw [passed_succ hfound.1, past?_cons]
        dsimp only
        by_cases hwords : (place.step c).InWords
        · rw [step?_of_inWords hwords, Option.bind_some, Option.bind_some]
          exact ih hadmits (by rw [offset_step]; omega)
        · rw [step?_of_not_inWords hwords]
          rfl

end Position

/-- Over an input that turns out to be a text, a token holds the characters of the text, if
checked advancing comes to its end. -/
theorem Token.capture?_of_admits {place : Position} {count : Nat} {text : String}
    {input : Input π} (hadmits : (place.advance count input).2.Admits text)
    (hthere : count ≤ text.length - place.offset) :
    capture? place count input = (place.advance? count input).map fun reached =>
      (⟨String.ofList (place.passed count text), place, reached.1⟩, reached.2) := by
  rw [capture?, Position.advance?_of_admits hadmits hthere, Option.map_map, Option.map_map]
  refine Option.map_congr fun stop hstop => ?_
  have hoffset : stop.offset = place.offset + count := by
    rw [Position.eq_past_of_past? hstop, Position.offset_past, Position.length_passed hthere]
  dsimp only [Function.comp_apply]
  rw [hoffset, slice_advance hadmits, Position.passed]

namespace Position

/-- What checked advancing by one count and then by another comes to along a text, of which the
input has received a part. -/
structure AdvancesInWords (place : Position) (first second : Nat) (text : String)
    (input : Input π) : Prop where
  /-- So many characters are there. -/
  length : (place.passed (first + second) text).length = first + second
  /-- One after the other, the counts lead to the same place as both at once, or stop alike. -/
  split : ((place.advance? first input).bind fun halfway => halfway.1.advance? second halfway.2) =
    place.advance? (first + second) input
  /-- The end is reached exactly if all places on the way are in words. -/
  reached : (place.advance? (first + second) input).isSome ↔
    ∀ part, part <+: place.passed (first + second) text → (place.past part).InWords
  /-- For this the newlines have to fit into the word of the line, and the characters before the
  first of them into that of the column. -/
  bounds : text.length < offsetBound →
    ((place.advance? (first + second) input).isSome ↔
      place.line + (place.passed (first + second) text).count '\n' < offsetBound ∧
      place.column + ((place.passed (first + second) text).takeWhile staysOnLine).length <
        offsetBound)
  counted : ∀ {stop after}, place.advance? (first + second) input = some (stop, after) →
    place.Counted (place.passed (first + second) text) stop
  token : Token.capture? place (first + second) input =
    (place.advance? (first + second) input).map fun reached =>
      (⟨String.ofList (place.passed (first + second) text), place, reached.1⟩, reached.2)
  /-- The complete text leads to the same place and gives the same token, or stops alike. -/
  complete : place.advance? (first + second) (Input.ofText text) =
      (place.advance? (first + second) input).map (fun reached =>
        (reached.1, Input.ofText text)) ∧
    Token.capture? place (first + second) (Input.ofText text) =
      (Token.capture? place (first + second) input).map fun captured =>
        (captured.1, Input.ofText text)

/-- An input that admits a text afterwards is advanced over as the text is. -/
theorem advancesInWords_of_admits {place : Position} {first second : Nat} {text : String}
    {input : Input π} (hplace : place.InWords)
    (hadmits : (place.advance (first + second) input).2.Admits text)
    (hthere : place.offset + first + second ≤ text.length) :
    place.AdvancesInWords first second text input := by
  have hcount : first + second ≤ text.length - place.offset := by omega
  have hcomplete := place.admits_advance_ofText (first + second) text
  have hreached := advance?_of_admits hadmits hcount
  have hlength := length_passed hcount
  have hsame : place.advance? (first + second) (Input.ofText text) =
      (place.advance? (first + second) input).map fun reached =>
        (reached.1, Input.ofText text) := by
    rw [advance?_of_admits hcomplete hcount, hreached, Option.map_map, advance_ofText hcount]
    rfl
  refine ⟨hlength, (advance?_add place first second input).symm, ?_, ?_, ?_,
    Token.capture?_of_admits hadmits hcount, hsame, ?_⟩
  · rw [hreached, Option.isSome_map, isSome_past?_iff hplace]
  · intro hfits
    rw [hreached, Option.isSome_map, isSome_past?_iff_bounds hplace (by omega)]
  · intro stop after hstop
    rw [hreached] at hstop
    obtain ⟨counted, hcounted, hpair⟩ := Option.map_eq_some_iff.mp hstop
    cases hpair
    rw [eq_past_of_past? hcounted]
    exact counted_past place _
  · rw [Token.capture?_of_admits hcomplete hcount, hsame,
      Token.capture?_of_admits hadmits hcount, Option.map_map, Option.map_map]
    rfl

end Position

/-- In words, advancing by two counts, one after the other or at once, comes to the same place
or stops alike. It comes to a place exactly if the line and the column stay in their words on
the way. The line and the column of this place are counted on the characters passed over, and
these are the text of the token that is captured there. All of it is the same over the complete
text and over any input that brings this text, whatever it has received before. -/
theorem advances_in_words (place : Position) (hplace : place.InWords) (first second : Nat) :
    (∀ (input : Input π) (text : String),
      (place.advance (first + second) input).2.Admits text →
        place.offset + first + second ≤ text.length →
          place.AdvancesInWords first second text input) ∧
    (∀ text : String, place.offset + first + second ≤ text.length →
      place.AdvancesInWords first second text (Input.ofText text)) ∧
    (∀ (chunks : List (Option String)) (input : Input Script),
      (Input.ofProducer (Script.ofChunks chunks)).GrowsTo input →
        place.offset + first + second ≤ (Script.fullText chunks).length →
          place.AdvancesInWords first second (Script.fullText chunks) input) := by
  refine ⟨?_, ?_, ?_⟩
  · intro input text hadmits hthere
    exact Position.advancesInWords_of_admits hplace hadmits hthere
  · intro text hthere
    have hadmits := place.admits_advance_ofText (first + second) text
    exact Position.advancesInWords_of_admits hplace hadmits hthere
  · intro chunks input hgrows hthere
    have hadvanced := growing_advance place (first + second) input
    exact Position.advancesInWords_of_admits hplace (hgrows.trans hadvanced).admits_fullText
      hthere

/-- The count is split between two newlines, the second of which arrives as a chunk of its own,
and leads to the last line there is. The first chunk was received before, and the last character
comes with the third. -/
theorem advances_in_words_between_newlines :
    let chunks := [some "xa\n", some "\n", some "éb"]
    let input := (Input.ofProducer (Script.ofChunks chunks)).fill 0
    let place : Position := ⟨0xFFFFFFFFFFFFFFFD, 3, 1⟩
    let run := ['a', '\n', '\n', 'é']
    place.InWords ∧ place.offset + 2 + 2 ≤ (Script.fullText chunks).length ∧
      ∃ stop after token,
        ((place.advance? 2 input).bind fun halfway => halfway.1.advance? 2 halfway.2) =
          some (stop, after) ∧
        stop.line = 0xFFFFFFFFFFFFFFFF ∧ stop.column = 1 + ['é'].length ∧
        Token.capture? place 4 input = some (token, after) ∧
        token.text = String.ofList run := by
  intro chunks input place run
  have hplace : place.InWords := by decide
  have hthere : place.offset + 2 + 2 ≤ (Script.fullText chunks).length := by decide
  have hrun : place.passed 4 (Script.fullText chunks) = run := by decide +kernel
  have halong := (@advances_in_words Script _ place hplace 2 2).2.2 chunks input
    (Input.growsTo_fill 0 _) hthere
  have hfits : (Script.fullText chunks).length < offsetBound := by decide +kernel
  have hreached : (place.advance? 4 input).isSome := by
    rw [halong.bounds hfits, hrun]
    decide
  obtain ⟨⟨stop, after⟩, hstop⟩ := Option.isSome_iff_exists.mp hreached
  have hcounted := halong.counted hstop
  rw [hrun] at hcounted
  refine ⟨hplace, hthere, stop, after, ⟨String.ofList run, place, stop⟩, ?_, ?_, ?_, ?_, rfl⟩
  · rw [halong.split, hstop]
  · rw [hcounted.line]
    decide
  · rw [hcounted.column]
    decide
  · rw [halong.token, hstop, hrun]
    rfl

/-- On the last line there is no place after a newline, in words: no line is one more. -/
theorem not_advances_past_last_line :
    let place : Position := ⟨0xFFFFFFFFFFFFFFFF, 1, 0⟩
    place.InWords ∧ place.offset + 1 + 0 ≤ "\n".length ∧
      place.advance? 1 (Input.ofText "\n") = none ∧
      ∀ stop : Position, stop.InWords → ¬ place.Counted ['\n'] stop := by
  intro place
  have hplace : place.InWords := by decide
  refine ⟨hplace, by decide, by cbv, ?_⟩
  intro stop hstop hcounted
  have hline := hstop.line
  rw [hcounted.line] at hline
  exact absurd hline (by decide)

end ScopedGrammar
