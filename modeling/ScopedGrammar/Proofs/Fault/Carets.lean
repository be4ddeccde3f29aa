/-
# Where the caret stands

A diagnostic is shown over the text, as a line with a caret below it. There are two notions of a
line in this. A position counts newlines, and its column counts the characters after the last
of them. The line that is shown is cut from the text, without its line end, which may be a
carriage return and a newline, and nothing follows a newline at the very end. They agree: the
line with the number of a position is the one that the position is on, and the caret is below
the character at the position unless that belongs to the line end.
-/

import ScopedGrammar.Fault.Diagnostic
import ScopedGrammar.Proofs.Input.Advancing

namespace ScopedGrammar

namespace Text

theorem cutAfter_cons {α : Type} (isEnd : α → Bool) (element : α) (rest : List α) :
    cutAfter isEnd (element :: rest) =
      if isEnd element then [element] :: cutAfter isEnd rest
      else
        match cutAfter isEnd rest with
        | [] => [[element]]
        | piece :: more => (element :: piece) :: more :=
  rfl

theorem cutAfter_ne_nil {α : Type} {isEnd : α → Bool} {elements : List α}
    (helements : elements ≠ []) : cutAfter isEnd elements ≠ [] := by
  intro hnothing
  have hflatten := flatten_cutAfter isEnd elements
  rw [hnothing] at hflatten
  exact helements hflatten.symm

/-- After a newline the lines start afresh, and there is one line for each newline before. -/
theorem cutAfter_append_of_ended {front : List Char}
    (hended : ∀ c ∈ front.getLast?, c = '\n') (rest : List Char) :
    cutAfter (· == '\n') (front ++ rest) =
        cutAfter (· == '\n') front ++ cutAfter (· == '\n') rest ∧
      (cutAfter (· == '\n') front).length = front.count '\n' := by
  induction front with
  | nil => exact ⟨rfl, rfl⟩
  | cons c further ih =>
      cases further with
      | nil =>
          obtain rfl := hended c rfl
          exact ⟨rfl, rfl⟩
      | cons next more =>
          -- The pieces after `c` are not none, so `c` joins the first of them or is one more.
          rw [List.getLast?_cons_cons] at hended
          obtain ⟨happend, hlength⟩ := ih hended
          have hsome : cutAfter (· == '\n') (next :: more) ≠ [] :=
            cutAfter_ne_nil (List.cons_ne_nil next more)
          obtain ⟨piece, pieces, hpieces⟩ := List.exists_cons_of_ne_nil hsome
          rw [hpieces] at happend hlength
          rw [List.cons_append, cutAfter_cons, cutAfter_cons, happend, hpieces, List.count_cons,
            ← hlength]
          by_cases hnewline : c = '\n'
          · simp [hnewline]
          · simp [hnewline]

/-- The first line, with its newline if it has one. -/
theorem head?_cutAfter (text : List Char) :
    (cutAfter (· == '\n') text).head? =
      if text = [] then none
      else some (text.takeWhile staysOnLine ++ (text.dropWhile staysOnLine).take 1) := by
  induction text with
  | nil => rfl
  | cons c rest ih =>
      rw [cutAfter_cons]
      by_cases hnewline : c = '\n'
      · simp [hnewline, staysOnLine]
      · have hstays : staysOnLine c = true := by simpa [staysOnLine] using hnewline
        cases hpieces : cutAfter (· == '\n') rest with
        | nil =>
            rw [hpieces] at ih
            have hrest : rest = [] := by simpa using ih
            simp [hnewline, hstays, hrest]
        | cons piece more =>
            rw [hpieces] at ih
            have hrest : rest ≠ [] := by
              rintro rfl
              cases hpieces
            rw [if_neg hrest] at ih
            simp_all

/-- The line that is shown for as many newlines as stand before a place: what stands there on
the same line, before the place and after it, without the line end. -/
theorem line?_count (before after : List Char) :
    line? (before ++ after) (1 + before.count '\n') =
      if before.rtakeWhile staysOnLine ++ after = [] then none
      else some (chomp (before.rtakeWhile staysOnLine ++ after.takeWhile staysOnLine ++
        (after.dropWhile staysOnLine).take 1)) := by
  have hsplit : before.rdropWhile staysOnLine ++ before.rtakeWhile staysOnLine = before :=
    List.rdropWhile_append_rtakeWhile
  generalize hfront : before.rdropWhile staysOnLine = front at hsplit
  have hstretch : ∀ c ∈ before.rtakeWhile staysOnLine, staysOnLine c = true :=
    fun c hc => List.mem_rtakeWhile_imp hc
  generalize before.rtakeWhile staysOnLine = stretch at hsplit hstretch ⊢
  have hended : ∀ c ∈ front.getLast?, c = '\n' := by
    intro c hc
    obtain ⟨hsome, rfl⟩ := List.mem_getLast?_eq_getLast hc
    subst hfront
    simpa [staysOnLine] using List.rdropWhile_last_not staysOnLine before hsome
  have hcount : before.count '\n' = front.count '\n' := by
    have hnone : stretch.count '\n' = 0 := by
      rw [List.count_eq_zero]
      intro hmem
      exact absurd (hstretch _ hmem) (by decide)
    rw [← hsplit, List.count_append, hnone, Nat.add_zero]
  obtain ⟨happend, hlength⟩ := cutAfter_append_of_ended hended (stretch ++ after)
  rw [line?, lines, hcount, ← hsplit, List.append_assoc, happend, Nat.add_sub_cancel_left,
    List.getElem?_map, ← hlength, List.getElem?_append_right (Nat.le_refl _), Nat.sub_self,
    ← List.head?_eq_getElem?, head?_cutAfter, List.takeWhile_append_of_pos hstretch,
    List.dropWhile_append_of_pos hstretch]
  split <;> rfl

theorem chomp_of_open {run : List Char} (hrun : '\n' ∉ run) : chomp run = run := by
  unfold chomp
  split
  next hreverse => exact absurd (List.mem_reverse.mp (hreverse ▸ List.mem_cons_self)) hrun
  next hreverse => exact absurd (List.mem_reverse.mp (hreverse ▸ List.mem_cons_self)) hrun
  next => rfl

theorem chomp_concat_newline (run : List Char) :
    chomp (run ++ ['\n']) = if run.getLast? = some '\r' then run.dropLast else run := by
  rw [chomp, List.reverse_append, List.reverse_singleton, List.singleton_append]
  induction run using List.reverseRecOn with
  | nil => rfl
  | append_singleton further c _ =>
      rw [List.reverse_append, List.reverse_singleton, List.singleton_append,
        List.getLast?_concat, List.dropLast_concat]
      by_cases hreturn : c = '\r'
      · subst hreturn
        simp
      · simp [hreturn]

theorem chomp_prefix (line : List Char) : chomp line <+: line := by
  unfold chomp
  split
  next content hreverse =>
    rw [List.reverse_eq_iff] at hreverse
    exact ⟨['\r', '\n'], by simp [hreverse]⟩
  next content _ hreverse =>
    rw [List.reverse_eq_iff] at hreverse
    exact ⟨['\n'], by simp [hreverse]⟩
  next => exact List.prefix_refl line

/-- The line around a place is a piece of the text, and what stands there before the place is
the same in the line and in the text. -/
theorem exists_around (before after : List Char) :
    ∃ front back,
      before ++ after =
        front ++ chomp (before.rtakeWhile staysOnLine ++ after.takeWhile staysOnLine ++
          (after.dropWhile staysOnLine).take 1) ++ back ∧
      front.length + (before.rtakeWhile staysOnLine).length = before.length := by
  have hbefore : before.rdropWhile staysOnLine ++ before.rtakeWhile staysOnLine = before :=
    List.rdropWhile_append_rtakeWhile
  have hafter : after.takeWhile staysOnLine ++ ((after.dropWhile staysOnLine).take 1 ++
      (after.dropWhile staysOnLine).drop 1) = after := by
    rw [List.take_append_drop, List.takeWhile_append_dropWhile]
  have hlength : (before.rdropWhile staysOnLine).length +
      (before.rtakeWhile staysOnLine).length = before.length := by
    rw [← List.length_append, hbefore]
  generalize before.rdropWhile staysOnLine = front at hbefore hlength
  generalize before.rtakeWhile staysOnLine = stretch at hbefore hlength ⊢
  generalize after.takeWhile staysOnLine = body at hafter ⊢
  generalize (after.dropWhile staysOnLine).take 1 = newline at hafter ⊢
  generalize (after.dropWhile staysOnLine).drop 1 = back at hafter
  obtain ⟨ending, hending⟩ := chomp_prefix (stretch ++ body ++ newline)
  refine ⟨front, ending ++ back, ?_, hlength⟩
  calc before ++ after = front ++ (stretch ++ body ++ newline) ++ back := by
        rw [← hbefore, ← hafter]
        simp only [List.append_assoc]
    _ = front ++ (chomp (stretch ++ body ++ newline) ++ ending) ++ back := by rw [hending]
    _ = front ++ chomp (stretch ++ body ++ newline) ++ (ending ++ back) := by
        simp only [List.append_assoc]

/-- A character that is not part of the line end stays in its place. -/
theorem getElem?_chomp {stretch rest : List Char} {c : Char} (hstretch : '\n' ∉ stretch)
    (hnewline : c ≠ '\n') (hreturn : ¬ (c = '\r' ∧ rest.head? = some '\n')) :
    (chomp (stretch ++ (c :: rest).takeWhile staysOnLine ++
      ((c :: rest).dropWhile staysOnLine).take 1))[stretch.length]? = some c := by
  have hstays : staysOnLine c = true := by simpa [staysOnLine] using hnewline
  rw [List.takeWhile_cons_of_pos hstays, List.dropWhile_cons_of_pos hstays]
  have hfound (after : List Char) : (stretch ++ c :: after)[stretch.length]? = some c := by simp
  cases hend : rest.dropWhile staysOnLine with
  | nil =>
      have hopen : '\n' ∉ stretch ++ c :: rest.takeWhile staysOnLine := by
        have hbody : '\n' ∉ rest.takeWhile staysOnLine := fun hmem =>
          absurd (List.mem_takeWhile_imp hmem) (by decide)
        simp [hstretch, Ne.symm hnewline, hbody]
      rw [List.take_nil, List.append_nil, chomp_of_open hopen]
      exact hfound _
  | cons last more =>
      have hlast : last = '\n' := by
        have hsome : rest.dropWhile staysOnLine ≠ [] := by simp [hend]
        have hnot := List.head_dropWhile_not staysOnLine hsome
        simpa [hend, staysOnLine] using hnot
      subst hlast
      rw [List.take_succ_cons, List.take_zero, chomp_concat_newline]
      -- Only the last character before the newline can belong to the line end.
      split
      next hcarriage =>
        cases hbody : rest.takeWhile staysOnLine with
        | nil =>
            rw [hbody, List.getLast?_concat] at hcarriage
            have hrest : rest = '\n' :: more := by
              rw [← List.takeWhile_append_dropWhile (p := staysOnLine) (l := rest), hbody, hend]
              rfl
            exact absurd ⟨Option.some.inj hcarriage, by rw [hrest]; rfl⟩ hreturn
        | cons next further =>
            rw [List.getElem?_dropLast, if_pos (by simp), hfound]
      next => exact hfound _

end Text

namespace Diagnostic

/-- The first two lines of a rendered diagnostic: the message, and where. -/
def header (diagnostic : Diagnostic) : String :=
  "error: " ++ diagnostic.message ++ "\n --> " ++ toString diagnostic.position.line ++ ":" ++
    toString diagnostic.position.column ++ "\n"

/-- Rendered over a text, a diagnostic shows a line behind its number, and below it a caret
behind some padding. -/
def Shows (diagnostic : Diagnostic) (text : String) (row padding : List Char) : Prop :=
  let number := toString diagnostic.position.line
  let margin := String.ofList (List.replicate number.toList.length ' ')
  diagnostic.render text =
    diagnostic.header ++
      (margin ++ " |\n" ++ number ++ " | " ++ String.ofList row ++ "\n" ++
        margin ++ " | " ++ String.ofList padding ++ "^\n")

variable {diagnostic : Diagnostic} {text : String} {row : List Char}

theorem render_of_none (hline : Text.line? text.toList diagnostic.position.line = none) :
    diagnostic.render text = diagnostic.header := by
  simp only [render, hline, header, Position.display, String.append_empty, String.append_assoc]

theorem shows_of_some (hline : Text.line? text.toList diagnostic.position.line = some row) :
    diagnostic.Shows text row ((row.take (diagnostic.position.column - 1)).map padding) := by
  simp only [Shows, render, hline, header, Position.display]
  rw [← String.toList_inj]
  simp [snippet]

/-- The padding in front of a caret is as long as the line is there, and keeps its tabs. -/
theorem padding_of_caret {before : Nat} {c : Char} (hcaret : row[before]? = some c) :
    ((row.take before).map padding).length = before ∧
      ∀ shown < before, ((row.take before).map padding)[shown]? =
        some (if row[shown]? = some '\t' then '\t' else ' ') := by
  obtain ⟨hinside, -⟩ := List.getElem?_eq_some_iff.mp hcaret
  constructor
  · rw [List.length_map, List.length_take, Nat.min_eq_left hinside.le]
  · intro shown hshown
    have hfound : row[shown]? = some row[shown] :=
      List.getElem?_eq_getElem (hshown.trans hinside)
    rw [List.getElem?_map, List.getElem?_take_of_lt hshown, hfound]
    simp [padding]

end Diagnostic

variable {text : String} {index : Nat}

theorem Position.advance_start_ofText (hindex : index ≤ text.length) :
    (Position.start.advance index (Input.ofText text)).1 =
      Position.start.past (text.toList.take index) := by
  have hthere : index ≤ text.length - Position.start.offset := hindex
  exact congrArg Prod.fst (Position.advance_ofText hthere)

/-- The line with the number of a place is what stands there on the same line. -/
theorem line?_advance (hindex : index ≤ text.length) :
    let place := (Position.start.advance index (Input.ofText text)).1
    let stretch := (text.toList.take index).rtakeWhile staysOnLine
    let after := text.toList.drop index
    Text.line? text.toList place.line =
      if stretch ++ after = [] then none
      else some (Text.chomp (stretch ++ after.takeWhile staysOnLine ++
        (after.dropWhile staysOnLine).take 1)) := by
  intro place stretch after
  have hline : place.line = 1 + (text.toList.take index).count '\n' := by
    simp only [place, Position.advance_start_ofText hindex, Position.line_past]
    rfl
  rw [hline, ← Text.line?_count, List.take_append_drop]

/-- Nothing stands on the line of a place only at the end, after a newline or in no text. -/
theorem nothing_on_line_iff (hindex : index ≤ text.length) :
    (text.toList.take index).rtakeWhile staysOnLine ++ text.toList.drop index = [] ↔
      index = text.length ∧ (text = "" ∨ text.toList.getLast? = some '\n') := by
  rw [List.append_eq_nil_iff, List.drop_eq_nil_iff, String.length_toList,
    List.rtakeWhile_eq_nil_iff]
  constructor
  · rintro ⟨hlast, hend⟩
    have hall : text.toList.take index = text.toList :=
      List.take_of_length_le (by rwa [String.length_toList])
    refine ⟨Nat.le_antisymm hindex hend, ?_⟩
    by_cases hempty : text.toList = []
    · exact .inl (String.toList_eq_nil_iff.mp hempty)
    · right
      rw [hall] at hlast
      rw [List.getLast?_eq_some_getLast hempty]
      simpa [staysOnLine] using hlast hempty
  · rintro ⟨rfl, hlast⟩
    have hall : text.toList.take text.length = text.toList :=
      List.take_of_length_le (Nat.le_of_eq String.length_toList)
    rw [hall]
    refine ⟨fun hsome => ?_, Nat.le_refl _⟩
    rcases hlast with rfl | hlast
    · exact absurd rfl hsome
    · rw [List.getLast?_eq_some_getLast hsome] at hlast
      simp [Option.some.inj hlast, staysOnLine]

/-- A diagnostic that is raised at a place of a text is shown with the caret under the
character there. If that character is not part of a line end, the line around it is shown, and
has it where the caret stands: the padding in front of the caret is as long as what stands in
front of the character, with tabs below tabs and spaces below everything else. A line is shown
for every place, except at the end of a text that is empty or ends in a newline. -/
theorem caret_under_character (text : String) (index : Nat) (hindex : index ≤ text.length)
    (cause : Diagnostic.Cause) (message : String) :
    let place := (Position.start.advance index (Input.ofText text)).1
    let diagnostic := (Diagnostic.raise cause message place (Input.ofText text)).1
    let before := diagnostic.position.column - 1
    (∀ c, text.toList[index]? = some c → c ≠ '\n' →
        ¬ (c = '\r' ∧ text.toList[index + 1]? = some '\n') →
      ∃ row ∈ Text.lines text.toList, ∃ front back padding,
        diagnostic.Shows text row padding ∧
          text.toList = front ++ row ++ back ∧
          front.length + before = index ∧
          row[before]? = some c ∧
          padding.length = before ∧
          ∀ shown < before,
            padding[shown]? = some (if row[shown]? = some '\t' then '\t' else ' ')) ∧
      if index = text.length ∧ (text = "" ∨ text.toList.getLast? = some '\n') then
        diagnostic.render text = diagnostic.header
      else ∃ row ∈ Text.lines text.toList, ∃ padding, diagnostic.Shows text row padding := by
  intro place diagnostic before
  have hposition : diagnostic.position = place := Diagnostic.position_raise cause message place _
  have hline : Text.line? text.toList place.line = _ := line?_advance hindex
  rw [← hposition] at hline
  have hbefore : before = ((text.toList.take index).rtakeWhile staysOnLine).length := by
    simp only [before, hposition, place, Position.advance_start_ofText hindex,
      Position.column_start_past, Nat.add_sub_cancel_left]
  constructor
  · intro c hc hnewline hreturn
    have hafter : text.toList.drop index = c :: text.toList.drop (index + 1) := by
      rw [List.drop_eq_getElem?_toList_append, hc]
      rfl
    have hstretch : '\n' ∉ (text.toList.take index).rtakeWhile staysOnLine := fun hmem =>
      absurd (List.mem_rtakeWhile_imp hmem) (by decide)
    have hcaret := Text.getElem?_chomp hstretch hnewline (by rwa [List.head?_drop])
    rw [← hafter] at hcaret
    rw [if_neg (by simp [hafter])] at hline
    rw [← hbefore] at hcaret
    obtain ⟨front, back, haround, hfront⟩ :=
      Text.exists_around (text.toList.take index) (text.toList.drop index)
    rw [List.take_append_drop] at haround
    rw [← hbefore, List.length_take_of_le (by rwa [String.length_toList])] at hfront
    exact ⟨_, List.mem_of_getElem? hline, front, back, _, Diagnostic.shows_of_some hline, haround,
      hfront, hcaret, Diagnostic.padding_of_caret hcaret⟩
  · split
    next hend =>
      rw [if_pos ((nothing_on_line_iff hindex).mpr hend)] at hline
      exact Diagnostic.render_of_none hline
    next hmore =>
      rw [if_neg (mt (nothing_on_line_iff hindex).mp hmore)] at hline
      exact ⟨_, List.mem_of_getElem? hline, _, Diagnostic.shows_of_some hline⟩

/-- A letter behind two tabs and an umlaut, on the second line, which ends with a carriage
return. -/
theorem caret_under_character_behind_tabs :
    let text := "one\n\tü\tx\r\n"
    let place := (Position.start.advance 7 (Input.ofText text)).1
    let diagnostic := (Diagnostic.raise .expected "no mark" place (Input.ofText text)).1
    7 ≤ text.length ∧
      diagnostic.render text = "error: no mark\n --> 2:4\n  |\n2 | \tü\tx\n  | \t \t^\n" ∧
      ∃ row ∈ Text.lines text.toList, ∃ padding, diagnostic.Shows text row padding ∧
        row[diagnostic.position.column - 1]? = some 'x' ∧ padding.length = 3 := by
  intro text place diagnostic
  have hindex : 7 ≤ text.length := by decide
  have hplace : (Position.start.advance 7 (Input.ofText "one\n\tü\tx\r\n")).1 = ⟨2, 4, 7⟩ := by
    decide +kernel
  have hdiagnostic : diagnostic = ⟨.expected, "no mark", ⟨2, 4, 7⟩, ⟨8, 1⟩⟩ := by
    simp only [diagnostic, place, text, hplace]
    decide +kernel
  obtain ⟨row, hline, -, -, padding, hshows, -, -, hcaret, hlength, -⟩ :=
    (caret_under_character text 7 hindex .expected "no mark").1 'x' (by decide) (by decide)
      (by decide)
  refine ⟨hindex, ?_, row, hline, padding, hshows, hcaret, hlength.trans ?_⟩
  · rw [hdiagnostic]
    decide +kernel
  · exact congrArg (fun found : Diagnostic => found.position.column - 1) hdiagnostic

end ScopedGrammar
