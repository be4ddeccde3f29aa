/-
# What the indentation of a line comes to

At a depth, a line is indented by as many levels as the depth asks for, or by fewer, or blanks
stand behind the levels. In the first case the rest of the line is matched, in the second the
line belongs to a block further out, and in the third the match stops, since such a line belongs
to no block.
-/

import ScopedGrammar.Proofs.Croco.Clauses
import ScopedGrammar.Proofs.Match.Stopping

namespace ScopedGrammar.Croco

open Pattern

variable {text : String} {multiline : Bool} {depth : Nat} {scope : Scope} {place : Position}
  {levels : List Indent} {rest after more : List Char} {pattern next : Pattern}
  {parts : List Pattern} {picks : Option (List Nat)}

/-- What a line begins with at a depth. -/
inductive Indented (depth : Nat) (rest : List Char) : Prop
  | enough {levels : List Indent} {after : List Char} (hsplit : rest = margin levels ++ after)
      (hlength : levels.length = depth) (hafter : Unindented after)
  | tooFew {levels : List Indent} {after : List Char} (hsplit : rest = margin levels ++ after)
      (hfew : levels.length < depth) (hafter : Unlevelled after)
  | tooMany {levels : List Indent} {c : Char} {after : List Char}
      (hsplit : rest = margin levels ++ (c :: after)) (hlength : levels.length = depth)
      (hc : c = ' ' ∨ c = '\t')

theorem exists_margin (depth : Nat) (rest : List Char) :
    ∃ levels after, rest = margin levels ++ after ∧
      (levels.length = depth ∨ levels.length < depth ∧ Unlevelled after) := by
  induction depth generalizing rest with
  | zero => exact ⟨[], rest, rfl, .inl rfl⟩
  | succ depth ih =>
      by_cases hlevel : ∃ indent : Indent, indent.text <+: rest
      · obtain ⟨indent, more, rfl⟩ := hlevel
        obtain ⟨levels, after, rfl, hcount⟩ := ih more
        refine ⟨indent :: levels, after, ?_, ?_⟩
        · rw [margin, margin, List.flatMap_cons, List.append_assoc]
        · rw [List.length_cons]
          exact hcount.imp (congrArg (· + 1)) (And.imp_left Nat.succ_lt_succ)
      · exact ⟨[], rest, rfl, .inr ⟨Nat.succ_pos depth, not_exists.mp hlevel⟩⟩

theorem indented (depth : Nat) (rest : List Char) : Indented depth rest := by
  obtain ⟨levels, after, hsplit, hlength | ⟨hfew, hafter⟩⟩ := exists_margin depth rest
  · by_cases hblank : ∃ c ∈ after.head?, c = ' ' ∨ c = '\t'
    · obtain ⟨c, hhead, hc⟩ := hblank
      obtain ⟨more, rfl⟩ := List.head?_eq_some_iff.mp hhead
      exact .tooMany hsplit hlength hc
    · exact .enough hsplit hlength fun c hc =>
        not_or.mp fun hsame => hblank ⟨c, hc, hsame⟩
  · exact .tooFew hsplit hfew hafter

theorem Unindented.append (hafter : Unindented after) (hsome : after ≠ []) (more : List Char) :
    Unindented (after ++ more) := by
  obtain ⟨c, rest, rfl⟩ := List.exists_cons_of_ne_nil hsome
  exact hafter

theorem Indent.blank_text (indent : Indent) : Blank indent.text := by
  cases indent <;> decide

/-- Where blanks do not make up a level, nothing behind them does. -/
theorem Unlevelled.append (hafter : Unlevelled after)
    (hmore : Blank after → Unindented more) : Unlevelled (after ++ more) := by
  intro indent hprefix
  rcases List.prefix_or_prefix_of_prefix hprefix (List.prefix_append after more) with
    hinside | ⟨back, hback⟩
  · exact hafter indent hinside
  · rw [← hback, List.prefix_append_right_inj] at hprefix
    have hblank := indent.blank_text
    rw [← hback] at hblank
    cases back with
    | nil => exact hafter indent (by rw [← hback, List.append_nil])
    | cons c back =>
        obtain ⟨rest, rfl⟩ := hprefix
        obtain ⟨hspace, htab⟩ := hmore (fun d hd => hblank d (by simp [hd])) c rfl
        exact (hblank c (by simp)).elim hspace htab

/-- The report of a line that is indented too much. -/
def indentReport (place : Position) : String :=
  "too many indentations on line " ++ toString place.line ++ ", column " ++ toString place.column

theorem ofTemplate_indent : Message.ofTemplate
    "too many indentations on line \x7bline\x7d, column \x7bcolumn\x7d" =
    ⟨"too many indentations on line ".toList.map .char ++
      .line :: (", column ".toList.map .char ++ [.column])⟩ := by
  decide +kernel

theorem message_indentReport (text : String) (scope : Scope) (place : Position) :
    (complaint text (Message.ofTemplate
      "too many indentations on line \x7bline\x7d, column \x7bcolumn\x7d") scope place).message =
      indentReport place := by
  have hcolumn : (Message.renderPieces scope place [.column] (Input.ofText text)).1 =
      toString place.column := String.append_empty
  have hline (pieces : List Message.Piece) :
      (Message.renderPieces scope place (.line :: pieces) (Input.ofText text)).1 =
        toString place.line ++ (Message.renderPieces scope place pieces (Input.ofText text)).1 :=
    rfl
  rw [message_complaint, Message.render, ofTemplate_indent, Message.renderPieces_plain_append,
    hline, Message.renderPieces_plain_append, hcolumn, String.ofList_toList, String.ofList_toList]
  unfold indentReport
  rw [String.append_assoc, String.append_assoc]

/-- The match stops where blanks go on behind the levels. -/
theorem indentation_stops (hlevel : Level multiline depth scope) {c : Char}
    (hsees : place.Sees text (margin levels ++ (c :: rest))) (hlength : levels.length = depth)
    (hc : c = ' ' ∨ c = '\t') :
    ∃ diagnostic, (named "INDENT").Stops text scope place (.diagnostic diagnostic) ∧
      diagnostic.message = indentReport diagnostic.position ∧
      diagnostic.position = place.past (margin levels) := by
  have hcount : 0 + levels.length = depth := (Nat.zero_add _).trans hlength
  obtain ⟨values, hvalues, hseries⟩ := margin_series scope hsees (.inr hcount) hcount.le
  have hlevels : (indentLevel.times (.name "indent")).Matches text scope place
      ⟨.list values, place.past (margin levels), scope⟩ :=
    matches_ofForm_iff.mpr ((Form.matches_repetition_iff hlevel.counts.resolveBounds).mpr
      ⟨values, hseries, (hvalues.trans hlength).ge, rfl⟩)
  have hblank : inClass " \t".toList false c = true := by
    rcases hc with rfl | rfl <;> decide
  have hmore : (oneOf " \t").Matches text scope (place.past (margin levels))
      ⟨.token ⟨String.ofList [c], place.past (margin levels), (place.past (margin levels)).step c⟩,
        (place.past (margin levels)).past [c], scope⟩ :=
    matches_ofForm_iff.mpr ((Form.matches_charClass_iff hsees.past).mpr ⟨c, rest, rfl, hblank, rfl⟩)
  refine ⟨_, named_stops (indentation_rule hlevel) (labelled_stops "INDENT" (stops_of_row rfl
    (rowHalts_of_rest hlevels (rowHalts_of_first
      (stops_of_form (Form.demand_stops (notAhead_misses hmore))))))), ?_,
    position_complaint _ _ _ _⟩
  rw [message_indentReport, position_complaint]

/-- A pattern that begins with the indentation misses where the indentation does, or what comes
after it. Otherwise blanks behind the levels are reported. -/
theorem opening_declines (hform : pattern.form = .sequence (named "INDENT" :: next :: parts) picks)
    (hlevel : Level multiline depth scope) (hsees : place.Sees text rest)
    (hnext : ∀ levels after, rest = margin levels ++ after → Unindented after →
      next.Misses text scope (place.past (margin levels))) :
    pattern.Misses text scope place ∨
      ∃ levels c after diagnostic, rest = margin levels ++ (c :: after) ∧ (c = ' ' ∨ c = '\t') ∧
        pattern.Stops text scope place (.diagnostic diagnostic) ∧
        diagnostic.message = indentReport diagnostic.position ∧
        diagnostic.position = place.past (margin levels) := by
  cases indented depth rest with
  | enough hsplit hlength hafter =>
      obtain ⟨indent, hindent⟩ := indentation_matches hlevel (hsplit ▸ hsees) hafter hlength
      exact .inl (misses_of_row hform
        (rowMisses_of_rest hindent (rowMisses_of_first (hnext _ _ hsplit hafter))))
  | tooFew hsplit hfew hafter =>
      exact .inl (misses_of_row hform
        (rowMisses_of_first (indentation_misses hlevel (hsplit ▸ hsees) hafter hfew)))
  | tooMany hsplit hlength hc =>
      obtain ⟨diagnostic, hstops, hmessage, hposition⟩ :=
        indentation_stops hlevel (hsplit ▸ hsees) hlength hc
      exact .inr ⟨_, _, _, diagnostic, hsplit, hc, stops_of_row hform (rowHalts_of_first hstops),
        hmessage, hposition⟩

end ScopedGrammar.Croco
