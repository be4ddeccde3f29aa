/-
# Programs at a seam

A program is accepted if its block comes to the end of the text. With a gap in it, the block
either comes to the end as well, or the match stops with a report about the gap, or the block
ends at the seam. The last happens only if a comment is all that is left, since any other line
without a statement is one more line of the block. It is not claimed that a report is always
raised where one is fair.
-/

import ScopedGrammar.Proofs.Croco.SeamBlocks

namespace ScopedGrammar.Croco

open Pattern

variable {seam : Seam} {text : String} {value : Value} {granted more : Nat} {scope : Scope}
  {place stop : Position} {success : Match}

/-- What programs are matched by: a block, or nothing at all. -/
def program : Pattern :=
  (named "BLOCK").orElse (finish.map fun _ => .node "block" 1 [])

theorem rule_program : grammar.scope.rule? "start" = some (program.labelled "start") :=
  rule_start

theorem Seam.front_ne_nil (seam : Seam) : seam.front ≠ [] := by
  intro hnone
  rcases seam.kind with henclosed | hline
  · exact henclosed.opened (by rw [hnone]; rfl)
  · have hnewline := hline.newline
    rw [hnone] at hnewline
    cases hnewline

theorem spot_start (seam : Seam) :
    Spot seam (.line 0) seam.Free grammar.scope Position.start grammar.scope Position.start :=
  have hfront : seam.front = [] ++ seam.front := rfl
  ⟨level_grammar, level_grammar, .start seam.edit.text,
    .before hfront seam.front_ne_nil rfl rfl⟩

theorem program_follows (seam : Seam) (granted more : Nat) :
    seam.edit.Follows (Arrives seam (.line 0) (Between seam) Value.Alike)
      ((program.labelled "start").run granted grammar.scope Position.start)
      ((program.labelled "start").run more grammar.scope Position.start) := by
  have hspot := spot_start seam
  have hform : program.form =
      .choice [named "BLOCK", finish.map fun _ => .node "block" 1 []] := rfl
  refine Edit.follows_labelled "start" (Edit.follows_choice hform ?_)
  simp only [List.forall_mem_cons, List.not_mem_nil, false_implies, implies_true, and_true]
  refine ⟨fun steps _ further => ?_, fun steps _ further => ?_⟩
  · exact blocks_pace seam steps (hspot.mono fun hfree => hfree.mono False.elim) (.inl hspot.faces)
      steps (Nat.le_refl _) further
  · refine Edit.follows_map ?_
    exact (finish_paces steps 0 hspot steps (Nat.le_refl _) further).mono fun _ _ harrives =>
      ⟨.refl _, harrives.2.mono fun hfree => hfree.mono False.elim⟩

/-- The steps that are granted to a text are enough for it. -/
theorem program_not_exhausted (text : String) :
    ((program.labelled "start").run (stepsFor text.length) grammar.scope Position.start
      (Input.ofText text)).1.isExhausted = false := by
  obtain ⟨rule, hrule, hkeeps⟩ := ranking.rule_of_entry ranking_admits ranking_start
  cases rule_program.symm.trans hrule
  exact ranking.run_not_exhausted (ranking.ranks_ofDefinitions "start" ranking_admits)
    hkeeps.admitted (Nat.zero_le _) (limit_le_stepsFor _)

/-- A text that is not empty is matched by a block. -/
theorem block_of_program
    (hmatches : (program.labelled "start").Matches text grammar.scope Position.start success)
    (hsome : text.toList ≠ []) :
    (named "BLOCK").Matches text grammar.scope Position.start success := by
  rcases Form.matches_choice_cons_iff.mp
    (matches_ofForm_iff.mp ((matches_labelled_iff "start").mp hmatches)) with hblock | ⟨-, hmore⟩
  · exact hblock
  rcases Form.matches_choice_cons_iff.mp hmore with hnothing | ⟨-, hnever⟩
  · obtain ⟨raw, hraw, -⟩ := matches_iff.mp hnothing
    exact absurd ((Form.matches_finish_iff (Position.Sees.start text)).mp hraw).1 hsome
  · exact absurd hnever Form.not_matches_choice_nil

/-- Where rounds without bounds have come to their end, the next one misses or does not lead
on. -/
theorem ended_of_series {part : Pattern} {count : Nat} {inner : Scope} {values : List Value}
    (hseries : Series text part none none count scope place values stop inner)
    (hexposed : part.exposed = []) :
    part.Misses text inner stop ∨ ∃ value, part.Matches text inner stop ⟨value, stop, inner⟩ := by
  induction hseries with
  | full hfull => exact absurd hfull not_fullAt_none
  | missed _ hmissed => exact .inl (rowMisses_part_iff.mp hmissed)
  | still _ hrow hstill =>
      obtain ⟨-, hround⟩ := rowMatches_part_iff.mp hrow
      have hback := hround.leads.eq_past
      have hsame := hround.scope_eq hexposed
      dsimp only at hback hsame
      rw [hstill, Nat.sub_self, List.take_zero] at hback
      subst hback hsame
      exact .inr ⟨_, hround⟩
  | moved _ _ _ _ ih => exact ih

/-- Where the outermost block ends, no line leads on. -/
theorem line_ended (hblock : (named "BLOCK").Matches text grammar.scope Position.start success) :
    ∃ scope, Level false 0 scope ∧ (line.Misses text scope success.position ∨
      ∃ value, line.Matches text scope success.position ⟨value, success.position, scope⟩) := by
  obtain ⟨inner, hrule⟩ := (reached_start text).of_named (by decide) rfl hblock
  have hlevel := level_grammar.after hrule (by decide)
  obtain ⟨raw, hraw, hsame⟩ := matches_iff.mp hrule
  obtain ⟨parts, hseries, -, -⟩ :=
    (Form.matches_repetition_iff (Match.resolveBounds_none (by decide))).mp hraw
  have hended := ended_of_series hseries rfl
  obtain ⟨-, hstop, hscope⟩ := Match.mk.inj hsame
  rw [hstop, hscope] at hended
  exact ⟨inner, hlevel, hended⟩

/-- Blanks that no empty line takes are too much indentation for the outermost block. -/
theorem line_stops {c : Char} {rest : List Char} (hlevel : Level false 0 scope)
    (hempty : emptyLine.Misses text scope place) (hsees : place.Sees text (c :: rest))
    (hc : c = ' ' ∨ c = '\t') : ∃ reason, line.Stops text scope place reason := by
  have hmargin : place.Sees text (margin [] ++ (c :: rest)) := hsees
  obtain ⟨diagnostic, hstops, -, -⟩ := indentation_stops hlevel hmargin rfl hc
  have hflow : flow.Stops text scope place (.diagnostic diagnostic) :=
    stops_of_row flow_form (rowHalts_of_first
      (stops_of_row (clause_form headers) (rowHalts_of_first hstops)))
  exact ⟨_, stops_of_form (Form.choice_stops_of_rest hempty (Form.choice_stops_of_first hflow))⟩

/-- A block that ends at the seam has not taken the gap for a line, so that is a comment, and
the text ends with it. -/
theorem note_of_block (hline : Interline seam.front seam.gap seam.back)
    (hblock : (named "BLOCK").Matches seam.edit.edited grammar.scope Position.start success)
    (hplace : success.position.offset = seam.front.length) :
    ∃ content, seam.gap = '#' :: content ∧ '\n' ∉ content ∧ seam.back = [] := by
  obtain ⟨scope, hlevel, hended⟩ := line_ended hblock
  rcases gap_taken hline hlevel hplace with htaken | ⟨⟨⟨blanks, content, hgap, hblanks, hcontent⟩,
    hback⟩, hempty⟩
  · have hmore : line.Matches seam.edit.edited scope success.position
        ⟨.empty, success.position.past seam.gap, scope⟩ :=
      choice_matches (List.forall_mem_nil _) htaken
    rcases hended with hmisses | ⟨value, hmatches⟩
    · exact absurd hmisses hmore.not_misses
    · have hsame := congrArg Match.position (hmore.unique hmatches)
      exact absurd (congrArg Position.offset hsame) (Position.offset_past_ne _ hline.something)
  · rcases blanks with _ | ⟨c, blanks⟩
    · exact ⟨content, hgap, hcontent, hback⟩
    · have hsees := (Seam.sees_within hplace).2
      rw [hgap, List.cons_append, List.cons_append] at hsees
      obtain ⟨reason, hstops⟩ := line_stops hlevel hempty hsees (hblanks c List.mem_cons_self)
      rcases hended with hmisses | ⟨value, hmatches⟩
      · exact absurd hmisses hstops.not_misses
      · exact absurd hmatches hstops.not_matches

/-- The diagnostic of a comment that goes on to the end of the text, and is left over since no
newline comes after it. -/
structure ReportsNote (front gap back : List Char) (diagnostic : Diagnostic) : Prop where
  note : ∃ content, gap = '#' :: content ∧ '\n' ∉ content
  ended : back = []
  message : diagnostic.message = "unexpected character '#' at line " ++
    toString diagnostic.position.line ++ ", column " ++ toString diagnostic.position.column
  position : diagnostic.position.offset = front.length

/-- A comment that is left over is reported by its mark. -/
theorem reportsNote_of_leftOver {content : List Char} (hgap : seam.gap = '#' :: content)
    (hcontent : '\n' ∉ content) (hback : seam.back = [])
    (hleads : Position.start.Leads seam.edit.edited.toList place)
    (hplace : place.offset = seam.front.length) :
    ∃ diagnostic, (Run.leftOver place (Input.ofText seam.edit.edited)).1 =
        .error (.diagnostic diagnostic) ∧
      ReportsNote seam.front seam.gap seam.back diagnostic := by
  have hsees := (Seam.sees_within hplace).2
  have hmark : seam.edit.edited.toList[place.offset]? = some '#' := by
    rw [← List.head?_drop, hsees, hgap]
    rfl
  obtain ⟨diagnostic, hleft⟩ := Grammar.leftOver_eq place (Input.ofText seam.edit.edited)
  obtain ⟨-, rfl, ⟨c, hfound, -, hmessage⟩ | ⟨hnone, -⟩⟩ := leftOver_ofText hleads hleft
  · cases hmark.symm.trans hfound
    exact ⟨diagnostic, hleft, ⟨content, hgap, hcontent⟩, hback, hmessage, hplace⟩
  · cases hmark.symm.trans hnone

/-- Where the program ends, the program with the gap does, or a comment is left over of it. -/
theorem ended_of_matches (hclear : Clear seam.edit.text [] place)
    (hfaces : Between seam place success.position) (hend : place.Sees seam.edit.text [])
    (hmatches : (program.labelled "start").Matches seam.edit.edited grammar.scope Position.start
      success) :
    success.position.Sees seam.edit.edited [] ∨ ¬ success.position.Sees seam.edit.edited [] ∧
      ∃ diagnostic, (Run.leftOver success.position (Input.ofText seam.edit.edited)).1 =
          .error (.diagnostic diagnostic) ∧
        Interline seam.front seam.gap seam.back ∧
          ReportsNote seam.front seam.gap seam.back diagnostic := by
  cases hfaces with
  | before hfront hahead hplace _ =>
      have hnone := (Seam.sees_before hfront hplace).1.symm.trans hend
      exact absurd (List.append_eq_nil_iff.mp hnone).1 hahead
  | within _ hplace hother =>
      have hline := Seam.interline hclear hplace
      have hotherPlace : success.position.offset = seam.front.length := hother ▸ hplace
      have hsees := (Seam.sees_within hotherPlace).2
      have hrest : seam.gap ++ seam.back ≠ [] := List.append_ne_nil_of_left_ne_nil hline.something _
      have hsome : seam.edit.edited.toList ≠ [] := by
        intro hnone
        rw [Position.Sees, hnone, List.drop_nil] at hsees
        exact hrest hsees.symm
      obtain ⟨content, hgap, hcontent, hback⟩ :=
        note_of_block hline (block_of_program hmatches hsome) hotherPlace
      obtain ⟨diagnostic, hleft, hreport⟩ :=
        reportsNote_of_leftOver hgap hcontent hback hmatches.leads hotherPlace
      exact .inr ⟨fun hnone => hrest (hsees.symm.trans hnone), diagnostic, hleft, hline, hreport⟩
  | after hback hplace hother =>
      obtain ⟨hsees, hseen⟩ := Seam.sees_after hback hplace hother
      rw [hsees.symm.trans hend] at hseen
      exact .inl hseen

/-- A program with a gap is parsed as the program without it, up to where things stand, or it is
refused with a diagnostic that tells of the gap. -/
theorem parse_edited (hparse : parse seam.edit.text = .ok value) :
    (∃ other, parse seam.edit.edited = .ok other ∧ value.Alike other) ∨
      ∃ diagnostic, parse seam.edit.edited = .error (.diagnostic diagnostic) ∧
        (seam.Fair diagnostic ∨ Interline seam.front seam.gap seam.back ∧
          ReportsNote seam.front seam.gap seam.back diagnostic) := by
  have hends := program_follows seam (stepsFor seam.edit.text.length)
    (stepsFor seam.edit.edited.length) ⟨rfl, rfl⟩
  have hgranted := program_not_exhausted seam.edit.edited
  rw [parse, Grammar.parse_eq rule_program] at hparse
  rw [parse, Grammar.parse_eq rule_program]
  generalize (program.labelled "start").run (stepsFor seam.edit.text.length) grammar.scope
    Position.start (Input.ofText seam.edit.text) = ending at hends hparse
  generalize hrun : (program.labelled "start").run (stepsFor seam.edit.edited.length)
    grammar.scope Position.start (Input.ofText seam.edit.edited) = otherEnding at hends hgranted ⊢
  cases hends with
  | missed => cases hparse
  | halted hhalts => exact hhalts.elim
  | excused => cases hparse
  | @pardoned reason _ _ hpardoned =>
      cases reason with
      | exhausted => cases hgranted
      | diagnostic diagnostic => exact .inr ⟨diagnostic, rfl, .inl hpardoned⟩
      | defect => exact hpardoned.elim
      | overflow => exact hpardoned.elim
  | @matched success other _ _ harrives _ =>
      dsimp only at hparse ⊢
      obtain ⟨halike, -, -, hclear, hfaces⟩ := harrives
      split at hparse
      next hend =>
        cases hparse
        rcases ended_of_matches hclear hfaces hend (matches_of_run hrun) with
          hother | ⟨hother, diagnostic, hleft, hnote⟩
        · rw [if_pos hother]
          exact .inl ⟨_, rfl, halike⟩
        · rw [if_neg hother]
          exact .inr ⟨diagnostic, hleft, .inr hnote⟩
      next => cases hparse

end ScopedGrammar.Croco
