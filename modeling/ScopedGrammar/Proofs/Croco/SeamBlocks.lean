/-
# Blocks at a seam

A block is matched line by line. Where a line has ended at the seam, the second match takes the
gap for one more line, which adds no statement, and both go on behind it. A block that begins at
the seam may have the gap for its first line, so such a block has to have a line in the program
as well.
-/

import ScopedGrammar.Proofs.Croco.SeamGaps

namespace ScopedGrammar.Croco

open Pattern

variable {seam : Seam} {depth granted steps more : Nat} {scope otherScope : Scope}
  {place other : Position} {header : Pattern} {word : String}

theorem condition_paces (hword : word ∈ keywords) (granted depth : Nat) :
    Paces seam (.line depth) granted (condition word) seam.Free
      (Arrives seam (.line depth) seam.Free Value.Alike) := by
  obtain ⟨message, hform⟩ := condition_form word
  intro scope place otherScope other hspot steps _ more
  refine Edit.follows_sequence hform fun fewer _ further => ?_
  refine Edit.follows_row_cons (word_paces hword fewer depth hspot fewer (Nat.le_refl _) further)
    fun _ _ hfirst => ?_
  refine Edit.follows_row_cons (Edit.follows_demand fun few _ far =>
    operand_arrives (.inl rfl) few depth hfirst.2 few (Nat.le_refl _) far) fun _ _ hguard => ?_
  refine Edit.follows_row_nil ⟨_, _, rfl, rfl, ?_, hguard.2⟩
  exact (placeless_nodeFrom _ [1]).alike (.list (.cons hfirst.1 (.cons hguard.1 .nil)))

theorem forHeader_paces (granted depth : Nat) :
    Paces seam (.line depth) granted forHeader seam.Free
      (Arrives seam (.line depth) seam.Free Value.Alike) := by
  obtain ⟨_, _, _, hform⟩ := forHeader_form
  intro scope place otherScope other hspot steps _ more
  refine Edit.follows_sequence hform fun fewer _ further => ?_
  refine Edit.follows_row_cons
    (word_paces (by decide) fewer depth hspot fewer (Nat.le_refl _) further) fun _ _ hfor => ?_
  refine Edit.follows_row_cons (Edit.follows_demand fun few _ far =>
    operand_arrives (.inr rfl) few depth hfor.2 few (Nat.le_refl _) far) fun _ _ htarget => ?_
  refine Edit.follows_row_cons (Edit.follows_demand fun few _ far =>
    word_paces (by decide) few depth htarget.2 few (Nat.le_refl _) far) fun _ _ hin => ?_
  refine Edit.follows_row_cons (Edit.follows_demand fun few _ far =>
    operand_arrives (.inl rfl) few depth hin.2 few (Nat.le_refl _) far) fun _ _ hiterable => ?_
  refine Edit.follows_row_nil ⟨_, _, rfl, rfl, ?_, hiterable.2⟩
  exact (placeless_nodeFrom "for" [1, 3]).alike (.list
    (.cons hfor.1 (.cons htarget.1 (.cons hin.1 (.cons hiterable.1 .nil)))))

theorem headers_pace (granted depth : Nat) :
    Paces seam (.line depth) granted headers seam.Free
      (Arrives seam (.line depth) seam.Free Value.Alike) := by
  have hform : headers.form = .choice [condition "if", condition "while", forHeader] := rfl
  intro scope place otherScope other hspot steps _ more
  refine Edit.follows_choice hform ?_
  simp only [List.forall_mem_cons, List.not_mem_nil, false_implies, implies_true, and_true]
  have hcondition {word : String} (hword : word ∈ keywords) (fewer further : Nat) :=
    condition_paces hword fewer depth hspot fewer (Nat.le_refl _) further
  exact ⟨fun fewer _ further => hcondition (by decide) fewer further,
    fun fewer _ further => hcondition (by decide) fewer further,
    fun fewer _ further => forHeader_paces fewer depth hspot fewer (Nat.le_refl _) further⟩

theorem elseHeader_paces (granted depth : Nat) :
    Paces seam (.line depth) granted elseHeader seam.Free
      (Arrives seam (.line depth) seam.Free Value.Alike) := by
  intro scope place otherScope other hspot steps _ more
  refine Edit.follows_map ?_
  exact (word_paces (by decide) steps depth hspot steps (Nat.le_refl _) more).mono
    fun _ _ harrives => ⟨(placeless_nodeFrom "else" []).alike harrives.1, harrives.2⟩

theorem colon_paces (granted depth : Nat) :
    Paces seam (.line depth) granted colon seam.Free
      (Arrives seam (.line depth) seam.Free fun _ _ => True) := by
  intro scope place otherScope other hspot steps _ more
  refine Edit.follows_sequence colon_form fun fewer _ further => ?_
  refine Edit.follows_row_cons (line_blanks_arrive hspot) fun _ _ hblanks => ?_
  refine Edit.follows_row_cons (Edit.follows_demand fun few _ far =>
    sign_paces ":" (by decide) few depth hblanks.2 few (Nat.le_refl _) far) fun _ _ hmark => ?_
  exact Edit.follows_row_nil ⟨_, _, rfl, rfl, trivial, hmark.2⟩

/-- Blocks are matched side by side, for a number of steps. If one begins at the seam, the first
match has a line for it. -/
def BlocksPace (seam : Seam) (granted : Nat) : Prop :=
  ∀ ⦃depth scope place otherScope other⦄,
    Spot seam (.line depth) (Between seam) scope place otherScope other →
    (seam.Free place other ∨ ¬ (named "BLOCK").Misses seam.edit.text scope place) →
    ∀ steps ≤ granted, ∀ more, seam.edit.Follows
      (Arrives seam (.line depth) (Between seam) Value.Alike)
      ((named "BLOCK").run steps scope place) ((named "BLOCK").run more otherScope other)

theorem inlineBody_paces (granted depth : Nat) :
    Paces seam (.line depth) granted inlineBody seam.Free
      (Arrives seam (.line depth) (Between seam) Value.Alike) := by
  intro scope place otherScope other hspot steps _ more
  refine Edit.follows_sequence inlineBody_form fun fewer _ further => ?_
  refine Edit.follows_row_cons (statements_pace fewer depth hspot fewer (Nat.le_refl _) further)
    fun _ _ hlist => ?_
  refine Edit.follows_row_cons (comment_paces fewer depth hlist.2 fewer (Nat.le_refl _) further)
    fun _ _ hnote => ?_
  refine Edit.follows_row_cons (lineEnd_paces fewer depth hnote.2 fewer (Nat.le_refl _) further)
    fun _ _ hend => ?_
  refine Edit.follows_row_nil ⟨_, _, rfl, rfl, ?_, hend.2⟩
  obtain ⟨members, others, hmembers, hothers, halike⟩ := hlist.1
  rw [hmembers, hothers]
  exact alike_blockValue (statements_eq_of_alike halike)

/-- A body on the lines below its header has a line, or the program is refused. -/
theorem nestedBody_paces (hblocks : BlocksPace seam granted) (depth : Nat) :
    Paces seam (.line depth) granted nestedBody seam.Free
      (Arrives seam (.line depth) (Between seam) Value.Alike) := by
  intro scope place otherScope other hspot steps hsteps more
  refine Edit.follows_sequence nestedBody_form fun fewer hfewer further => ?_
  refine Edit.follows_row_cons (line_blanks_arrive hspot) fun _ _ hblanks => ?_
  refine Edit.follows_row_cons
    (newline_paces fewer depth hblanks.2 fewer (Nat.le_refl _) further) fun first second hend => ?_
  refine Edit.follows_row_cons (Edit.follows_overlay fun frame hframe => ?_) fun success other
    (hbody : Arrives seam (.line depth) (Between seam) Value.Alike success other) =>
      Edit.follows_row_nil ⟨_, _, rfl, rfl, hbody⟩
  have hlevel : Level false depth first.scope := hend.2.level
  have hotherLevel : Level false depth second.scope := hend.2.otherLevel
  rw [hlevel.counts.resolveAll_next] at hframe
  rw [hotherLevel.counts.resolveAll_next]
  cases hnext : Value.ofInt? (depth + 1) with
  | none =>
      rw [hnext] at hframe
      cases hframe
  | some next =>
      rw [hnext] at hframe
      cases hframe
      refine ⟨_, rfl, fun few hfew far => ?_⟩
      have hinner : Spot seam (.line (depth + 1)) (Between seam)
          (first.scope.push [("indent", .value next)]) first.position
          (second.scope.push [("indent", .value next)]) second.position :=
        ⟨hlevel.nested hnext, hotherLevel.nested hnext, hend.2.clear, hend.2.faces⟩
      by_cases hmisses : (named "BLOCK").Misses seam.edit.text
          (first.scope.push [("indent", .value next)]) first.position
      · exact Edit.of_stops (stops_of_form (Form.demand_stops hmisses)) few far
      · refine Edit.follows_demand fun least hleast most => ?_
        exact (hblocks hinner (.inr hmisses) least (by omega) most).mono fun _ _ harrives =>
          ⟨harrives.1, hlevel, hotherLevel, harrives.2.clear, harrives.2.faces⟩

theorem clause_paces (hblocks : BlocksPace seam granted) (depth : Nat)
    (hheader : ∀ granted, Paces seam (.line depth) granted header seam.Free
      (Arrives seam (.line depth) seam.Free Value.Alike)) :
    Paces seam (.line depth) granted (clause header) seam.Free
      (Arrives seam (.line depth) (Between seam) Value.Alike) := by
  have hbodies : (choice [inlineBody, nestedBody]).form = .choice [inlineBody, nestedBody] := rfl
  intro scope place otherScope other hspot steps hsteps more
  refine Edit.follows_sequence (clause_form header) fun fewer hfewer further => ?_
  refine Edit.follows_row_cons (margin_arrives hspot) fun _ _ hmargin => ?_
  refine Edit.follows_row_cons (hheader fewer hmargin.2 fewer (Nat.le_refl _) further)
    fun _ _ hheading => ?_
  refine Edit.follows_row_cons (colon_paces fewer depth hheading.2 fewer (Nat.le_refl _) further)
    fun _ _ hmark => ?_
  refine Edit.follows_row_cons (Edit.follows_choice hbodies ?_) fun success other
    (hbody : Arrives seam (.line depth) (Between seam) Value.Alike success other) => ?_
  · simp only [List.forall_mem_cons, List.not_mem_nil, false_implies, implies_true, and_true]
    exact ⟨fun few _ far => inlineBody_paces few depth hmark.2 few (Nat.le_refl _) far,
      fun few hfew far => nestedBody_paces hblocks depth hmark.2 few (by omega) far⟩
  · exact Edit.follows_row_nil ⟨_, _, rfl, rfl, alike_clauseValue hheading.1 hbody.1, hbody.2⟩

/-- A branch is matched on both sides or on neither, and at the seam there is none. -/
theorem branch_goes {words : List String} (hblocks : BlocksPace seam granted)
    (hpaces : ∀ granted, Paces seam (.line depth) granted header seam.Free
      (Arrives seam (.line depth) seam.Free Value.Alike))
    (hheader : HeadedBy header words) (hwords : words ⊆ ["elif", "else"])
    (hspot : Spot seam (.line depth) (Between seam) scope place otherScope other) :
    RoundGoes seam (.line depth) granted [clause header] (Between seam) Value.Alike
      (fun _ _ => False) scope place otherScope other := by
  have hon (hfree : seam.Free place other) :=
    round_of_paces (clause_paces hblocks depth hpaces) (hspot.mono fun _ => hfree)
  cases hspot.faces with
  | before hfront hahead hplace hother => exact hon (.before hfront hahead hplace hother)
  | within _ hplace hother => exact branch_closed hheader hwords hspot hplace hother
  | after hback hplace hother => exact hon (.after hback hplace hother)

theorem flow_paces (hblocks : BlocksPace seam granted) (depth : Nat) :
    Paces seam (.line depth) granted flow seam.Free
      (Arrives seam (.line depth) (Between seam) Value.Alike) := by
  have hmany : furtherClause.many.form = .repetition furtherClause (.ofCount 0) none none false :=
    rfl
  have hoptional : lastClause.optional.form =
      .repetition lastClause (.ofCount 0) (some (.ofCount 1)) none false := rfl
  intro scope place otherScope other hspot steps hsteps more
  refine Edit.follows_sequence flow_form fun fewer hfewer further => ?_
  have hle : fewer ≤ granted := hfewer.le.trans hsteps
  refine Edit.follows_row_cons (clause_paces hblocks depth (fun _ => headers_pace _ _) hspot fewer
    hle further) fun _ _ hclause => ?_
  refine Edit.follows_row_cons (repeated_paces hmany (fun _ => rfl)
    (fun _ => Match.resolveBounds_none (Nat.zero_le _))
    (fun hhere => branch_goes hblocks (fun _ => condition_paces (by decide) _ _)
      (headedBy_condition "elif") (by decide) hhere) hclause.2 fewer hle further)
    fun _ _ hfurther => ?_
  refine Edit.follows_row_cons (repeated_paces hoptional (fun _ => rfl)
    (fun _ => rfl)
    (fun hhere => branch_goes hblocks (fun _ => elseHeader_paces _ _) headedBy_else
      (by decide) hhere) hfurther.2 fewer hle further) fun _ _ hlast => ?_
  obtain ⟨clauses, others, hclauses, hothers, halike⟩ := hfurther.1
  obtain ⟨lasts, otherLasts, hlasts, hotherLasts, hlastsAlike⟩ := hlast.1
  refine Edit.follows_row_nil ⟨_, _, rfl, rfl, ?_, hlast.2⟩
  rw [hclauses, hothers, hlasts, hotherLasts]
  exact alike_flowValue hclause.1 halike hlastsAlike

/-- Two parts of blocks hold the same statements. -/
def SameStatements (part other : Value) : Prop :=
  (statementsOf part).map Value.unplaced = (statementsOf other).map Value.unplaced

theorem sameStatements_of_alike {part other : Value} (halike : part.Alike other) :
    SameStatements part other := by
  rw [SameStatements, unplaced_statementsOf, unplaced_statementsOf, halike]

theorem line_paces (hblocks : BlocksPace seam granted) (depth : Nat) :
    Paces seam (.line depth) granted line seam.Free
      (Arrives seam (.line depth) (Between seam) SameStatements) := by
  intro scope place otherScope other hspot steps hsteps more
  refine Edit.follows_choice line_form ?_
  simp only [List.forall_mem_cons, List.not_mem_nil, false_implies, implies_true, and_true]
  refine ⟨fun fewer _ further => ?_, fun fewer hfewer further => ?_, fun fewer _ further => ?_⟩
  · refine (emptyLine_paces fewer depth hspot fewer (Nat.le_refl _) further).mono
      fun _ _ ⟨⟨hvalue, hother⟩, hend⟩ => ⟨?_, hend⟩
    rw [hvalue, hother]
    rfl
  · refine (flow_paces hblocks depth hspot fewer (hfewer.le.trans hsteps) further).mono
      fun _ _ harrives => ⟨sameStatements_of_alike harrives.1, harrives.2⟩
  · refine (simpleLine_paces fewer depth hspot fewer (Nat.le_refl _) further).mono
      fun _ _ harrives => ⟨sameStatements_of_alike harrives.1.alike, harrives.2⟩

theorem block_form : block.form = .repetition line (.ofCount 1) none none false :=
  rfl

/-- The lines that two matches of a block have collected hold the same statements. The second
match may have one line more, but not before there is one. -/
structure Lined (seam : Seam) (depth : Nat) (begun : Prop) (tally other : Match.Tally) : Prop where
  statements : (tally.parts.toList.flatMap statementsOf).map Value.unplaced =
    (other.parts.toList.flatMap statementsOf).map Value.unplaced
  size_le : tally.parts.size ≤ other.parts.size
  first : tally.parts.size = 0 →
    begun ∨ other.parts.size = 0 ∧ seam.Free tally.position other.position
  spot : Spot seam (.line depth) (Between seam) tally.scope tally.position other.scope
    other.position

section Lined

variable {begun : Prop} {tally otherTally : Match.Tally}

theorem Lined.both {row otherRow : List Value × Position × Scope}
    (hlined : Lined seam depth begun tally otherTally)
    (hvalues : SameStatements (final row.1) (final otherRow.1))
    (hspot : Spot seam (.line depth) (Between seam) row.2.2 row.2.1 otherRow.2.2 otherRow.2.1) :
    Lined seam depth begun (tally.withRow row) (otherTally.withRow otherRow) := by
  refine ⟨?_, ?_, fun hnone => ?_, hspot⟩
  · simp only [Match.Tally.withRow, Array.toList_push, List.flatMap_append, List.map_append,
      List.flatMap_singleton, hlined.statements]
    exact congrArg _ hvalues
  · rw [Match.Tally.withRow, Match.Tally.withRow, Array.size_push, Array.size_push]
    exact Nat.succ_le_succ hlined.size_le
  · rw [Match.Tally.withRow, Array.size_push] at hnone
    cases hnone

theorem Lined.second {stop : Position} {inner : Scope}
    (hlined : Lined seam depth begun tally otherTally)
    (hbegun : tally.parts.size = 0 → begun)
    (hspot : Spot seam (.line depth) (Between seam) tally.scope tally.position inner stop) :
    Lined seam depth begun tally (otherTally.withRow ([.empty], stop, inner)) := by
  refine ⟨?_, ?_, fun hnone => .inl (hbegun hnone), hspot⟩
  · rw [hlined.statements, Match.Tally.withRow, Array.toList_push, List.flatMap_append]
    exact congrArg _ (List.append_nil _).symm
  · rw [Match.Tally.withRow, Array.size_push]
    exact hlined.size_le.trans (Nat.le_succ _)

/-- Before the seam and behind it, the matches are not at the same position as at the seam. -/
theorem not_free_within (hplace : place.offset = seam.front.length) (hother : other = place) :
    ¬ seam.Free place other := by
  obtain ⟨c, more, hgap, -⟩ := seam.head_gap
  intro hfree
  cases hfree with
  | before hfront hahead hoffset _ =>
      have hlength := congrArg List.length hfront
      have hpositive := List.length_pos_iff.mpr hahead
      rw [List.length_append] at hlength
      omega
  | within hnever => exact hnever
  | after hback hoffset hotherOffset =>
      rw [hgap, List.length_cons, hother] at hotherOffset
      omega

/-- How the next lines of a block go together. -/
theorem lines_turn (hblocks : BlocksPace seam granted) (hsteps : steps ≤ granted) (more : Nat)
    (hlined : Lined seam depth begun tally otherTally) :
    Edit.Turns seam.edit steps more line none none (Lined seam depth begun) (fun _ => False) tally
      otherTally := by
  have hon (hfree : seam.Free tally.position otherTally.position) :
      Edit.Turns seam.edit steps more line none none (Lined seam depth begun) (fun _ => False) tally
        otherTally := by
    refine .both rfl fun _ => Edit.follows_round (.inr rfl) ?_
    rw [dueAfter_none]
    have hline := line_paces hblocks depth (hlined.spot.mono fun _ => hfree) steps hsteps more
    have hforward := hline.promised_other
      (fun success => otherTally.position.offset ≤ success.position.offset)
      fun _ _ hrun => (matches_of_run hrun).leads.offset_le
    refine Edit.follows_row_cons hforward fun _ _ ⟨harrives, hle⟩ => ?_
    exact Edit.follows_row_nil (.inl ⟨hlined.both harrives.1 harrives.2,
      hfree.samePlace harrives.2.faces hle⟩)
  cases hlined.spot.faces with
  | before hfront hahead hplace hother => exact hon (.before hfront hahead hplace hother)
  | after hback hplace hother => exact hon (.after hback hplace hother)
  | within _ hplace hother =>
      have hseam := Seam.interline hlined.spot.clear hplace
      have hotherPlace : otherTally.position.offset = seam.front.length := hother ▸ hplace
      rcases gap_taken hseam hlined.spot.otherLevel hotherPlace with htaken | ⟨hnote, hempty⟩
      · have hline : line.Matches seam.edit.edited otherTally.scope otherTally.position
            ⟨.empty, otherTally.position.past seam.gap, otherTally.scope⟩ :=
          choice_matches (List.forall_mem_nil _) htaken
        refine .second ([.empty], otherTally.position.past seam.gap, otherTally.scope)
          not_fullAt_none (rowMatches_part_iff.mpr ⟨rfl, hline⟩) ?_
          (hlined.second (fun hnone => ?_) ?_)
        · exact Position.offset_past_ne _ hseam.something
        · exact (hlined.first hnone).resolve_right fun ⟨_, hfree⟩ =>
            not_free_within hplace hother hfree
        · obtain ⟨hlevel, hotherLevel, hclear, -⟩ := hlined.spot
          have hback : seam.back = [] ++ seam.back := rfl
          refine ⟨hlevel, hotherLevel, hclear, .after hback hplace ?_⟩
          rw [Position.offset_past, hotherPlace]
          rfl
      · refine .both rfl fun _ => Edit.follows_round (.inr rfl) ?_
        rw [dueAfter_none]
        exact Edit.follows_row_closed
          (ended_closed hseam hlined.spot hplace hother hnote.ended hempty _ _)

end Lined

/-- Where no line comes, there is no block. -/
theorem block_misses_of_none (hlevel : Level false depth scope) {tally : Match.Tally}
    {after : Input Silence}
    (hrounds : Match.upTo (Pattern.run steps) steps line none none scope place
      (Input.ofText seam.edit.text) = (.matched tally, after)) (hnone : tally.parts.size = 0) :
    (named "BLOCK").Misses seam.edit.text scope place := by
  obtain ⟨values, hparts, hseries⟩ := Match.series_of_rounds hrounds
  have hempty : values = [] := by
    rw [← Array.length_toList, hparts] at hnone
    exact List.eq_nil_of_length_eq_zero (by simpa using hnone)
  subst hempty
  have hbounds : Match.resolveBounds scope (.ofCount 1) none = .ok (1, none) :=
    Match.resolveBounds_none (by decide)
  have hlines : block.Misses seam.edit.text scope place :=
    misses_of_form (Form.repetition_misses hbounds hseries Nat.one_pos)
  exact named_misses (hlevel.rule?_eq (by decide) rfl) (labelled_misses "BLOCK" hlines)

/-- Blocks are matched side by side with one step more, if they are in them. -/
theorem BlocksPace.succ (hblocks : BlocksPace seam granted) : BlocksPace seam (granted + 1) := by
  intro depth scope place otherScope other hspot hbegins steps hsteps more
  have hrule {scope : Scope} (hlevel : Level false depth scope) :
      scope.rule? "BLOCK" = some (block.labelled "BLOCK") := hlevel.rule?_eq (by decide) rfl
  refine Edit.follows_named (hrule hspot.level) (hrule hspot.otherLevel)
    fun fewer hfewer further => ?_
  refine Edit.follows_labelled "BLOCK" (Edit.follows_repetition
    (fun (tally other : Match.Tally) =>
      Lined seam depth (¬ (named "BLOCK").Misses seam.edit.text scope place) tally other ∧
        (¬ (named "BLOCK").Misses seam.edit.text scope place → 0 < tally.parts.size))
    block_form (Match.resolveBounds_none (by decide)) (Match.resolveBounds_none (by decide))
    (fun few hfew far => ?_) ?_ ?_)
  · refine Edit.Follows.promised ?_ (fun tally : Match.Tally =>
      ¬ (named "BLOCK").Misses seam.edit.text scope place → 0 < tally.parts.size)
      fun tally after hrounds hbegun => ?_
    · refine Edit.follows_rounds _ (fun _ => False)
        (fun _ _ hlined => lines_turn hblocks (by omega) far hlined)
        (fun _ _ => (Or.resolve_right · id)) (fun _ => False.elim) few far
        ⟨rfl, Nat.le_refl _, fun _ => ?_, hspot⟩
      exact hbegins.symm.imp_right fun hfree => ⟨rfl, hfree⟩
    · exact Nat.pos_of_ne_zero fun hnone =>
        hbegun (block_misses_of_none hspot.level hrounds hnone)
  · rintro tally otherTally ⟨hlined, hbegun⟩
    rw [Nat.lt_one_iff, Nat.lt_one_iff]
    refine ⟨fun hnone => ?_, fun hnone => Nat.le_zero.mp (hnone ▸ hlined.size_le)⟩
    exact ((hlined.first hnone).resolve_left fun hsome => (hbegun hsome).ne' hnone).1
  · rintro tally otherTally ⟨hlined, -⟩
    exact ⟨alike_blockValue hlined.statements, hspot.level, hspot.otherLevel, hlined.spot.clear,
      hlined.spot.faces⟩

/-- By induction on the steps that are granted, since blocks stand in blocks. -/
theorem blocks_pace (seam : Seam) (granted : Nat) : BlocksPace seam granted := by
  induction granted with
  | zero =>
      intro depth scope place otherScope other _ _ steps hsteps more
      obtain rfl := Nat.le_zero.mp hsteps
      exact .excused trivial _
  | succ granted ih => exact ih.succ

end ScopedGrammar.Croco
