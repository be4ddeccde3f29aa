/-
# Lines at a seam

Outside of brackets, only the end of a line leads to the seam. So the statements on a line are
matched side by side as they stand, and so are its indentation, a comment on it, and its end. A
line that ends at the seam ends there on both sides.
-/

import ScopedGrammar.Proofs.Croco.Bodies
import ScopedGrammar.Proofs.Croco.SeamExpressions

namespace ScopedGrammar.Croco

open Pattern

variable {seam : Seam} {depth granted steps more : Nat} {scope otherScope : Scope}
  {place other : Position} {pattern part inner : Pattern} {edge : Prop} {kind : Char → Bool}
  {ends : Position → Position → Prop} {values : Value → Value → Prop}

/-- The two matches are not at the seam, or a line has ended there. -/
abbrev Between (seam : Seam) : Position → Position → Prop :=
  seam.Faces True

theorem not_multiline (depth : Nat) : ¬ (Setting.line depth).multiline = true :=
  Bool.false_ne_true

/-- On a line, an expression begins before the seam or behind it. -/
theorem free_of_starts (hstarts : Starts seam (.line depth) place other) : seam.Free place other :=
  hstarts.1.mono (not_multiline depth)

theorem starts_of_free (hfree : seam.Free place other) : Starts seam (.line depth) place other :=
  ⟨hfree.mono False.elim, fun hmultiline => absurd hmultiline (not_multiline depth)⟩

/-- On a line, the second match is never lost. -/
theorem Reaches.arrives {passed : List Char} {success otherSuccess : Match}
    (hreaches : Reaches seam (.line depth) ends values (Astray seam (.line depth) passed) success
      otherSuccess) : Arrives seam (.line depth) ends values success otherSuccess :=
  hreaches.resolve_right fun hastray => not_multiline depth hastray.multiline

/-- What ends on a line, but does not end it, does not lead to the seam. -/
theorem Arrives.free {success otherSuccess : Match}
    (harrives : Arrives seam (.line depth) (seam.Faces (seam.Ended kind)) values success
      otherSuccess) (hkind : kind '\n' = false) :
    Arrives seam (.line depth) seam.Free values success otherSuccess :=
  ⟨harrives.1, (harrives.2.settle hkind).mono fun hfaces => hfaces.mono (not_multiline depth)⟩

theorem operand_arrives {name : String} (hname : name = "EXPRESSION" ∨ name = "POSTFIX")
    (granted depth : Nat) :
    Paces seam (.line depth) granted (named name) seam.Free
      (Arrives seam (.line depth) seam.Free Value.Alike) := by
  have hoperands := operands_pace seam granted (.line depth)
  have hpaces : ExpressionPaces seam (.line depth) granted name := by
    rcases hname with rfl | rfl
    · exact hoperands.1
    · exact hoperands.2
  exact (hpaces.of_faces fun _ _ => starts_of_free).mono fun _ _ => Reaches.arrives

theorem word_paces {word : String} (hword : word ∈ keywords) (granted depth : Nat) :
    Paces seam (.line depth) granted (keyword word) seam.Free
      (Arrives seam (.line depth) seam.Free Value.Alike) := by
  have hsound : ∀ word ∈ keywords, keepsBrackets (keyword word) = true := by decide +kernel
  have hexposed : ∀ word ∈ keywords, (keyword word).exposed ⊆ captures := by decide
  intro scope place otherScope other hspot steps _ more
  exact (hspot.arrives (.inl (hsound word hword)) (hexposed word hword)
    (keyword_lands hword hspot.faces)).mono fun _ _ harrives => harrives.free (by decide)

theorem sign_paces (word : String) (hmark : isMark word = true) (granted depth : Nat) :
    Paces seam (.line depth) granted (literal word) seam.Free
      (Arrives seam (.line depth) seam.Free Value.Alike) :=
  fun _ _ _ _ hspot _ _ _ => (mark_arrives word hmark hspot).mono
    fun _ _ harrives => harrives.mono free_of_starts id

theorem line_blanks_arrive
    (hspot : Spot seam (.line depth) seam.Free scope place otherScope other) :
    seam.edit.Follows (Arrives seam (.line depth) seam.Free fun _ _ => True)
      ((named "SPACES").run steps scope place) ((named "SPACES").run more otherScope other) :=
  (spaces_arrive (hspot.mono fun hfree => hfree.mono False.elim)).mono
    fun _ _ harrives => harrives.mono And.left id

/-- A pattern is repeated as long as its rounds go, and none is lost. -/
theorem repeated_paces {setting : Setting} {upper : Option Term} {most : Option Nat}
    (hform : pattern.form = .repetition part (.ofCount 0) upper none false)
    (hfinish : ∀ raw, pattern.finishValue raw = raw)
    (hbounds : ∀ scope, Match.resolveBounds scope (.ofCount 0) upper = .ok (0, most))
    (hround : ∀ {scope place otherScope other},
      Spot seam setting (seam.Faces edge) scope place otherScope other →
      RoundGoes seam setting granted [part] (seam.Faces edge) values (fun _ _ => False) scope place
        otherScope other) :
    Paces seam setting granted pattern (seam.Faces edge)
      (Arrives seam setting (seam.Faces edge) (Listed values)) := by
  intro scope place otherScope other hspot steps hsteps more
  have hseries := follows_series (fun _ => seam.Faces edge) values (fun _ _ => False) hform hfinish
    (fun scope _ => hbounds scope)
    (fun _ _ _ hfaces => ⟨edge, hfaces⟩)
    (fun count _ _ _ _ _ hhere => by
      rw [dueAfter_none, List.nil_append]
      exact hround hhere)
    (fun _ _ _ => False.elim) (.inl rfl) hspot hsteps more
  exact hseries.mono fun _ _ hreaches =>
    (hreaches.resolve_right id).mono (fun ⟨_, hfaces⟩ => hfaces) id

/-- A round of a pattern that is not matched at the seam. -/
theorem round_of_paces {setting : Setting}
    (hpaces : Paces seam setting granted part seam.Free
      (Arrives seam setting (seam.Faces edge) values))
    (hspot : Spot seam setting seam.Free scope place otherScope other) :
    RoundGoes seam setting granted [part] (seam.Faces edge) values (fun _ _ => False) scope place
      otherScope other :=
  .on hspot.faces fun fewer hfewer further =>
    Edit.follows_row_cons (hpaces hspot fewer hfewer.le further)
      fun _ _ harrives => Edit.follows_row_nil (.inl harrives)

theorem optional_paces {setting : Setting}
    (hpaces : Paces seam setting granted part seam.Free (Arrives seam setting seam.Free values)) :
    Paces seam setting granted part.optional seam.Free
      (Arrives seam setting seam.Free (Listed values)) :=
  repeated_paces rfl (fun _ => rfl) (fun _ => rfl) fun hspot => round_of_paces hpaces hspot

theorem keywordStatement_paces (granted depth : Nat) :
    Paces seam (.line depth) granted keywordStatement seam.Free
      (Arrives seam (.line depth) seam.Free Value.Alike) := by
  have hreserved : ∀ word ∈ ["break", "continue", "pass"], word ∈ keywords := by decide
  intro scope place otherScope other hspot steps _ more
  refine Edit.follows_choice rfl ?_
  rw [List.forall_mem_map]
  refine fun word hword fewer _ further => Edit.follows_map ?_
  exact (word_paces (hreserved word hword) fewer depth hspot fewer (Nat.le_refl _) further).mono
    fun _ _ harrives => ⟨(placeless_nodeFrom word []).alike harrives.1, harrives.2⟩

theorem assignment_paces (granted depth : Nat) :
    Paces seam (.line depth) granted assignment seam.Free
      (Arrives seam (.line depth) seam.Free Value.Alike) := by
  have hmarks : ∀ word ∈ inPlaceOperators, isMark word = true := by decide
  have hsigns (granted : Nat) : Paces seam (.line depth) granted
      (choice (inPlaceOperators.map literal)) seam.Free
      (Arrives seam (.line depth) seam.Free Value.Alike) := by
    intro scope place otherScope other hspot steps _ more
    refine Edit.follows_choice rfl ?_
    rw [List.forall_mem_map]
    exact fun word hword fewer _ further =>
      sign_paces word (hmarks word hword) fewer depth hspot fewer (Nat.le_refl _) further
  obtain ⟨message, hform⟩ := assignment_form
  intro scope place otherScope other hspot steps hsteps more
  refine Edit.follows_sequence hform fun fewer _ further => ?_
  refine Edit.follows_row_cons
    (operand_arrives (.inr rfl) fewer depth hspot fewer (Nat.le_refl _) further)
    fun _ _ htarget => ?_
  refine Edit.follows_row_cons
    (optional_paces (hsigns fewer) htarget.2 fewer (Nat.le_refl _) further) fun _ _ hsign => ?_
  refine Edit.follows_row_cons
    (sign_paces "=" (by decide) fewer depth hsign.2 fewer (Nat.le_refl _) further)
    fun _ _ hequals => ?_
  refine Edit.follows_row_cons
    (Edit.follows_notAhead (fun few _ far => ?_) ⟨.token rfl, hequals.2⟩)
    fun success other (hnothing : Arrives seam (.line depth) seam.Free Value.Alike success other) =>
      ?_
  · exact (sign_paces "=" (by decide) few depth hequals.2 few (Nat.le_refl _) far).mono
      fun _ _ _ => trivial
  refine Edit.follows_row_cons (Edit.follows_demand fun few _ far =>
    operand_arrives (.inl rfl) few depth hnothing.2 few (Nat.le_refl _) far) fun _ _ hvalue => ?_
  exact Edit.follows_row_nil ⟨_, _, rfl, rfl, placeless_assignmentValue.alike (.list
    (.cons htarget.1 (.cons hsign.1.alike (.cons hequals.1 (.cons hnothing.1
      (.cons hvalue.1 .nil)))))), hvalue.2⟩

theorem statement_paces (granted depth : Nat) :
    Paces seam (.line depth) granted (named "STATEMENT") seam.Free
      (Arrives seam (.line depth) seam.Free Value.Alike) := by
  have hword (granted : Nat) : Paces seam (.line depth) granted (spaced keywordStatement) seam.Free
      (Arrives seam (.line depth) seam.Free Value.Alike) := by
    refine spaced_paces (fun _ => false) ((keywordStatement_paces granted depth).mono
      fun _ _ harrives => harrives.mono (fun hfree => hfree.mono False.elim) id) rfl
      (fun _ _ hfree => hfree.mono False.elim) fun _ _ _ _ _ hfree _ => hfree
  have hrule (granted : Nat) : Paces seam (.line depth) granted statement seam.Free
      (Arrives seam (.line depth) seam.Free Value.Alike) := by
    intro scope place otherScope other hspot steps _ more
    have hform : statement.form =
        .choice [spaced keywordStatement, assignment, named "EXPRESSION"] := rfl
    refine Edit.follows_choice hform ?_
    simp only [List.forall_mem_cons, List.not_mem_nil, false_implies, implies_true, and_true]
    exact ⟨fun fewer _ further => hword fewer hspot fewer (Nat.le_refl _) further,
      fun fewer _ further => assignment_paces fewer depth hspot fewer (Nat.le_refl _) further,
      fun fewer _ further => operand_arrives (.inl rfl) fewer depth hspot fewer (Nat.le_refl _)
        further⟩
  exact ((hrule granted).named (by decide) rfl fun _ _ _ _ _ _ hspot harrives =>
    harrives.back hspot).le (Nat.le_succ granted)

theorem statements_form : statements.form =
    .repetition (named "STATEMENT") (.ofCount 1) none (some (literal ";")) false :=
  rfl

theorem statements_pace (granted depth : Nat) :
    Paces seam (.line depth) granted statements seam.Free
      (Arrives seam (.line depth) seam.Free (Listed Value.Alike)) := by
  intro scope place otherScope other hspot steps hsteps more
  have hseries := follows_series (fun _ => seam.Free) Value.Alike (fun _ _ => False)
    statements_form (fun _ => rfl) (fun _ _ => Match.resolveBounds_none (by decide))
    (fun _ _ _ hfree => ⟨False, hfree⟩) ?_ (fun _ _ _ => False.elim) (.inr fun _ _ => id) hspot
    hsteps more
  · exact hseries.mono fun _ _ hreaches =>
      (hreaches.resolve_right id).mono (fun ⟨_, hfree⟩ => hfree) id
  · intro count here there otherHere otherThere _ hhere
    refine .on hhere.faces fun fewer _ further => ?_
    have hstatement {scope otherScope : Scope} {place other : Position}
        (hspot : Spot seam (.line depth) seam.Free scope place otherScope other) :=
      statement_paces fewer depth hspot fewer (Nat.le_refl _) further
    cases count with
    | zero =>
        refine Edit.follows_row_cons (hstatement hhere) fun _ _ harrives => ?_
        exact Edit.follows_row_nil (.inl harrives)
    | succ count =>
        refine Edit.follows_row_cons (sign_paces ";" (by decide) fewer depth hhere fewer
          (Nat.le_refl _) further) fun _ _ hdue => ?_
        refine Edit.follows_row_cons (hstatement hdue.2) fun _ _ harrives => ?_
        exact Edit.follows_row_nil (.inl harrives)

theorem comment_paces (granted depth : Nat) :
    Paces seam (.line depth) granted (named "COMMENT").optional seam.Free
      (Arrives seam (.line depth) seam.Free (Listed fun _ _ => True)) := by
  refine optional_paces fun scope place otherScope other hspot steps _ more => ?_
  exact hspot.arrives (.inl (by decide)) (by decide) (comment_lands hspot)

theorem newline_paces (granted depth : Nat) :
    Paces seam (.line depth) granted (literal "\n") seam.Free
      (Arrives seam (.line depth) (Between seam) Value.Alike) := by
  have hnewline : joined "\n".toList = true ∧ "\n".toList ≠ [] := by decide
  intro scope place otherScope other hspot steps _ more
  exact hspot.arrives (.inl (by decide)) (by decide)
    ((literal_lands _ _ hnewline.1 hnewline.2 hspot.faces nofun _ _).mono fun _ _ hlands =>
      ⟨hlands.1, hlands.2.mono fun _ => trivial⟩)

/-- The text ends on both sides or on neither. -/
theorem finish_paces (granted depth : Nat) :
    Paces seam (.line depth) granted finish seam.Free
      (Arrives seam (.line depth) seam.Free Value.Alike) := by
  have hmatches {text : String} (scope : Scope) {place : Position} (hsees : place.Sees text []) :
      finish.Matches text scope place ⟨.endMark, place, scope⟩ :=
    matches_ofForm_iff.mpr ((Form.matches_finish_iff hsees).mpr ⟨rfl, rfl⟩)
  have hmisses {text : String} (scope : Scope) {place : Position} {rest : List Char}
      (hsees : place.Sees text rest) (hsome : rest ≠ []) : finish.Misses text scope place :=
    misses_of_form (Form.finish_misses hsees hsome)
  intro scope place otherScope other hspot steps _ more
  refine hspot.arrives (.inl (by decide)) (by decide) ?_
  cases hspot.faces with
  | before hfront hahead hplace hother =>
      subst hother
      obtain ⟨hsees, hsecond⟩ := Seam.sees_before hfront hplace
      exact Edit.of_misses (hmisses _ hsees (by simp [hahead]))
        (hmisses _ hsecond (by simp [hahead])) steps more
  | within hnever => exact hnever.elim
  | after hback hplace hother =>
      rename_i passed rest
      obtain ⟨hsees, hsecond⟩ := Seam.sees_after hback hplace hother
      cases rest with
      | nil =>
          exact Edit.of_matches (hmatches _ hsees) (hmatches _ hsecond)
            ⟨.refl _, .after hback hplace hother⟩ steps more
      | cons c rest =>
          exact Edit.of_misses (hmisses _ hsees (List.cons_ne_nil _ _))
            (hmisses _ hsecond (List.cons_ne_nil _ _)) steps more

theorem lineEnd_paces (granted depth : Nat) :
    Paces seam (.line depth) granted lineEnd seam.Free
      (Arrives seam (.line depth) (Between seam) Value.Alike) := by
  intro scope place otherScope other hspot steps _ more
  refine Edit.follows_demand fun fewer _ further => Edit.follows_choice rfl ?_
  simp only [List.forall_mem_cons, List.not_mem_nil, false_implies, implies_true, and_true]
  refine ⟨fun few _ far => newline_paces few depth hspot few (Nat.le_refl _) far,
    fun few _ far => ?_⟩
  exact (finish_paces few depth hspot few (Nat.le_refl _) far).mono fun _ _ harrives =>
    harrives.mono (fun hfree => hfree.mono False.elim) id

/-- Blanks do not lead up to the seam. -/
theorem not_blank_before (hclear : Clear seam.edit.text [] place) {passed ahead : List Char}
    (hfront : seam.front = passed ++ ahead) (hplace : place.offset = passed.length)
    (hsome : ahead ≠ []) : ¬ Blank ahead := by
  intro hblank
  have hneutral : ∀ c ∈ ahead, isNeutral c = true := fun c hc => by
    rcases hblank c hc with rfl | rfl <;> decide
  have hnewline := Seam.newline_of_passed hclear hfront hplace hneutral
  rw [hfront, List.getLast?_append_of_ne_nil _ hsome,
    List.getLast?_eq_getLast_of_ne_nil hsome] at hnewline
  rcases hblank _ (List.getLast_mem hsome) with hlast | hlast <;>
    simp [hlast] at hnewline

theorem margin_lands (hspot : Spot seam (.line depth) seam.Free scope place otherScope other) :
    seam.edit.Follows (Lands seam.Free fun _ _ => True)
      ((named "INDENT").run steps scope place) ((named "INDENT").run more otherScope other) := by
  obtain ⟨hlevel, hotherLevel, hclear, hfaces⟩ := hspot
  have henough {levels : List Indent} {after otherAfter : List Char}
      (hsees : place.Sees seam.edit.text (margin levels ++ after))
      (hsecond : other.Sees seam.edit.edited (margin levels ++ otherAfter))
      (hlength : levels.length = depth) (hafter : Unindented after)
      (hotherAfter : Unindented otherAfter)
      (hends : seam.Free (place.past (margin levels)) (other.past (margin levels))) :
      seam.edit.Follows (Lands seam.Free fun _ _ => True)
        ((named "INDENT").run steps scope place) ((named "INDENT").run more otherScope other) := by
    obtain ⟨_, hfirst⟩ := indentation_matches hlevel hsees hafter hlength
    obtain ⟨_, hother⟩ := indentation_matches hotherLevel hsecond hotherAfter hlength
    exact Edit.of_matches hfirst hother ⟨trivial, hends⟩ steps more
  have htooMany {levels : List Indent} {c : Char} {after : List Char}
      (hsees : place.Sees seam.edit.text (margin levels ++ (c :: after)))
      (hlength : levels.length = depth) (hc : c = ' ' ∨ c = '\t') :
      seam.edit.Follows (Lands seam.Free fun _ _ => True)
        ((named "INDENT").run steps scope place) ((named "INDENT").run more otherScope other) := by
    obtain ⟨_, hstops, -⟩ := indentation_stops hlevel hsees hlength hc
    exact Edit.of_stops hstops steps more
  cases hfaces with
  | before hfront hahead hplace hother =>
      rename_i passed ahead
      subst hother
      obtain ⟨hsees, hsecond⟩ := Seam.sees_before hfront hplace
      have hnotBlank := not_blank_before hclear hfront hplace hahead
      cases indented depth ahead with
      | enough hsplit hlength hafter =>
          rename_i levels after
          subst hsplit
          have hsome : after ≠ [] := by
            rintro rfl
            exact hnotBlank (by simpa using blank_margin levels)
          rw [List.append_assoc] at hsees hsecond
          exact henough hsees hsecond hlength (hafter.append hsome _) (hafter.append hsome _)
            (.past_before hfront hplace fun hnone => absurd hnone hsome)
      | tooFew hsplit hfew hafter =>
          rename_i levels after
          subst hsplit
          have hmore {rest : List Char} (hblank : Blank after) : Unindented rest := by
            refine absurd (fun c hc => ?_) hnotBlank
            exact (List.mem_append.mp hc).elim (blank_margin levels c) (hblank c)
          rw [List.append_assoc] at hsees hsecond
          exact Edit.of_misses (indentation_misses hlevel hsees (hafter.append hmore) hfew)
            (indentation_misses hotherLevel hsecond (hafter.append hmore) hfew) steps more
      | tooMany hsplit hlength hc =>
          rw [hsplit, List.append_assoc, List.cons_append] at hsees
          exact htooMany hsees hlength hc
  | within hnever => exact hnever.elim
  | after hback hplace hother =>
      rename_i passed rest
      obtain ⟨hsees, hsecond⟩ := Seam.sees_after hback hplace hother
      cases indented depth rest with
      | enough hsplit hlength hafter =>
          subst hsplit
          exact henough hsees hsecond hlength hafter hafter (.past_after hback hplace hother)
      | tooFew hsplit hfew hafter =>
          subst hsplit
          exact Edit.of_misses (indentation_misses hlevel hsees hafter hfew)
            (indentation_misses hotherLevel hsecond hafter hfew) steps more
      | tooMany hsplit hlength hc =>
          rw [hsplit] at hsees
          exact htooMany hsees hlength hc

theorem margin_arrives (hspot : Spot seam (.line depth) seam.Free scope place otherScope other) :
    seam.edit.Follows (Arrives seam (.line depth) seam.Free fun _ _ => True)
      ((named "INDENT").run steps scope place) ((named "INDENT").run more otherScope other) :=
  hspot.arrives (.inl (by decide)) (by decide) (margin_lands hspot)

/-- Blanks at the beginning of a line end before the seam. -/
theorem blanks_arrive {least : Nat} (hleast : least ≤ 1)
    (hspot : Spot seam (.line depth) seam.Free scope place otherScope other) :
    seam.edit.Follows (Arrives seam (.line depth) seam.Free fun _ _ => True)
      (((oneOf " \t").atLeast least).run steps scope place)
      (((oneOf " \t").atLeast least).run more otherScope other) := by
  refine hspot.arrives (.inl rfl) (List.nil_subset _) ((run_lands _ hleast hspot.faces
    fun passed run hfront hplace hrun hnone => ?_).mono fun _ _ hlands => ⟨trivial, hlands.2⟩)
  have hblank : Blank run := fun c hc => by
    simpa [isMember, inClass, beq_eq_decide] using hrun c hc
  exact absurd hblank (not_blank_before hspot.clear hfront hplace fun hempty => hnone hempty)

theorem emptyLine_paces (granted depth : Nat) :
    Paces seam (.line depth) granted emptyLine seam.Free
      (Arrives seam (.line depth) (Between seam) fun value other =>
        value = .empty ∧ other = .empty) := by
  intro scope place otherScope other hspot steps _ more
  refine Edit.follows_choice emptyLine_form ?_
  simp only [List.forall_mem_cons, List.not_mem_nil, false_implies, implies_true, and_true]
  constructor
  · intro fewer _ further
    refine Edit.follows_sequence rfl fun few _ far => ?_
    refine Edit.follows_row_cons (blanks_arrive (Nat.zero_le 1) hspot) fun _ _ hblanks => ?_
    refine Edit.follows_row_cons (comment_paces few depth hblanks.2 few (Nat.le_refl _) far)
      fun _ _ hnote => ?_
    refine Edit.follows_row_cons (newline_paces few depth hnote.2 few (Nat.le_refl _) far)
      fun _ _ hend => ?_
    exact Edit.follows_row_nil ⟨_, _, rfl, rfl, ⟨rfl, rfl⟩, hend.2⟩
  · intro fewer _ further
    refine Edit.follows_sequence rfl fun few _ far => ?_
    refine Edit.follows_row_cons (blanks_arrive (Nat.le_refl 1) hspot) fun _ _ hblanks => ?_
    refine Edit.follows_row_cons (finish_paces few depth hblanks.2 few (Nat.le_refl _) far)
      fun _ _ hend => ?_
    exact Edit.follows_row_nil ⟨_, _, rfl, rfl, ⟨rfl, rfl⟩,
      hend.2.mono fun hfree => hfree.mono False.elim⟩

theorem simpleLine_paces (granted depth : Nat) :
    Paces seam (.line depth) granted simpleLine seam.Free
      (Arrives seam (.line depth) (Between seam) (Listed Value.Alike)) := by
  intro scope place otherScope other hspot steps _ more
  refine Edit.follows_sequence simpleLine_form fun fewer _ further => ?_
  refine Edit.follows_row_cons (margin_arrives hspot) fun _ _ hmargin => ?_
  refine Edit.follows_row_cons (statements_pace fewer depth hmargin.2 fewer (Nat.le_refl _) further)
    fun _ _ hlist => ?_
  refine Edit.follows_row_cons (comment_paces fewer depth hlist.2 fewer (Nat.le_refl _) further)
    fun _ _ hnote => ?_
  refine Edit.follows_row_cons (lineEnd_paces fewer depth hnote.2 fewer (Nat.le_refl _) further)
    fun _ _ hend => ?_
  exact Edit.follows_row_nil ⟨_, _, rfl, rfl, hlist.1, hend.2⟩

end ScopedGrammar.Croco
