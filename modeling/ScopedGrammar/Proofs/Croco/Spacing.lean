/-
# What blanks take

Blanks are taken up to the first character that is none. On one line these are spaces, tabs
and newlines after a backslash; between brackets, newlines are blanks as well, and so are
comments, up to the ends of their lines. What is left of a text after its blanks is a
function of the text alone, and the rule for blanks stops exactly there, in every scope that
is ready for expressions.
-/

import ScopedGrammar.Proofs.Croco.Tokens

namespace ScopedGrammar.Croco

open Pattern

variable {text : String} {multiline : Bool} {scope : Scope} {place : Position}
  {run rest after note : List Char}

/-- Whether a character by itself is a blank. -/
def isBlankChar (multiline : Bool) (c : Char) : Bool :=
  c == ' ' || c == '\t' || (multiline && (c == '\r' || c == '\n'))

/-- A blank on one line is a blank between brackets. -/
theorem isBlankChar_between {c : Char} (hblank : isBlankChar false c = true) :
    isBlankChar true c = true := by
  simp only [isBlankChar, Bool.false_and, Bool.or_false] at hblank
  rw [isBlankChar, hblank, Bool.true_or]

/-- What is left of a text after its blanks. The flag tells whether the text begins inside a
comment. -/
def skip (multiline : Bool) : Bool → List Char → List Char
  | _, [] => []
  | true, c :: rest => skip multiline (c != '\n') rest
  | false, '\\' :: '\n' :: rest => skip multiline false rest
  | false, c :: rest =>
      if isBlankChar multiline c then skip multiline false rest
      else if multiline && c == '#' then skip multiline true rest
      else c :: rest

/-- Whether no blank begins a text. -/
structure Unspaced (multiline : Bool) (rest : List Char) : Prop where
  unblank : ∀ c ∈ rest.head?, isBlankChar multiline c = false
  uncontinued : ¬ ['\\', '\n'] <+: rest
  uncommented : multiline = true → ∀ c ∈ rest.head?, c ≠ '#'

theorem skip_blank {c : Char} (hblank : isBlankChar multiline c = true) (rest : List Char) :
    skip multiline false (c :: rest) = skip multiline false rest := by
  rw [skip, if_pos hblank]
  rintro _ rfl
  simp [isBlankChar] at hblank

theorem skip_unspaced (hrest : Unspaced multiline rest) : skip multiline false rest = rest := by
  cases rest with
  | nil => rfl
  | cons c more =>
      have hblank := hrest.unblank c rfl
      have hcomment : (multiline && c == '#') = false := by
        cases multiline with
        | false => rfl
        | true => simpa using hrest.uncommented rfl c rfl
      rw [skip, if_neg (by simp [hblank]), if_neg (by simp [hcomment])]
      rintro further rfl rfl
      exact hrest.uncontinued ⟨further, rfl⟩

/-- Inside a comment, everything up to the end of the line is left behind. -/
theorem skip_comment (hnote : '\n' ∉ note) (hafter : ∀ c ∈ after.head?, c = '\n') :
    skip true true (note ++ after) = skip true false after := by
  induction note with
  | nil =>
      cases after with
      | nil => rfl
      | cons c rest =>
          have hnewline := hafter c rfl
          subst hnewline
          rfl
  | cons c note ih =>
      rw [List.mem_cons, not_or] at hnote
      have hother : (c != '\n') = true := by simpa using fun hsame => hnote.1 hsame.symm
      rw [List.cons_append, skip, hother, ih hnote.2]

/-- Blanks, newlines and comments that have ended: nothing is left of them between brackets,
whatever comes after them. -/
def Skipped (run : List Char) : Prop :=
  ∀ after, skip true false (run ++ after) = skip true false after

theorem Skipped.append {further : List Char} (hrun : Skipped run) (hfurther : Skipped further) :
    Skipped (run ++ further) := by
  intro after
  rw [List.append_assoc, hrun, hfurther]

theorem skipped_blanks (hrun : ∀ c ∈ run, isBlankChar true c = true) : Skipped run := by
  intro after
  induction run with
  | nil => rfl
  | cons c run ih =>
      rw [List.forall_mem_cons] at hrun
      rw [List.cons_append, skip_blank hrun.1, ih hrun.2]

theorem skipped_comment (hnote : '\n' ∉ note) : Skipped ('#' :: (note ++ ['\n'])) := by
  intro after
  have hnewline : ∀ c ∈ ('\n' :: after).head?, c = '\n' := by simp
  rw [List.cons_append, List.append_assoc, List.singleton_append]
  exact (skip_comment hnote hnewline).trans (skip_blank rfl after)

theorem exists_skipped (rest : List Char) :
    ∃ run, rest = run ++ skip false false rest ∧ Skipped run := by
  -- The induction is on how much is left, since a newline that is escaped takes two characters.
  induction hlength : rest.length using Nat.strong_induction_on generalizing rest with
  | _ length ih =>
  subst hlength
  by_cases hblank : ∃ c ∈ rest.head?, isBlankChar false c = true
  · obtain ⟨c, hc, hblank⟩ := hblank
    obtain ⟨more, rfl⟩ := List.head?_eq_some_iff.mp hc
    obtain ⟨run, hrun, hskipped⟩ := ih _ (Nat.lt_succ_self _) more rfl
    have hfirst : Skipped [c] :=
      skipped_blanks (List.forall_mem_singleton.mpr (isBlankChar_between hblank))
    refine ⟨c :: run, ?_, hfirst.append hskipped⟩
    rw [skip_blank hblank, List.cons_append, ← hrun]
  by_cases hcontinued : ['\\', '\n'] <+: rest
  · obtain ⟨more, rfl⟩ := hcontinued
    obtain ⟨run, hrun, hskipped⟩ := ih _ (by simp) more rfl
    have hescaped : Skipped ['\\', '\n'] := fun _ => rfl
    exact ⟨['\\', '\n'] ++ run, congrArg (['\\', '\n'] ++ ·) hrun, hescaped.append hskipped⟩
  · have hunspaced : Unspaced false rest := ⟨by simpa using hblank, hcontinued, nofun⟩
    exact ⟨[], (skip_unspaced hunspaced).symm, fun _ => rfl⟩

/-- What blanks on one line take would be taken between brackets as well. -/
theorem skipped_of_skip (hsplit : rest = run ++ skip false false rest) : Skipped run := by
  obtain ⟨taken, htaken, hskipped⟩ := exists_skipped rest
  obtain rfl := List.append_cancel_right (hsplit.symm.trans htaken)
  exact hskipped

/-- What is repeated for blanks. -/
def spacingUnit (multiline : Bool) : Pattern :=
  choice (oneOf (if multiline then " \t\r\n" else " \t") :: literal "\\\n" ::
    if multiline then [named "COMMENT"] else [])

theorem inClass_blankChar (multiline : Bool) (c : Char) :
    inClass (if multiline then " \t\r\n" else " \t").toList false c =
      isBlankChar multiline c := by
  cases multiline <;> simp [inClass, isBlankChar, beq_eq_decide, Bool.or_assoc]

/-- A comment is taken up to the end of its line, or of the text. -/
theorem comment_matches (hfits : text.length + 1 < offsetBound)
    (hsees : place.Sees text ('#' :: (note ++ after))) (hnote : '\n' ∉ note)
    (hafter : ∀ c ∈ after.head?, c = '\n') :
    ∃ taken, comment.Matches text scope place ⟨taken, place.past ('#' :: note), scope⟩ := by
  have hmark : place.Sees text ("#".toList ++ (note ++ after)) := hsees
  have hword {here : Position} {c : Char} {rest : List Char} (hhere : here.Sees text (c :: rest)) :
      here.offset < text.length := by
    have hlength := congrArg List.length hhere
    rw [List.length_drop, List.length_cons, String.length_toList] at hlength
    omega
  obtain ⟨mark, hopened⟩ := literal_matches scope hmark
  have hmany : (literal "\n").exclude.many.CopiesAt text scope (place.past "#".toList) note := by
    apply copiesAt_many hmark.past
    · intro c hc here rest hhere
      have hmisses : (literal "\n").Misses text scope here :=
        literal_misses_of_head hhere rfl (by
          rintro d ⟨⟩ rfl
          exact hnote hc)
      refine ⟨_, ?_, matches_ofForm_iff.mpr (Form.absence_one_matches hmisses hhere ?_)⟩
      · rw [Value.toList_spelling_token, String.toList_ofList]
      · exact (Nat.succ_lt_succ (hword hhere)).trans hfits
    · cases after with
      | nil =>
          have hend : ((place.past "#".toList).past note).Sees text [] := hmark.past.past
          have hmisses : (literal "\n").Misses text scope ((place.past "#".toList).past note) :=
            literal_misses_of_head hend rfl nofun
          refine misses_of_form (Form.absence_one_misses hmisses hend ?_)
          have hlength := congrArg List.length hsees
          rw [List.length_drop, String.length_toList] at hlength
          rw [Position.offset_past, Position.offset_past]
          simp only [List.length_cons, List.length_append, List.length_nil] at hlength ⊢
          have hsharp : "#".toList.length = 1 := rfl
          omega
      | cons c rest =>
          have hnewline := hafter c rfl
          subst hnewline
          have hseen : ((place.past "#".toList).past note).Sees text ("\n".toList ++ rest) :=
            hmark.past.past
          obtain ⟨taken, htaken⟩ := literal_matches scope hseen
          exact misses_of_form (Form.absence_misses htaken)
  obtain ⟨taken, -, htaken⟩ := hmany
  exact ⟨_, matches_of_row rfl (.cons hopened (.single htaken)) rfl⟩

/-- What is next is a blank, which is taken, or blanks have ended and nothing is taken. -/
theorem spacingUnit_taken_or_missed (hready : Ready multiline scope)
    (hfits : multiline = true → text.length + 1 < offsetBound) (hsees : place.Sees text rest) :
    (∃ value unit after, rest = unit ++ after ∧ unit ≠ [] ∧
      skip multiline false rest = skip multiline false after ∧
      (spacingUnit multiline).Matches text scope place ⟨value, place.past unit, scope⟩) ∨
    (Unspaced multiline rest ∧ (spacingUnit multiline).Misses text scope place) := by
  by_cases hblank : ∃ c ∈ rest.head?, isBlankChar multiline c = true
  · obtain ⟨c, hc, hblank⟩ := hblank
    obtain ⟨more, rfl⟩ := List.head?_eq_some_iff.mp hc
    obtain ⟨value, -, hmatched⟩ : (oneOf (if multiline then " \t\r\n" else " \t")).CopiesAt text
        scope place [c] := copiesAt_class hsees ((inClass_blankChar multiline c).trans hblank)
    exact .inl ⟨value, [c], more, rfl, List.cons_ne_nil _ _, skip_blank hblank more,
      choice_matches (List.forall_mem_nil _) hmatched⟩
  have hunblank : ∀ c ∈ rest.head?, isBlankChar multiline c = false := by
    simpa using hblank
  have hclass : (oneOf (if multiline then " \t\r\n" else " \t")).Misses text scope place :=
    class_misses hsees fun c hc => (inClass_blankChar multiline c).trans (hunblank c hc)
  by_cases hcontinued : ['\\', '\n'] <+: rest
  · obtain ⟨more, rfl⟩ := hcontinued
    obtain ⟨value, hmatched⟩ := literal_matches scope
      (show place.Sees text ("\\\n".toList ++ more) from hsees)
    have hbefore : ∀ other ∈ [oneOf (if multiline then " \t\r\n" else " \t")],
        other.Misses text scope place := by
      simpa using hclass
    exact .inl ⟨value, ['\\', '\n'], more, rfl, List.cons_ne_nil _ _, rfl,
      choice_matches hbefore hmatched⟩
  have hliteral : (literal "\\\n").Misses text scope place := literal_misses hsees hcontinued
  cases multiline with
  | false =>
      exact .inr ⟨⟨hunblank, hcontinued, nofun⟩, choice_misses (by simpa using ⟨hclass, hliteral⟩)⟩
  | true =>
      by_cases hcomment : '#' ∈ rest.head?
      · obtain ⟨more, rfl⟩ := List.head?_eq_some_iff.mp hcomment
        have hsplit : more = more.takeWhile (· != '\n') ++ more.dropWhile (· != '\n') :=
          List.takeWhile_append_dropWhile.symm
        have hnote : '\n' ∉ more.takeWhile (· != '\n') := fun hmem => by
          simpa using List.mem_takeWhile_imp hmem
        have hafter : ∀ c ∈ (more.dropWhile (· != '\n')).head?, c = '\n' := fun c hc => by
          have hstop := List.head?_dropWhile_not (· != '\n') more
          rw [Option.mem_def.mp hc] at hstop
          simpa using hstop
        rw [hsplit] at hsees
        obtain ⟨value, hmatched⟩ := comment_matches (hfits rfl) hsees hnote hafter
        have hbefore : ∀ other ∈ [oneOf " \t\r\n", literal "\\\n"],
            other.Misses text scope place := by
          simpa using ⟨hclass, hliteral⟩
        refine .inl ⟨value, '#' :: more.takeWhile (· != '\n'), more.dropWhile (· != '\n'),
          congrArg ('#' :: ·) hsplit, List.cons_ne_nil _ _, ?_,
          choice_matches hbefore (hready.matches_rule comment_isRule hmatched)⟩
        have hskip := skip_comment hnote hafter
        rw [← hsplit] at hskip
        exact hskip
      · have huncommented : ∀ c ∈ rest.head?, c ≠ '#' := fun _ hc hmark => hcomment (hmark ▸ hc)
        have hmisses : (named "COMMENT").Misses text scope place :=
          hready.misses_rule comment_isRule (comment_misses hsees huncommented)
        exact .inr ⟨⟨hunblank, hcontinued, fun _ => huncommented⟩,
          choice_misses (by simpa using ⟨hclass, hliteral, hmisses⟩)⟩

/-- Rounds of blanks go on up to what blanks leave. -/
theorem spacing_series (hready : Ready multiline scope)
    (hfits : multiline = true → text.length + 1 < offsetBound) (hsees : place.Sees text rest)
    (count : Nat) :
    ∃ values run, rest = run ++ skip multiline false rest ∧
      Series text (spacingUnit multiline) none none count scope place values (place.past run)
        scope := by
  -- The induction is on how much is seen, since a comment is a blank of any length.
  induction hlength : rest.length using Nat.strong_induction_on generalizing rest place count with
  | _ length ih =>
      rcases spacingUnit_taken_or_missed hready hfits hsees with
        ⟨value, unit, after, rfl, hsome, hskip, hmatched⟩ | ⟨hunspaced, hmissed⟩
      · have hless : after.length < length := by
          have hpositive := List.length_pos_iff.mpr hsome
          rw [List.length_append] at hlength
          omega
        obtain ⟨values, run, hrun, hseries⟩ := ih _ hless hsees.past (count + 1) rfl
        refine ⟨value :: values, unit ++ run, ?_, ?_⟩
        · rw [hskip, List.append_assoc, ← hrun]
        · rw [Position.past_append]
          exact .moved not_fullAt_none (rowMatches_part_iff.mpr ⟨rfl, hmatched⟩)
            (Position.offset_past_ne _ hsome) hseries
      · exact ⟨[], [], (skip_unspaced hunspaced).symm,
          .missed not_fullAt_none (rowMisses_part_iff.mpr hmissed)⟩

/-- The rule for blanks takes what blanks do not leave, and no more. -/
theorem spaces_match (hready : Ready multiline scope)
    (hfits : multiline = true → text.length + 1 < offsetBound) (hsees : place.Sees text rest) :
    ∃ taken run, rest = run ++ skip multiline false rest ∧
      (named "SPACES").Matches text scope place ⟨taken, place.past run, scope⟩ := by
  obtain ⟨values, run, hrun, hseries⟩ := spacing_series hready hfits hsees 0
  have hmany : (spacingUnit multiline).many.Matches text scope place
      ⟨.list values, place.past run, scope⟩ :=
    (matches_atLeast_iff (Nat.zero_le _)).mpr ⟨values, hseries, Nat.zero_le _, rfl⟩
  refine ⟨.list values, run, hrun, (matches_named_iff hready.blanks).mpr ⟨scope, ?_, rfl⟩⟩
  cases multiline with
  | false => exact (matches_labelled_iff "SPACES").mpr hmany
  | true => exact hready.matches_rule multilineSpaces_isRule hmany

end ScopedGrammar.Croco
