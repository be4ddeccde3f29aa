/-
# Blanks at a seam

Blanks between tokens go on up to a token, and a comment counts as a blank inside brackets. What
they go over before the seam is told by a reader, who knows there whether he is in a comment and
which brackets are open. If it is all that stands before the seam, the gap is gone over as well,
and then both matches are at the token behind it.
-/

import ScopedGrammar.Proofs.Croco.Seams

namespace ScopedGrammar.Croco

open Pattern

variable {seam : Seam} {setting : Setting} {scope otherScope : Scope} {place other : Position}
  {steps more : Nat} {passed ahead : List Char}

/-- How blanks go over what stands before the seam, which a reader knows to be inside a comment
or not: they stop before the seam, or go over all of it, or the seam is inside a comment. -/
inductive Skips (multiline flag : Bool) (reader : Reader) (ahead : List Char) : Prop
  | stopped (run stop : List Char) (hsplit : ahead = run ++ stop) (hstop : stop ≠ [])
      (hskip : ∀ behind, skip multiline flag (ahead ++ behind) = stop ++ behind)
      (hlast : ∀ c ∈ run.getLast?, isNameChar c = false ∧ c ≠ '.')
      (hcomment : flag = true → run ≠ [])
  | through (hskip : ∀ behind, skip multiline flag (ahead ++ behind) = skip multiline false behind)
      (hmode : (reader.past ahead).mode = .plain)
      (hopened : (reader.past ahead).opened = reader.opened)
      (hcontinued : multiline = false → ahead.getLast? = some '\n' →
        ∃ before, ahead = before ++ ['\\', '\n'] ∧ (reader.past before).mode = .plain)
  | commented (hmode : (reader.past ahead).mode = .comment)

/-- Blanks that go over a unit go on behind it. -/
theorem Skips.append {multiline flag : Bool} {reader : Reader} (unit : List Char) (next : Bool)
    (hsome : unit ≠ [])
    (hskip : ∀ behind, skip multiline flag (unit ++ (ahead ++ behind)) =
      skip multiline next (ahead ++ behind))
    (hopened : (reader.past unit).opened = reader.opened)
    (hlast : next = false → ∀ c ∈ unit.getLast?, isNameChar c = false ∧ c ≠ '.')
    (hcontinued : multiline = false → unit.getLast? = some '\n' →
      ∃ before, unit = before ++ ['\\', '\n'] ∧ (reader.past before).mode = .plain)
    (hskips : Skips multiline next (reader.past unit) ahead) :
    Skips multiline flag reader (unit ++ ahead) := by
  have hpast : reader.past (unit ++ ahead) = (reader.past unit).past ahead := List.foldl_append
  have hwhole (behind : List Char) : skip multiline flag (unit ++ ahead ++ behind) =
      skip multiline next (ahead ++ behind) := by
    rw [List.append_assoc, hskip]
  cases hskips with
  | stopped run stop hsplit hstop hrest hend hcomment =>
      refine .stopped (unit ++ run) stop (by rw [hsplit, List.append_assoc]) hstop
        (fun behind => (hwhole behind).trans (hrest behind)) ?_ fun _ => by simp [hsome]
      by_cases hnone : run = []
      · rw [hnone, List.append_nil]
        exact hlast (Bool.eq_false_iff.mpr fun hnext => hcomment hnext hnone)
      · rw [List.getLast?_append_of_ne_nil _ hnone]
        exact hend
  | through hrest hmode hsame hcontinues =>
      refine .through (fun behind => (hwhole behind).trans (hrest behind)) (hpast ▸ hmode)
        (hpast ▸ hsame.trans hopened) fun hline hend => ?_
      by_cases hnone : ahead = []
      · rw [hnone, List.append_nil] at hend ⊢
        exact hcontinued hline hend
      · rw [List.getLast?_append_of_ne_nil _ hnone] at hend
        obtain ⟨before, hbefore, hplain⟩ := hcontinues hline hend
        refine ⟨unit ++ before, by rw [hbefore, List.append_assoc], ?_⟩
        rw [Reader.past, List.foldl_append]
        exact hplain
  | commented hmode => exact .commented (hpast ▸ hmode)

theorem step_of_neutral {reader : Reader} {c : Char} (hmode : reader.mode = .plain)
    (hc : isNeutral c = true) :
    (reader.step c).mode = .plain ∧ (reader.step c).opened = reader.opened := by
  rw [Reader.step, hmode, if_pos rfl, openAfter_of_neutral _ _ hc]
  exact ⟨Mode.next_of_neutral hc, rfl⟩

theorem past_continued {reader : Reader} (hmode : reader.mode = .plain) :
    (reader.past ['\\', '\n']).mode = .plain ∧
      (reader.past ['\\', '\n']).opened = reader.opened := by
  have hbackslash : isNeutral '\\' = true := by decide
  have hnewline : isNeutral '\n' = true := by decide
  obtain ⟨hfirst, hopened⟩ := step_of_neutral hmode hbackslash
  obtain ⟨hsecond, hsame⟩ := step_of_neutral hfirst hnewline
  exact ⟨hsecond, hsame.trans hopened⟩

theorem isNeutral_of_blank {multiline : Bool} {c : Char}
    (hblank : isBlankChar multiline c = true) :
    isNeutral c = true ∧ isNameChar c = false ∧ c ≠ '.' := by
  simp only [isBlankChar, Bool.or_eq_true, Bool.and_eq_true, beq_iff_eq] at hblank
  rcases hblank with (rfl | rfl) | ⟨-, rfl | rfl⟩ <;> decide

namespace Skips

variable {multiline flag : Bool} {reader : Reader} {c : Char}

theorem nil (hmode : reader.mode = if flag then .comment else .plain) :
    Skips multiline flag reader [] := by
  cases flag with
  | false => exact .through (fun _ => rfl) hmode rfl (by simp)
  | true => exact .commented hmode

theorem blank (hmode : reader.mode = .plain) (hblank : isBlankChar multiline c = true)
    (hskips : Skips multiline false (reader.past [c]) ahead) :
    Skips multiline false reader (c :: ahead) := by
  obtain ⟨hneutral, hlast⟩ := isNeutral_of_blank hblank
  refine .append [c] false (List.cons_ne_nil _ _) (fun _ => skip_blank hblank _)
    (step_of_neutral hmode hneutral).2 ?_ ?_ hskips
  · rintro - d ⟨⟩
    exact hlast
  · rintro rfl ⟨⟩
    cases hblank

/-- A backslash and a newline are a blank together. -/
theorem continued (hmode : reader.mode = .plain)
    (hskips : Skips multiline false (reader.past ['\\', '\n']) ahead) :
    Skips multiline false reader ('\\' :: '\n' :: ahead) := by
  refine .append ['\\', '\n'] false (List.cons_ne_nil _ _) (fun _ => ?_) (past_continued hmode).2
    ?_ (fun _ _ => ⟨[], rfl, hmode⟩) hskips
  · rw [List.cons_append, List.singleton_append, skip]
  · rintro - d ⟨⟩
    decide

/-- Inside brackets, a comment counts as a blank. -/
theorem comment (hmode : reader.mode = .plain)
    (hskips : Skips true true (reader.past ['#']) ahead) :
    Skips true false reader ('#' :: ahead) := by
  refine .append ['#'] true (List.cons_ne_nil _ _) (fun _ => rfl) ?_ (by simp) (by simp) hskips
  show (if reader.mode = .plain then _ else _) = _
  rw [if_pos hmode]
  exact openAfter_of_not_mem _ _ (by decide)

/-- A comment ends with its line. -/
theorem commentChar (hmode : reader.mode = .comment)
    (hskips : Skips true (c != '\n') (reader.past [c]) ahead) :
    Skips true true reader (c :: ahead) := by
  have hinside : reader.mode ≠ .plain := by
    rw [hmode]
    decide
  refine .append [c] (c != '\n') (List.cons_ne_nil _ _) (fun _ => rfl) (if_neg hinside) ?_
    (by simp) hskips
  rintro hend d ⟨⟩
  rw [bne_eq_false_iff_eq.mp hend]
  decide

theorem unspaced (hsome : ahead ≠ []) (hrest : ∀ behind, Unspaced multiline (ahead ++ behind)) :
    Skips multiline false reader ahead :=
  .stopped [] ahead rfl hsome (fun behind => skip_unspaced (hrest behind)) (by simp) (by simp)

end Skips

theorem getLast?_ne_of_append {front rest : List Char} {c : Char}
    (hlast : (front ++ rest).getLast? ≠ some c) : rest.getLast? ≠ some c := by
  by_cases hnone : rest = []
  · simp [hnone]
  · rwa [List.getLast?_append_of_ne_nil _ hnone] at hlast

theorem mode_past_comment {reader : Reader} (hmode : reader.mode = .comment) (c : Char) :
    (reader.past [c]).mode = if c != '\n' then .comment else .plain := by
  show reader.mode.next c = _
  rw [hmode, Mode.next]
  by_cases hnewline : c = '\n' <;> simp [hnewline]

/-- By induction on how much stands before the seam, since a backslash and a newline are a
blank together. -/
theorem skips {multiline flag : Bool} {reader : Reader}
    (hmode : reader.mode = if flag then .comment else .plain)
    (hflag : flag = true → multiline = true) (hlast : ahead.getLast? ≠ some '\\') :
    Skips multiline flag reader ahead := by
  induction hlength : ahead.length using Nat.strong_induction_on generalizing ahead flag reader with
  | _ length ih =>
  have hrest {unit rest : List Char} (hsplit : ahead = unit ++ rest) (hsome : unit ≠ [])
      {next : Bool} (hnext : (reader.past unit).mode = if next then .comment else .plain)
      (hcomments : next = true → multiline = true) :
      Skips multiline next (reader.past unit) rest := by
    rw [hsplit] at hlast hlength
    refine ih rest.length ?_ hnext hcomments (getLast?_ne_of_append hlast) rfl
    have hpositive := List.length_pos_iff.mpr hsome
    rw [List.length_append] at hlength
    omega
  cases ahead with
  | nil => exact .nil hmode
  | cons c rest =>
  cases flag with
  | true =>
      obtain rfl := hflag rfl
      exact .commentChar hmode
        (hrest rfl (List.cons_ne_nil _ _) (mode_past_comment hmode c) fun _ => rfl)
  | false =>
      by_cases hblank : isBlankChar multiline c = true
      · have hnext := (step_of_neutral hmode (isNeutral_of_blank hblank).1).1
        exact .blank hmode hblank (hrest rfl (List.cons_ne_nil _ _) hnext (by simp))
      by_cases hcontinued : ∃ behind, c :: rest = ['\\', '\n'] ++ behind
      · obtain ⟨behind, hsplit⟩ := hcontinued
        cases hsplit
        have hnext := (past_continued hmode).1
        exact .continued hmode (hrest rfl (List.cons_ne_nil _ _) hnext (by simp))
      by_cases hcomment : multiline = true ∧ c = '#'
      · obtain ⟨rfl, rfl⟩ := hcomment
        refine .comment hmode (hrest rfl (List.cons_ne_nil _ _) ?_ fun _ => rfl)
        show reader.mode.next '#' = _
        rw [hmode]
        rfl
      · refine .unspaced (List.cons_ne_nil _ _) fun behind => ⟨?_, ?_, ?_⟩
        · rintro d ⟨⟩
          exact Bool.eq_false_iff.mpr hblank
        · rintro ⟨behind', hprefix⟩
          cases rest with
          | nil =>
              cases hprefix
              exact hlast rfl
          | cons d rest =>
              cases hprefix
              exact hcontinued ⟨rest, rfl⟩
        · rintro hmultiline d ⟨⟩ rfl
          exact hcomment ⟨hmultiline, rfl⟩

/-- What stands before the seam ends without a backslash. At the end of a comment, blanks go on
as after it. -/
theorem skips_ahead (hclear : Clear seam.edit.text setting.opened place)
    (hfront : seam.front = passed ++ ahead) (hplace : place.offset = passed.length)
    (hahead : ahead ≠ []) :
    Skips setting.multiline false (Reader.start.past passed) ahead := by
  have hlast : ahead.getLast? ≠ some '\\' := by
    have hend := seam.apart.continuation
    rw [hfront] at hend
    exact getLast?_ne_of_append hend
  rcases (Seam.reader_before hclear hfront hplace).2 with hplain | ⟨hcomment, hnewline⟩
  · exact skips hplain (by simp) hlast
  obtain ⟨c, behind, rfl⟩ := List.exists_cons_of_ne_nil hahead
  obtain rfl := hnewline c rfl
  by_cases hmultiline : setting.multiline = true
  · rw [← List.singleton_append] at hlast
    have hbehind : Skips setting.multiline false ((Reader.start.past passed).past ['\n']) behind :=
      skips (mode_past_comment hcomment '\n') (by simp) (getLast?_ne_of_append hlast)
    have hinside : (Reader.start.past passed).mode ≠ .plain := by
      rw [hcomment]
      decide
    refine .append ['\n'] false (List.cons_ne_nil _ _)
      (fun _ => skip_blank (by rw [hmultiline]; rfl) _) (if_neg hinside) ?_ ?_ hbehind
    · rintro - d ⟨⟩
      decide
    · exact fun hline => absurd (hline.symm.trans hmultiline) Bool.false_ne_true
  · rw [Bool.not_eq_true] at hmultiline
    refine .stopped [] _ rfl hahead (fun _ => ?_) (by simp) (by simp)
    rw [hmultiline]
    rfl

/-- From a clear position before the seam, blanks stop before the seam, or they go over all that
stands there and over the gap. -/
theorem skips_before (hclear : Clear seam.edit.text setting.opened place)
    (hfront : seam.front = passed ++ ahead) (hplace : place.offset = passed.length)
    (hahead : ahead ≠ []) :
    (∃ run stop, ahead = run ++ stop ∧ stop ≠ [] ∧
      (∀ behind, skip setting.multiline false (ahead ++ behind) = stop ++ behind) ∧
      ∀ c ∈ run.getLast?, isNameChar c = false ∧ c ≠ '.') ∨
    ((∀ behind, skip setting.multiline false (ahead ++ behind) =
      skip setting.multiline false behind) ∧
      skip setting.multiline false (seam.gap ++ seam.back) =
        skip setting.multiline false seam.back) := by
  have hfold : (Reader.start.past passed).past ahead = Reader.start.past seam.front := by
    rw [hfront]
    exact List.foldl_append.symm
  cases skips_ahead hclear hfront hplace hahead with
  | stopped run stop hsplit hstop hskip hend =>
      exact .inl ⟨run, stop, hsplit, hstop, hskip, hend⟩
  | through hskip hend hsame hcontinued =>
      refine .inr ⟨hskip, ?_⟩
      have hopened : openBrackets seam.front = setting.opened := by
        rw [openBrackets, ← hfold, hsame, (Seam.reader_before hclear hfront hplace).1]
      rcases seam.kind with ⟨hsome, -, c, hgap, hblank⟩ | hline
      · have hmultiline := Setting.multiline_iff.mpr (hopened ▸ hsome)
        rw [hgap, hmultiline]
        exact skip_blank hblank _
      · have hclosed : setting.multiline = false := by
          rw [Setting.multiline, ← hopened, hline.closed]
          rfl
        have hnewline := hline.newline
        rw [hfront, List.getLast?_append_of_ne_nil _ hahead] at hnewline
        obtain ⟨before, rfl, hplain⟩ := hcontinued hclosed hnewline
        refine absurd ?_ (hline.ended (passed ++ before) (by rw [hfront, List.append_assoc]))
        rw [Reader.past, List.foldl_append]
        exact hplain
  | commented hcomment =>
      rw [hfold, seam.plain] at hcomment
      cases hcomment

/-- The runs that blanks go over in both texts decide where they end. -/
theorem spaces_land_of_runs {rest otherRest run otherRun : List Char}
    (hlevel : Level setting.multiline setting.depth scope)
    (hotherLevel : Level setting.multiline setting.depth otherScope)
    (hsees : place.Sees seam.edit.text rest) (hsecond : other.Sees seam.edit.edited otherRest)
    (hrun : rest = run ++ skip setting.multiline false rest)
    (hotherRun : otherRest = otherRun ++ skip setting.multiline false otherRest)
    (hfree : seam.Free (place.past run) (other.past otherRun))
    (hfresh : Fresh seam place → Fresh seam (place.past run)) :
    seam.edit.Follows
      (Lands (fun here there => seam.Free here there ∧ (Fresh seam place → Fresh seam here))
        fun _ _ => True)
      ((named "SPACES").run steps scope place)
      ((named "SPACES").run more otherScope other) := by
  obtain ⟨taken, took, htook, hfirst⟩ :=
    spaces_match hlevel.ready (fun _ => seam.text_fits) hsees
  obtain ⟨otherTaken, otherTook, hotherTook, hother⟩ :=
    spaces_match hotherLevel.ready (fun _ => seam.edited_fits) hsecond
  obtain rfl := List.append_cancel_right (htook.symm.trans hrun)
  obtain rfl := List.append_cancel_right (hotherTook.symm.trans hotherRun)
  exact Edit.of_matches hfirst hother ⟨trivial, hfree, hfresh⟩ steps more

theorem le_offset_past (run : List Char) (hplace : seam.front.length ≤ place.offset) :
    seam.front.length ≤ (place.past run).offset := by
  rw [Position.offset_past]
  exact hplace.trans (Nat.le_add_right _ _)

/-- Blanks are taken up to the same character, and with them the gap if they lead up to it. -/
theorem spaces_land (hspot : Spot seam setting (seam.Faces (setting.multiline = true)) scope place
      otherScope other) :
    seam.edit.Follows
      (Lands (fun here there => seam.Free here there ∧ (Fresh seam place → Fresh seam here))
        fun _ _ => True)
      ((named "SPACES").run steps scope place)
      ((named "SPACES").run more otherScope other) := by
  obtain ⟨hlevel, hotherLevel, hclear, hfaces⟩ := hspot
  have hbehind {here : Position} {rest : List Char} (hsees : here.Sees seam.edit.text rest) :
      ∃ run, rest = run ++ skip setting.multiline false rest := by
    obtain ⟨-, run, hrun, -⟩ := spaces_match hlevel.ready (fun _ => seam.text_fits) hsees
    exact ⟨run, hrun⟩
  cases hfaces with
  | before hfront hahead hplace hother =>
      rename_i passed ahead
      subst hother
      obtain ⟨hsees, hsecond⟩ := Seam.sees_before hfront hplace
      rcases skips_before hclear hfront hplace hahead with
        ⟨run, stop, rfl, hstop, hskip, hlast⟩ | ⟨hskip, hsame⟩
      · refine spaces_land_of_runs hlevel hotherLevel hsees hsecond ?_ ?_
          (.past_before hfront hplace fun hnone => absurd hnone hstop) fun hfresh => ?_
        · rw [hskip, List.append_assoc]
        · rw [hskip, List.append_assoc]
        · by_cases hnone : run = []
          · subst hnone
            exact hfresh
          · exact fresh_past hfront hplace hnone hlast
      · -- All that stands before the seam is blank, and so is the gap.
        obtain ⟨run, hrun⟩ := hbehind hsees.past
        have hfirst : ahead ++ seam.back =
            (ahead ++ run) ++ skip setting.multiline false (ahead ++ seam.back) := by
          rw [hskip, List.append_assoc, ← hrun]
        have hgap : ahead ++ (seam.gap ++ seam.back) = (ahead ++ (seam.gap ++ run)) ++
            skip setting.multiline false (ahead ++ (seam.gap ++ seam.back)) := by
          rw [hskip, hsame, List.append_assoc, List.append_assoc, ← hrun]
        refine spaces_land_of_runs hlevel hotherLevel hsees hsecond hfirst hgap (.after hrun ?_ ?_)
          fun _ => fresh_of_le ?_
        all_goals
          rw [hfront]
          simp only [Position.offset_past, hplace, List.length_append]
          omega
  | within hreason hplace hother =>
      subst hother
      obtain ⟨hsees, hsecond⟩ := Seam.sees_within hplace
      obtain ⟨-, -, c, hgap, hblank⟩ :=
        Seam.enclosed hclear hplace (Setting.multiline_iff.mp hreason)
      obtain ⟨run, hrun⟩ := hbehind hsees
      refine spaces_land_of_runs hlevel hotherLevel hsees hsecond hrun ?_
        (.past_within hrun hplace) fun _ => fresh_of_le (le_offset_past run hplace.ge)
      rw [hreason] at hrun ⊢
      rw [hgap, List.singleton_append, skip_blank hblank, List.append_assoc, ← hrun]
      rfl
  | after hback hplace hother =>
      rename_i passed rest
      obtain ⟨hsees, hsecond⟩ := Seam.sees_after hback hplace hother
      obtain ⟨run, hrun⟩ := hbehind hsees
      rw [hrun] at hback
      exact spaces_land_of_runs hlevel hotherLevel hsees hsecond hrun hrun
        (.past_after hback hplace hother) fun _ => fresh_of_le (le_offset_past run (by omega))

end ScopedGrammar.Croco
