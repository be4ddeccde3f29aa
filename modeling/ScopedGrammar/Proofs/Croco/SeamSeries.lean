/-
# Repetitions at a seam

The rounds of a repetition are made side by side, from spots that correspond to such spots. At
the seam there may be no further round on either side. Between brackets, the second match may
also be lost there: blanks stand where the first match goes on with a postfix operation, and
once they are taken, nothing but that operation comes next, which nobody asks for any more. From
there on, the second match takes nothing until a closing bracket is demanded.
-/

import ScopedGrammar.Proofs.Croco.Seams

namespace ScopedGrammar.Croco

open Pattern

variable {seam : Seam} {setting : Setting} {scope otherScope : Scope} {place other : Position}
  {granted steps more : Nat} {pattern part : Pattern} {separator : Option Pattern}

/-- Two repetitions under way have parts that correspond, and are at spots that do. Where these
may be depends on how many parts there are. -/
structure Tallied (seam : Seam) (setting : Setting) (faces : Nat → Position → Position → Prop)
    (values : Value → Value → Prop) (tally other : Match.Tally) : Prop where
  parts : List.Forall₂ values tally.parts.toList other.parts.toList
  spot : Spot seam setting (faces tally.parts.size) tally.scope tally.position other.scope
    other.position

/-- The rows of a round lead to values and spots that correspond, or the second match is lost. -/
def RoundArrives (seam : Seam) (setting : Setting) (ends : Position → Position → Prop)
    (values : Value → Value → Prop) (lost : Scope → Position → Prop)
    (row other : List Value × Position × Scope) : Prop :=
  (values (final row.1) (final other.1) ∧
      Spot seam setting ends row.2.2 row.2.1 other.2.2 other.2.1) ∨ lost other.2.2 other.2.1

/-- The matches of a pattern lead to values and spots that correspond, or the second match is
lost. -/
def Reaches (seam : Seam) (setting : Setting) (ends : Position → Position → Prop)
    (values : Value → Value → Prop) (lost : Scope → Position → Prop) (success other : Match) :
    Prop :=
  Arrives seam setting ends values success other ∨ lost other.scope other.position

/-- Two values are lists whose members correspond. -/
def Listed (values : Value → Value → Prop) (first second : Value) : Prop :=
  ∃ members others, first = .list members ∧ second = .list others ∧
    List.Forall₂ values members others

theorem Listed.alike {first second : Value} (hlisted : Listed Value.Alike first second) :
    first.Alike second := by
  obtain ⟨members, others, rfl, rfl, hmembers⟩ := hlisted
  exact .list hmembers

section Rounds

variable {faces : Nat → Position → Position → Prop} {lost : Scope → Position → Prop}
  {values : Value → Value → Prop} {tally otherTally : Match.Tally}

theorem Tallied.size_eq (htallied : Tallied seam setting faces values tally otherTally) :
    tally.parts.size = otherTally.parts.size := by
  rw [← Array.length_toList, ← Array.length_toList]
  exact htallied.parts.length_eq

/-- How a round goes from a spot: on to a further spot, or not at all, or the second match is lost
at the spot already. -/
inductive RoundGoes (seam : Seam) (setting : Setting) (granted : Nat) (row : List Pattern)
    (ends : Position → Position → Prop) (values : Value → Value → Prop)
    (lost : Scope → Position → Prop) (scope : Scope) (place : Position) (otherScope : Scope)
    (other : Position) : Prop
  | on (hfree : seam.Free place other)
      (hrow : ∀ steps < granted, ∀ more, seam.edit.Follows
        (RoundArrives seam setting ends values lost)
        (Match.allOf (Pattern.run steps) row scope place)
        (Match.allOf (Pattern.run more) row otherScope other))
  | closed (hrow : ∀ steps < granted, ∀ more, seam.edit.Follows (fun _ _ => False)
        (Match.allOf (Pattern.run steps) row scope place)
        (Match.allOf (Pattern.run more) row otherScope other))
  | lost (hlost : lost otherScope other) (hmisses : RowMisses seam.edit.edited row otherScope other)

/-- What one more round leads to. -/
theorem Tallied.withRow {row otherRow : List Value × Position × Scope}
    (htallied : Tallied seam setting faces values tally otherTally)
    (hvalues : values (final row.1) (final otherRow.1))
    (hspot : Spot seam setting (faces (tally.parts.size + 1)) row.2.2 row.2.1 otherRow.2.2
      otherRow.2.1) :
    Tallied seam setting faces values (tally.withRow row) (otherTally.withRow otherRow) := by
  constructor
  · rw [Match.Tally.withRow, Match.Tally.withRow, Array.toList_push, Array.toList_push]
    exact List.rel_append htallied.parts (.cons hvalues .nil)
  · have hsize : (tally.withRow row).parts.size = tally.parts.size + 1 := Array.size_push _
    rw [hsize]
    exact hspot

/-- The matches of a repetition are made round by round. -/
theorem follows_series {low : Nat} {most : Option Nat} {lower : Term} {upper : Option Term}
    (faces : Nat → Position → Position → Prop) (values : Value → Value → Prop)
    (lost : Scope → Position → Prop)
    (hform : pattern.form = .repetition part lower upper separator false)
    (hfinish : ∀ raw, pattern.finishValue raw = raw)
    (hbounds : ∀ scope, Level setting.multiline setting.depth scope →
      Match.resolveBounds scope lower upper = .ok (low, most))
    (hfaces : ∀ count here there, faces count here there → ∃ edge, seam.Faces edge here there)
    (hround : ∀ count {scope place otherScope other}, ¬ FullAt most count →
      Spot seam setting (faces count) scope place otherScope other →
      RoundGoes seam setting granted (dueAfter separator count ++ [part]) (faces (count + 1))
        values lost scope place otherScope other)
    (hlost : ∀ scope place count, lost scope place →
      RowMisses seam.edit.edited (dueAfter separator (count + 1) ++ [part]) scope place)
    (hlow : low = 0 ∨ ∀ scope place, ¬ lost scope place)
    (hspot : Spot seam setting (faces 0) scope place otherScope other)
    (hsteps : steps ≤ granted) (more : Nat) :
    seam.edit.Follows (Reaches seam setting (fun here there => ∃ count, faces count here there)
        (Listed values) lost) (pattern.run steps scope place)
      (pattern.run more otherScope other) := by
  refine Edit.follows_repetition (fun tally otherTally =>
      Tallied seam setting faces values tally otherTally ∨
        lost otherTally.scope otherTally.position)
    hform (hbounds _ hspot.level) (hbounds _ hspot.otherLevel) ?_ ?_ ?_
  · intro fewer hfewer more
    refine Edit.follows_rounds (Tallied seam setting faces values)
      (fun otherTally => lost otherTally.scope otherTally.position ∧
        Edit.Stays seam.edit.edited part separator most otherTally) ?_
      (fun _ _ => Or.imp_right And.left) (fun _ => And.right) fewer more ⟨.nil, hspot⟩
    intro tally otherTally htallied
    have hsame : tally.isFull most = otherTally.isFull most := by
      rw [Match.Tally.isFull.eq_def, htallied.size_eq, Match.Tally.isFull.eq_def]
    by_cases hfull : tally.isFull most = true
    · exact .both hsame fun hopen => absurd (hfull.symm.trans hopen) Bool.noConfusion
    cases hround tally.parts.size (mt Match.Tally.isFull_iff.mpr hfull) htallied.spot with
    | on hfree hrow =>
        refine .both hsame fun _ => Edit.follows_round (.inl htallied.size_eq) ?_
        have hforward := (hrow fewer (hfewer.trans_le hsteps) more).promised_other
          (fun row => otherTally.position.offset ≤ row.2.1.offset)
          fun row after hending =>
            (Match.derives_of_allOf (derives_of_run more) hending).leads.offset_le
        refine hforward.mono fun row otherRow ⟨harrives, hle⟩ => harrives.imp ?_ ?_
        · rintro ⟨hvalues, hnext⟩
          obtain ⟨edge, hlater⟩ := hfaces _ _ _ hnext.faces
          exact ⟨htallied.withRow hvalues hnext, hfree.samePlace hlater hle⟩
        · intro hstrayed
          refine ⟨hstrayed, .inr ?_⟩
          rw [Match.Tally.withRow, Array.size_push]
          exact hlost _ _ _ hstrayed
    | closed hrow =>
        exact .both hsame fun _ => Edit.follows_round (.inl htallied.size_eq)
          ((hrow fewer (hfewer.trans_le hsteps) more).mono fun _ _ => False.elim)
    | lost hstrayed hmisses =>
        rw [htallied.size_eq] at hmisses
        exact .strayed ⟨hstrayed, .inr hmisses⟩
  · rintro tally otherTally (htallied | hstrayed)
    · rw [htallied.size_eq]
    · rcases hlow with rfl | hnever
      · exact iff_of_false (Nat.not_lt_zero _) (Nat.not_lt_zero _)
      · exact absurd hstrayed (hnever _ _)
  · rintro tally otherTally (htallied | hstrayed)
    · rw [hfinish, hfinish]
      obtain ⟨hlevel, hotherLevel, hclear, hends⟩ := htallied.spot
      exact .inl ⟨⟨_, _, rfl, rfl, htallied.parts⟩, hlevel, hotherLevel, hclear, _, hends⟩
    · exact .inr hstrayed

/-- Where the second match is lost already, it makes no round at all. -/
theorem follows_series_lost {most : Option Nat} {lower : Term} {upper : Option Term}
    (hform : pattern.form = .repetition part lower upper separator false)
    (hbounds : ∀ scope, Match.resolveBounds scope lower upper = .ok (0, most))
    (hmisses : part.Misses seam.edit.edited otherScope other) (steps more : Nat) :
    seam.edit.Follows (fun _ success => success.scope = otherScope ∧ success.position = other)
      (pattern.run steps scope place) (pattern.run more otherScope other) := by
  refine Edit.follows_repetition
    (fun _ otherTally => otherTally.scope = otherScope ∧ otherTally.position = other)
    hform (hbounds scope) (hbounds otherScope)
    (fun fewer _ more => ?_) (fun _ _ _ => ?_) fun _ _ hends => hends
  · exact Edit.follows_stays (.inr (rowMisses_first_iff.mpr hmisses)) (fun _ => ⟨rfl, rfl⟩)
      fewer more
  · exact iff_of_false (Nat.not_lt_zero _) (Nat.not_lt_zero _)

end Rounds

end ScopedGrammar.Croco
