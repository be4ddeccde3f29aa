/-
# The parts of a line

A line is matched in a scope that names the depth of its block. Its indentation takes that
many spaces and no more may follow, its text takes all characters up to a colon or the end of
the line, and a block is matched in a scope that names the next depth. What the parts take is
told in both directions: what a match has taken, and what is matched where it stands.
-/

import ScopedGrammar.Proofs.Match.Copying
import ScopedGrammar.Proofs.Outline.Items
import ScopedGrammar.Proofs.Scope.Counters

namespace ScopedGrammar.Outline

open Pattern

variable {text : String} {scope : Scope} {place : Position} {success : Match} {depth : Nat}
  {run rest after : List Char}

/-- The rule for a run of lines at one depth. -/
def lines : Pattern :=
  (named "LINE").atLeast 1

/-- What the scope of a block at a depth has to name. -/
structure Level (scope : Scope) (depth : Nat) : Prop where
  line : scope.rule? "LINE" = some (Outline.line.labelled "LINE")
  block : scope.rule? "BLOCK" = some (lines.labelled "BLOCK")
  indent : ∃ word : Int64, scope.find? "indent" = some (.value (.int word)) ∧ word.toInt = depth

theorem level_start : Level grammar.scope 0 where
  line := rfl
  block := rfl
  indent := ⟨0, rfl, rfl⟩

/-- The bindings of a deeper block. -/
def deeper : List (String × Term) :=
  [("indent", .sum "indent" (.const (.int 1)))]

theorem deeper_eq : deeper = nextCount "indent" :=
  rfl

namespace Level

theorem counts (hlevel : Level scope depth) : scope.Counts "indent" depth :=
  hlevel.indent

theorem bounds (hlevel : Level scope depth) :
    Match.resolveBounds scope (.name "indent") (some (.name "indent")) =
      .ok (depth, some depth) :=
  hlevel.counts.resolveBounds

/-- Within a deeper block, the depth is one more. -/
theorem push (hlevel : Level scope depth) {next : Value}
    (hnext : Value.ofInt? (depth + 1) = some next) :
    Level (scope.push [("indent", .value next)]) (depth + 1) := by
  refine ⟨?_, ?_, Scope.Counts.push_next hnext⟩
  · exact (scope.rule?_bind_of_ne _ (by decide)).trans hlevel.line
  · exact (scope.rule?_bind_of_ne _ (by decide)).trans hlevel.block

end Level

theorem inClass_space_iff {c : Char} : inClass " ".toList false c = true ↔ c = ' ' := by
  simp [inClass]

/-- Whether the next character, if there is one, is no space. -/
def Unspaced (after : List Char) : Prop :=
  ∀ c ∈ after.head?, c ≠ ' '

/-- What an indentation is taken to be tells the line that it is on. -/
theorem line?_indentation (place : Position) (depth : Nat) :
    (Value.list [.list (charTokens place (spaces depth)),
      .token (Token.nothingAt (place.past (spaces depth)))]).line? = some place.line := by
  cases depth with
  | zero =>
      simp [Value.line?, Value.lineOfList?, spaces, charTokens, Token.nothingAt, Position.past]
  | succ depth => simp [Value.line?, Value.lineOfList?, spaces, charTokens, List.replicate_succ]

theorem indentation_sound (hlevel : Level scope depth) (hsees : place.Sees text rest)
    (hmatches : indentation.Matches text scope place success) :
    ∃ after value, rest = spaces depth ++ after ∧ Unspaced after ∧
      value.line? = some place.line ∧
      success = ⟨value, place.past (spaces depth), scope⟩ := by
  obtain ⟨values, value, stop, inner, hrow, hpicked, rfl⟩ := row_of_matches rfl hmatches
  obtain ⟨first, others, hfirst, hlast, rfl⟩ := rowMatches_cons_iff.mp hrow
  obtain ⟨final, hfinal, rfl⟩ := rowMatches_singleton_iff.mp hlast
  obtain ⟨run, after, rfl, hrun, hlength, rfl⟩ := times_split hsees hlevel.bounds hfirst
  obtain rfl : run = spaces depth := List.eq_replicate_iff.mpr
    ⟨hlength, fun c hc => inClass_space_iff.mp (hrun c hc)⟩
  obtain ⟨hmisses, hsuccess⟩ := Form.matches_absence_zero_iff.mp
    (matches_ofForm_iff.mp (matches_demand_iff.mp hfinal))
  dsimp only at hsuccess
  cases hsuccess
  cases hpicked
  refine ⟨after, _, rfl, ?_, line?_indentation place depth, rfl⟩
  rintro c hc rfl
  obtain ⟨further, rfl⟩ : ∃ further, after = ' ' :: further := List.head?_eq_some_iff.mp hc
  obtain ⟨_, -, hspace⟩ := copiesAt_class hsees.past (inClass_space_iff.mpr rfl)
  exact hspace.not_misses hmisses

theorem indentation_complete (hlevel : Level scope depth)
    (hsees : place.Sees text (spaces depth ++ after)) (hafter : Unspaced after) :
    ∃ value : Value, value.line? = some place.line ∧
      indentation.Matches text scope place ⟨value, place.past (spaces depth), scope⟩ := by
  have hfirst : ((oneOf " ").times (.name "indent")).Matches text scope place
      ⟨.list (charTokens place (spaces depth)), place.past (spaces depth), scope⟩ :=
    times_matches hsees hlevel.bounds
      (fun c hc => inClass_space_iff.mpr (List.eq_of_mem_replicate hc)) List.length_replicate
  have hmisses : (oneOf " ").Misses text scope (place.past (spaces depth)) :=
    class_misses hsees.past fun c hc =>
      Bool.eq_false_iff.mpr (mt inClass_space_iff.mp (hafter c hc))
  exact ⟨_, line?_indentation place depth, matches_of_row rfl
    (.cons hfirst (.single (matches_demand_iff.mpr (notAhead_matches hmisses)))) rfl⟩

/-- Where fewer spaces come next, no line of the block does. -/
theorem indentation_misses (hlevel : Level scope depth) (hsees : place.Sees text rest)
    (hfew : (rest.takeWhile (inClass " ".toList false)).length < depth) :
    indentation.Misses text scope place := by
  refine misses_of_row rfl (rowMisses_of_first ?_)
  exact run_misses hsees hlevel.bounds (Nat.lt_of_le_of_lt (List.length_take_le' _ _) hfew)

theorem inClass_inner_iff {c : Char} :
    inClass ":\n".toList true c = true ↔ c ≠ ':' ∧ c ≠ '\n' := by
  simp [inClass]

/-- Whether the text of a line ends before the next character, if there is one. -/
def EndsText (after : List Char) : Prop :=
  ∀ c ∈ after.head?, ¬ (c ≠ ':' ∧ c ≠ '\n')

theorem spelling_charTokens_eq (place : Position) (run : List Char) :
    (Value.list (charTokens place run)).spelling = String.ofList run := by
  rw [← String.toList_inj, spelling_charTokens, String.toList_ofList]

theorem lineText_finishValue (raw : Value) : lineText.finishValue raw = .text raw.spelling :=
  rfl

theorem lineText_sound (hsees : place.Sees text rest)
    (hmatches : lineText.Matches text scope place success) :
    ∃ run after, rest = run ++ after ∧ run ≠ [] ∧ (∀ c ∈ run, c ≠ ':' ∧ c ≠ '\n') ∧
      EndsText after ∧ success = ⟨.text (String.ofList run), place.past run, scope⟩ := by
  obtain ⟨raw, hraw, rfl⟩ := matches_iff.mp hmatches
  obtain ⟨run, after, rfl, hrun, hafter, hlength, rfl⟩ := run_split hsees
    (Match.resolveBounds_none (by decide)) (matches_ofForm_iff.mpr hraw)
  refine ⟨run, after, rfl, List.length_pos_iff.mp hlength,
    fun c hc => inClass_inner_iff.mp (hrun c hc), ?_, ?_⟩
  · exact fun c hc => mt inClass_inner_iff.mpr (Bool.eq_false_iff.mp (hafter c hc))
  · rw [lineText_finishValue, spelling_charTokens_eq]

theorem lineText_complete (hsees : place.Sees text (run ++ after)) (hrun : run ≠ [])
    (hinner : ∀ c ∈ run, c ≠ ':' ∧ c ≠ '\n') (hafter : EndsText after) :
    lineText.Matches text scope place ⟨.text (String.ofList run), place.past run, scope⟩ := by
  have hmatches : ((noneOf ":\n").atLeast 1).Matches text scope place
      ⟨.list (charTokens place run), place.past run, scope⟩ :=
    run_matches hsees (Match.resolveBounds_none (by decide))
      (fun c hc => inClass_inner_iff.mpr (hinner c hc))
      (fun c hc => Bool.eq_false_iff.mpr (mt inClass_inner_iff.mp (hafter c hc)))
      (List.length_pos_iff.mpr hrun)
  refine matches_iff.mpr ⟨_, matches_ofForm_iff.mp hmatches, ?_⟩
  rw [lineText_finishValue, spelling_charTokens_eq]

theorem lineText_misses (hsees : place.Sees text []) : lineText.Misses text scope place := by
  have hmisses : ((noneOf ":\n").atLeast 1).Misses text scope place :=
    run_misses hsees (Match.resolveBounds_none (by decide)) Nat.one_pos
  have hform := misses_iff.mp hmisses
  exact misses_of_form hform

end ScopedGrammar.Outline
