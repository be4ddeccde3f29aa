/-
# Patterns that copy

Patterns without factories and picks copy: the value of a match spells exactly the characters
that the match passed over. So do patterns whose factories turn what was spelled into a text.
Two judgements serve to read such patterns. `Copies` says of every match what kind of run it
takes, and `CopiesAt` says of one run at one place that it is what a match takes. Both
compose along sequences and options, where the kinds of run are concatenated.
-/

import Mathlib.Tactic.IntervalCases
import ScopedGrammar.Proofs.Match.Repetition

namespace ScopedGrammar

variable {text : String} {scope : Scope} {place : Position} {kind : List Char → Prop}
  {run rest after : List Char} {pattern : Pattern} {parts : List Pattern}

namespace Pattern

/-- Every match takes a run of some kind, spells it, and leaves the scope as it was. -/
def Copies (text : String) (scope : Scope) (pattern : Pattern) (kind : List Char → Prop) :
    Prop :=
  ∀ (place : Position) (rest : List Char) (success : Match), place.Sees text rest →
    pattern.Matches text scope place success →
    ∃ run after value, rest = run ++ after ∧ kind run ∧ value.spelling.toList = run ∧
      success = ⟨value, place.past run, scope⟩

/-- At a place, a match takes a run, spells it, and leaves the scope as it was. -/
def CopiesAt (text : String) (scope : Scope) (pattern : Pattern) (place : Position)
    (run : List Char) : Prop :=
  ∃ value : Value, value.spelling.toList = run ∧
    pattern.Matches text scope place ⟨value, place.past run, scope⟩

end Pattern

/-- Every match of a row takes a run of some kind, spells it, and leaves the scope. -/
def RowCopies (text : String) (scope : Scope) (parts : List Pattern)
    (kind : List Char → Prop) : Prop :=
  ∀ (place : Position) (rest : List Char) (values : List Value) (stop : Position)
    (inner : Scope), place.Sees text rest →
    RowMatches text parts scope place values stop inner →
    ∃ run after, rest = run ++ after ∧ kind run ∧
      (Value.list values).spelling.toList = run ∧ stop = place.past run ∧ inner = scope

/-- At a place, a row takes a run, spells it, and leaves the scope as it was. -/
def RowCopiesAt (text : String) (scope : Scope) (parts : List Pattern) (place : Position)
    (run : List Char) : Prop :=
  ∃ values : List Value, (Value.list values).spelling.toList = run ∧
    RowMatches text parts scope place values (place.past run) scope

namespace RowCopies

theorem nil : RowCopies text scope [] (· = []) := by
  intro place rest values stop inner hsees hrow
  obtain ⟨rfl, rfl, rfl⟩ := rowMatches_nil_iff.mp hrow
  exact ⟨[], rest, rfl, rfl, Value.toList_spelling_list [], rfl, rfl⟩

theorem cons {further : List Char → Prop} (hfirst : pattern.Copies text scope kind)
    (hrest : RowCopies text scope parts further) :
    RowCopies text scope (pattern :: parts) fun run =>
      ∃ front back, run = front ++ back ∧ kind front ∧ further back := by
  intro place rest values stop inner hsees hrow
  obtain ⟨success, others, hpart, hothers, rfl⟩ := rowMatches_cons_iff.mp hrow
  obtain ⟨front, after, value, rfl, hfront, hvalue, rfl⟩ := hfirst _ _ _ hsees hpart
  obtain ⟨back, last, rfl, hback, hvalues, rfl, rfl⟩ := hrest _ _ _ _ _ hsees.past hothers
  refine ⟨front ++ back, last, (List.append_assoc _ _ _).symm, ⟨front, back, rfl, hfront,
    hback⟩, ?_, (Position.past_append _ _ _).symm, rfl⟩
  rw [Value.toList_spelling_list] at hvalues ⊢
  rw [List.flatMap_cons, hvalue, hvalues]

end RowCopies

namespace RowCopiesAt

theorem nil : RowCopiesAt text scope [] place [] :=
  ⟨[], Value.toList_spelling_list [], rowMatches_nil_iff.mpr ⟨rfl, rfl, rfl⟩⟩

theorem cons {back : List Char} (hfirst : pattern.CopiesAt text scope place run)
    (hrest : RowCopiesAt text scope parts (place.past run) back) :
    RowCopiesAt text scope (pattern :: parts) place (run ++ back) := by
  obtain ⟨value, hvalue, hmatched⟩ := hfirst
  obtain ⟨values, hvalues, hrow⟩ := hrest
  refine ⟨value :: values, ?_, rowMatches_cons_iff.mpr ⟨_, values, hmatched, ?_, rfl⟩⟩
  · rw [Value.toList_spelling_list] at hvalues ⊢
    rw [List.flatMap_cons, hvalue, hvalues]
  · rwa [Position.past_append]

end RowCopiesAt

namespace Pattern

theorem Copies.mono {wider : List Char → Prop} (hcopies : pattern.Copies text scope kind)
    (hwider : ∀ run, kind run → wider run) : pattern.Copies text scope wider := by
  intro place rest success hsees hmatches
  obtain ⟨run, after, value, hrest, hkind, hvalue⟩ := hcopies _ _ _ hsees hmatches
  exact ⟨run, after, value, hrest, hwider run hkind, hvalue⟩

theorem copies_sequence (hrow : RowCopies text scope parts kind) :
    (sequence parts).Copies text scope kind := by
  intro place rest success hsees hmatches
  obtain ⟨values, hvalues, hpicked⟩ :=
    Form.matches_sequence_iff.mp (matches_ofForm_iff.mp hmatches)
  obtain ⟨run, after, hrest, hkind, hspelled, hstop, hinner⟩ := hrow _ _ _ _ _ hsees hvalues
  obtain ⟨value, stop, inner⟩ := success
  cases hpicked
  cases hstop
  cases hinner
  exact ⟨run, after, _, hrest, hkind, hspelled, rfl⟩

theorem copiesAt_sequence (hrow : RowCopiesAt text scope parts place run) :
    (sequence parts).CopiesAt text scope place run := by
  obtain ⟨values, hspelled, hvalues⟩ := hrow
  refine ⟨_, hspelled, matches_ofForm_iff.mpr (Form.matches_sequence_iff.mpr ?_)⟩
  exact ⟨values, hvalues, rfl⟩

theorem sequence_misses (hrow : RowMisses text parts scope place) :
    (sequence parts).Misses text scope place :=
  misses_of_form (Form.sequence_misses hrow)

/-- An optional pattern takes what the pattern takes, or nothing. -/
theorem copies_optional (hpattern : pattern.Copies text scope kind) (hnothing : kind []) :
    pattern.optional.Copies text scope kind := by
  intro place rest success hsees hmatches
  rcases matches_optional_iff.mp hmatches with ⟨inner, hinner, rfl⟩ | ⟨-, rfl⟩
  · obtain ⟨run, after, value, hrest, hkind, hvalue, rfl⟩ := hpattern _ _ _ hsees hinner
    refine ⟨run, after, _, hrest, hkind, ?_, rfl⟩
    rw [Value.toList_spelling_list, List.flatMap_singleton, hvalue]
  · exact ⟨[], rest, _, rfl, hnothing, Value.toList_spelling_list [], rfl⟩

theorem copiesAt_optional (hpattern : pattern.CopiesAt text scope place run) :
    pattern.optional.CopiesAt text scope place run := by
  obtain ⟨value, hvalue, hmatched⟩ := hpattern
  refine ⟨.list [value], ?_, matches_optional_iff.mpr (.inl ⟨_, hmatched, rfl⟩)⟩
  rw [Value.toList_spelling_list, List.flatMap_singleton, hvalue]

theorem copiesAt_optional_of_misses (hmisses : pattern.Misses text scope place) :
    pattern.optional.CopiesAt text scope place [] :=
  ⟨.list [], Value.toList_spelling_list [], matches_optional_iff.mpr (.inr ⟨hmisses, rfl⟩)⟩

theorem copies_literal (text : String) (scope : Scope) (expected : String) :
    (literal expected).Copies text scope (· = expected.toList) := by
  intro place rest success hsees hmatches
  obtain ⟨after, rfl, rfl⟩ := (matches_literal_iff hsees).mp hmatches
  exact ⟨_, after, _, rfl, rfl, Value.toList_spelling_token _, rfl⟩

theorem literal_matches (scope : Scope) {expected : String}
    (hsees : place.Sees text (expected.toList ++ after)) :
    ∃ taken, (literal expected).Matches text scope place
      ⟨taken, place.past expected.toList, scope⟩ :=
  ⟨_, (matches_literal_iff hsees).mpr ⟨after, rfl, rfl⟩⟩

theorem copiesAt_literal {expected : String}
    (hsees : place.Sees text (expected.toList ++ after)) :
    (literal expected).CopiesAt text scope place expected.toList :=
  ⟨_, Value.toList_spelling_token _, (matches_literal_iff hsees).mpr ⟨after, rfl, rfl⟩⟩

section Classes

variable {members : List Char} {excluded : Bool} {low : Nat} {lower : Term}
  {upper : Option Term}

theorem copies_class (text : String) (scope : Scope) (members : List Char)
    (excluded : Bool) :
    (ofForm (.charClass members excluded)).Copies text scope fun run =>
      ∃ c, run = [c] ∧ inClass members excluded c = true := by
  intro place rest success hsees hmatches
  obtain ⟨c, after, rfl, hfits, rfl⟩ :=
    (Form.matches_charClass_iff hsees).mp (matches_ofForm_iff.mp hmatches)
  refine ⟨[c], after, _, rfl, ⟨c, rfl, hfits⟩, ?_, rfl⟩
  rw [Value.toList_spelling_token, String.toList_ofList]

theorem copiesAt_class {c : Char} (hsees : place.Sees text (c :: after))
    (hfits : inClass members excluded c = true) :
    (ofForm (.charClass members excluded)).CopiesAt text scope place [c] := by
  refine ⟨.token ⟨String.ofList [c], place, place.step c⟩, ?_, matches_ofForm_iff.mpr ?_⟩
  · rw [Value.toList_spelling_token, String.toList_ofList]
  · exact (Form.matches_charClass_iff hsees).mpr ⟨c, after, rfl, hfits, rfl⟩

theorem class_misses (hsees : place.Sees text rest)
    (hrest : ∀ c ∈ rest.head?, inClass members excluded c = false) :
    (ofForm (.charClass members excluded)).Misses text scope place :=
  misses_of_form (Form.charClass_misses hsees hrest)

theorem copies_run (hbounds : Match.resolveBounds scope lower upper = .ok (low, none)) :
    ((ofForm (.charClass members excluded)).bounded lower upper).Copies text scope fun run =>
      (∀ c ∈ run, inClass members excluded c = true) ∧ low ≤ run.length := by
  intro place rest success hsees hmatches
  obtain ⟨run, after, hrest, hrun, -, hlow, hsuccess⟩ := run_split hsees hbounds hmatches
  exact ⟨run, after, _, hrest, ⟨hrun, hlow⟩, spelling_charTokens place run, hsuccess⟩

theorem copiesAt_run (hsees : place.Sees text (run ++ after))
    (hbounds : Match.resolveBounds scope lower upper = .ok (low, none))
    (hrun : ∀ c ∈ run, inClass members excluded c = true)
    (hafter : ∀ c ∈ after.head?, inClass members excluded c = false)
    (hlow : low ≤ run.length) :
    ((ofForm (.charClass members excluded)).bounded lower upper).CopiesAt text scope place
      run :=
  ⟨_, spelling_charTokens place run, run_matches hsees hbounds hrun hafter hlow⟩

theorem copies_times (hbounds : Match.resolveBounds scope lower upper = .ok (low, some low)) :
    ((ofForm (.charClass members excluded)).bounded lower upper).Copies text scope fun run =>
      (∀ c ∈ run, inClass members excluded c = true) ∧ run.length = low := by
  intro place rest success hsees hmatches
  obtain ⟨run, after, hrest, hrun, hlow, hsuccess⟩ := times_split hsees hbounds hmatches
  exact ⟨run, after, _, hrest, ⟨hrun, hlow⟩, spelling_charTokens place run, hsuccess⟩

theorem copiesAt_times (hsees : place.Sees text (run ++ after))
    (hbounds : Match.resolveBounds scope lower upper = .ok (low, some low))
    (hrun : ∀ c ∈ run, inClass members excluded c = true) (hlow : run.length = low) :
    ((ofForm (.charClass members excluded)).bounded lower upper).CopiesAt text scope place
      run :=
  ⟨_, spelling_charTokens place run, times_matches hsees hbounds hrun hlow⟩

end Classes

/-- A repeated pattern that takes the characters of a run one by one takes the run, up to
where it misses. -/
theorem copiesAt_many (hsees : place.Sees text (run ++ after))
    (hchar : ∀ c ∈ run, ∀ (here : Position) (rest : List Char), here.Sees text (c :: rest) →
      pattern.CopiesAt text scope here [c])
    (hstop : pattern.Misses text scope (place.past run)) :
    pattern.many.CopiesAt text scope place run := by
  have hseries (count : Nat) : ∃ values, (Value.list values).spelling.toList = run ∧
      Series text pattern none none count scope place values (place.past run) scope := by
    induction run generalizing place count with
    | nil =>
        exact ⟨[], Value.toList_spelling_list [], .missed not_fullAt_none
          (rowMisses_part_iff.mpr hstop)⟩
    | cons c run ih =>
        rw [List.forall_mem_cons] at hchar
        have hseen : place.Sees text ([c] ++ (run ++ after)) := hsees
        obtain ⟨value, hvalue, hmatched⟩ := hchar.1 place _ hsees
        obtain ⟨values, hvalues, hseries⟩ := ih hseen.past hchar.2 hstop (count + 1)
        have hmoved : (place.past [c]).offset ≠ place.offset := by
          rw [Position.offset_past]
          exact Nat.succ_ne_self _
        refine ⟨value :: values, ?_, .moved not_fullAt_none
          (rowMatches_part_iff.mpr ⟨rfl, hmatched⟩) hmoved hseries⟩
        rw [Value.toList_spelling_list] at hvalues ⊢
        rw [List.flatMap_cons, hvalue, hvalues, List.singleton_append]
  obtain ⟨values, hvalues, hseries⟩ := hseries 0
  exact ⟨_, hvalues, (matches_atLeast_iff (Nat.zero_le _)).mpr
    ⟨values, hseries, Nat.zero_le _, rfl⟩⟩

end Pattern

/-- The class of the digits holds what is read as one. -/
theorem inClass_digit (c : Char) :
    inClass "0123456789".toList false c = Decimal.isDigit c := by
  have hlist : "0123456789".toList = ['0', '1', '2', '3', '4', '5', '6', '7', '8', '9'] :=
    String.toList_ofList
  have hall : ['0', '1', '2', '3', '4', '5', '6', '7', '8', '9'].all Decimal.isDigit = true := by
    decide
  rw [Bool.eq_iff_iff, hlist]
  simp only [inClass, Bool.bne_false, List.contains_iff_mem]
  constructor
  · exact List.all_eq_true.mp hall c
  · simp only [Decimal.isDigit, Bool.and_eq_true, decide_eq_true_eq]
    rintro ⟨hlow, hhigh⟩
    have hleast : 48 ≤ c.toNat := hlow
    have hgreatest : c.toNat ≤ 57 := hhigh
    rw [← Char.ofNat_toNat c]
    interval_cases c.toNat <;> decide

end ScopedGrammar
