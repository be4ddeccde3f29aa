/-
# Parsing and rendering an outline

Parsing an outline and rendering it are inverse to each other, except that the last line of a
text need not end. Both directions are about a block at some depth. What a match takes is
found by induction on the characters that are left, since every block comes after a colon. A
forest is matched by induction on its items: after each of them comes another one at the same
depth, or something that is not as deep.
-/

import ScopedGrammar.Proofs.Input.Counting
import ScopedGrammar.Proofs.Grammar.Parses
import ScopedGrammar.Proofs.Outline.Rules

namespace ScopedGrammar.Outline

open Pattern

variable {text : String} {scope inner : Scope} {place stop : Position} {success : Match}
  {depth first limit count : Nat} {run rest after further : List Char} {item : Value}
  {items : List Value}

/-- What may end the text of a line. -/
def ending : Pattern :=
  choice [block, literal "\n", finish]

theorem line_form : line.form = .sequence [indentation, lineText, ending] none :=
  rfl

theorem block_form :
    block.form = .sequence [literal ":\n", ofForm (.overlay (named "BLOCK") deeper)] (some [1]) :=
  rfl

theorem line_finishValue {spaces ending : Value} {line : Nat} (heading : String)
    (hline : spaces.line? = some line) :
    Outline.line.finishValue (.list [spaces, .text heading, ending]) =
      .node "item" line (.text heading :: ending.asList?.getD []) := by
  have hlines : (Value.list [spaces, .text heading, ending]).line? = some line := by
    rw [Value.line?, Value.lineOfList?, hline]
  show Value.node "item" (Value.list [spaces, .text heading, ending]).lineOrZero _ = _
  rw [Value.lineOrZero, hlines]
  rfl

/-- A run that stands for items at a depth, the first of them on some line: it is what they
are rendered as, or lacks only the last newline at the end of the text. -/
structure Stands (depth first : Nat) (items : List Value) (run after : List Char) : Prop where
  wellFormed : ∀ item ∈ items, Item item
  numbered : NumberedFrom first items
  written : (renderAll depth items).toList = run ∨
    ((renderAll depth items).toList = run ++ ['\n'] ∧ after = [])

/-- Every match of a line takes a run that stands for an item, as far as fewer characters are
left than a limit. -/
def LineBelow (text : String) (limit : Nat) : Prop :=
  ∀ (scope : Scope) (depth : Nat) (place : Position) (rest : List Char) (success : Match),
    rest.length < limit → Level scope depth → place.Sees text rest →
    line.Matches text scope place success →
    ∃ item run after, rest = run ++ after ∧ run ≠ [] ∧ Stands depth place.line [item] run after ∧
      success = ⟨item, place.past run, scope⟩

namespace Stands

theorem nil (depth first : Nat) (after : List Char) : Stands depth first [] [] after :=
  ⟨List.forall_mem_nil _, numberedFrom_nil first, .inl rfl⟩

theorem cons (hitem : Stands depth place.line [item] run (further ++ after))
    (hitems : Stands depth (place.past run).line items further after)
    (hmoved : items ≠ [] → further ≠ []) :
    Stands depth place.line (item :: items) (run ++ further) after := by
  have hwritten : (renderAll depth [item]).toList = (renderAt depth item).toList := by
    rw [toList_renderAll_cons]
    exact List.append_nil _
  have hformed := List.forall_mem_cons.mpr
    ⟨hitem.wellFormed item (List.mem_singleton_self item), hitems.wellFormed⟩
  rcases hitem.written with hrun | ⟨hrun, hend⟩
  · have hline : (place.past run).line = place.line + (itemLines item).length := by
      rw [Position.line_past, ← hrun, hwritten,
        count_renderAt (hitem.wellFormed item (List.mem_singleton_self item))]
    refine ⟨hformed, numberedFrom_cons_iff.mpr ⟨hitem.numbered, hline ▸ hitems.numbered⟩, ?_⟩
    rw [toList_renderAll_cons, ← hwritten, hrun, List.append_assoc, List.append_right_inj,
      List.append_right_inj]
    exact hitems.written
  · obtain ⟨rfl, rfl⟩ := List.append_eq_nil_iff.mp hend
    have hnone : items = [] := by
      by_contra hsome
      exact hmoved hsome rfl
    subst hnone
    rw [List.append_nil]
    exact ⟨hformed, hitem.numbered, .inr ⟨hrun, rfl⟩⟩

end Stands

/-- What ends a line and comes below it: the block of an item, or what lacks only the last
newline at the end of the text. -/
structure Ends (depth first : Nat) (block : List Value) (tail after : List Char) : Prop where
  wellFormed : ∀ item ∈ block, Item item
  numbered : NumberedFrom first block
  written : tailText depth block = tail ∨ (tailText depth block = tail ++ ['\n'] ∧ after = [])

/-- An item stands where its indentation, its heading and what ends them do. -/
theorem Ends.stands {heading tail : List Char} {block : List Value}
    (hends : Ends depth (first + 1) block tail after)
    (hheading : Heading (String.ofList heading)) :
    Stands depth first [.node "item" first (.text (String.ofList heading) :: block)]
      (spaces depth ++ (heading ++ tail)) after := by
  refine ⟨List.forall_mem_singleton.mpr (.mk hheading hends.wellFormed),
    numberedFrom_item_iff.mpr ⟨rfl, hends.numbered⟩, ?_⟩
  have hnone : (renderAll depth []).toList = [] := rfl
  rw [toList_renderAll_cons, toList_renderAt, hnone, List.append_nil, String.toList_ofList,
    List.append_assoc, List.append_assoc, List.append_right_inj, List.append_right_inj,
    List.append_right_inj, List.append_right_inj]
  exact hends.written

theorem heading_of_unspaced {heading : List Char} (hheading : heading ≠ [])
    (hinner : ∀ c ∈ heading, c ≠ ':' ∧ c ≠ '\n') (hunspaced : Unspaced (heading ++ after)) :
    Heading (String.ofList heading) where
  nonempty := by rwa [String.toList_ofList]
  inner := by rwa [String.toList_ofList]
  first := by
    rw [String.toList_ofList]
    intro c hc
    apply hunspaced
    rw [List.head?_append, hc]
    rfl

/-- A round of the lines of a block takes a line. -/
theorem named_line_sound (hline : LineBelow text limit) (hlevel : Level scope depth)
    (hlimit : rest.length < limit) (hsees : place.Sees text rest)
    (hmatches : (named "LINE").Matches text scope place success) :
    ∃ item run after, rest = run ++ after ∧ run ≠ [] ∧ Stands depth place.line [item] run after ∧
      success = ⟨item, place.past run, scope⟩ := by
  obtain ⟨within, hrule, hscope⟩ := (matches_named_iff hlevel.line).mp hmatches
  obtain ⟨item, run, after, hrest, hmoved, hstands, hsuccess⟩ :=
    hline _ _ _ _ _ hlimit hlevel hsees ((matches_labelled_iff "LINE").mp hrule)
  obtain ⟨value, stop, inner⟩ := success
  obtain ⟨rfl, rfl, -⟩ := Match.mk.inj hsuccess
  cases hscope
  exact ⟨_, run, after, hrest, hmoved, hstands, rfl⟩

theorem stands_of_series (hline : LineBelow text limit)
    (hseries : Series text (named "LINE") none none count scope place items stop inner)
    (hlevel : Level scope depth) (hlimit : rest.length < limit) (hsees : place.Sees text rest) :
    ∃ run after, rest = run ++ after ∧ (items ≠ [] → run ≠ []) ∧
      Stands depth place.line items run after ∧ stop = place.past run ∧ inner = scope := by
  induction hseries generalizing rest with
  | full hfull => exact ⟨[], rest, rfl, absurd rfl, .nil _ _ _, rfl, rfl⟩
  | missed hopen hmissed => exact ⟨[], rest, rfl, absurd rfl, .nil _ _ _, rfl, rfl⟩
  | still hopen hrow hstill =>
      obtain ⟨item, run, after, rfl, hmoved, hstands, hsuccess⟩ :=
        named_line_sound hline hlevel hlimit hsees (rowMatches_part_iff.mp hrow).2
      obtain ⟨rfl, rfl, rfl⟩ := Match.mk.inj hsuccess
      exact ⟨run, after, rfl, fun _ => hmoved, hstands, rfl, rfl⟩
  | moved hopen hrow hpast hrest ih =>
      obtain ⟨item, run, after, rfl, hmoved, hstands, hsuccess⟩ :=
        named_line_sound hline hlevel hlimit hsees (rowMatches_part_iff.mp hrow).2
      obtain ⟨rfl, rfl, rfl⟩ := Match.mk.inj hsuccess
      rw [List.length_append] at hlimit
      obtain ⟨further, last, rfl, hmore, hothers, rfl, rfl⟩ :=
        ih hlevel (by omega : after.length < limit) hsees.past
      refine ⟨run ++ further, last, (List.append_assoc _ _ _).symm, ?_, hstands.cons hothers hmore,
        (Position.past_append _ _ _).symm, rfl⟩
      exact fun _ hnil => hmoved (List.append_eq_nil_iff.mp hnil).1

theorem lines_sound (hline : LineBelow text limit) (hlevel : Level scope depth)
    (hlimit : rest.length < limit) (hsees : place.Sees text rest)
    (hmatches : (named "BLOCK").Matches text scope place success) :
    ∃ items run after, rest = run ++ after ∧ items ≠ [] ∧ run ≠ [] ∧
      Stands depth place.line items run after ∧
      success = ⟨.list items, place.past run, scope⟩ := by
  obtain ⟨value, stop, inner⟩ := success
  obtain ⟨within, hrule, rfl⟩ := (matches_named_iff hlevel.block).mp hmatches
  obtain ⟨items, hseries, hsome, hvalue⟩ :=
    (matches_atLeast_iff (by decide)).mp ((matches_labelled_iff "BLOCK").mp hrule)
  obtain ⟨run, after, hrest, hmoved, hstands, hstop, -⟩ :=
    stands_of_series hline hseries hlevel hlimit hsees
  cases hvalue
  cases hstop
  have hitems : items ≠ [] := List.length_pos_iff.mp hsome
  exact ⟨items, run, after, hrest, hitems, hmoved hitems, hstands, rfl⟩

theorem block_sound (hline : LineBelow text limit) (hlevel : Level scope depth)
    (hlimit : rest.length ≤ limit) (hsees : place.Sees text rest)
    (hmatches : block.Matches text scope place success) :
    ∃ items run after, rest = ':' :: '\n' :: (run ++ after) ∧ items ≠ [] ∧ run ≠ [] ∧
      Stands (depth + 1) (place.line + 1) items run after ∧
      success = ⟨.list items, place.past (':' :: '\n' :: run), scope⟩ := by
  obtain ⟨values, value, stop, inner, hrow, hpicked, rfl⟩ := row_of_matches block_form hmatches
  obtain ⟨start, others, hstart, hlast, rfl⟩ := rowMatches_cons_iff.mp hrow
  obtain ⟨final, hfinal, rfl⟩ := rowMatches_singleton_iff.mp hlast
  cases hpicked
  obtain ⟨tail, rfl, rfl⟩ := (matches_literal_iff hsees).mp hstart
  obtain ⟨frame, within, hframe, hblock, hscope⟩ :=
    Form.matches_overlay_iff.mp (matches_ofForm_iff.mp hfinal)
  rw [deeper_eq, hlevel.counts.resolveAll_next] at hframe
  split at hframe
  next next hnext =>
    cases hframe
    have hless : tail.length < limit := by
      rw [List.length_append] at hlimit
      exact Nat.lt_of_lt_of_le (Nat.lt_add_of_pos_left (by decide)) hlimit
    obtain ⟨items, run, after, rfl, hsome, hmoved, hstands, hsuccess⟩ :=
      lines_sound hline (hlevel.push hnext) hless hsees.past hblock
    have hlines : (place.past ":\n".toList).line = place.line + 1 := Position.line_past _ _
    rw [hlines] at hstands
    obtain ⟨rfl, rfl, -⟩ := Match.mk.inj hsuccess
    cases hscope
    exact ⟨items, run, after, rfl, hsome, hmoved, hstands, rfl⟩
  next => cases hframe

theorem mark_of_ne_nil (hsome : items ≠ []) : mark items = [':'] := by
  cases items with
  | nil => exact absurd rfl hsome
  | cons item rest => rfl

theorem ending_sound (hline : LineBelow text limit) (hlevel : Level scope depth)
    (hlimit : rest.length ≤ limit) (hsees : place.Sees text rest)
    (hmatches : ending.Matches text scope place success) :
    ∃ tail after, rest = tail ++ after ∧
      Ends depth (place.line + 1) (success.value.asList?.getD []) tail after ∧
      success.position = place.past tail ∧ success.scope = scope := by
  have hnothing {tail after : List Char}
      (hwritten : ['\n'] = tail ∨ (['\n'] = tail ++ ['\n'] ∧ after = [])) :
      Ends depth (place.line + 1) [] tail after :=
    ⟨List.forall_mem_nil _, numberedFrom_nil _, hwritten⟩
  rcases Form.matches_choice_cons_iff.mp (matches_ofForm_iff.mp hmatches) with
    hblock | ⟨-, hothers⟩
  · obtain ⟨items, run, after, rfl, hsome, -, hstands, rfl⟩ :=
      block_sound hline hlevel hlimit hsees hblock
    refine ⟨':' :: '\n' :: run, after, rfl, ⟨hstands.wellFormed, hstands.numbered, ?_⟩, rfl, rfl⟩
    have hmark : mark items = [':'] := mark_of_ne_nil hsome
    rcases hstands.written with hrun | ⟨hrun, hafter⟩
    · exact .inl (by simp [Value.asList?, tailText, hmark, hrun])
    · exact .inr ⟨by simp [Value.asList?, tailText, hmark, hrun], hafter⟩
  rcases Form.matches_choice_cons_iff.mp hothers with hnewline | ⟨-, hothers⟩
  · obtain ⟨after, rfl, rfl⟩ := (matches_literal_iff hsees).mp hnewline
    exact ⟨_, after, rfl, hnothing (.inl rfl), rfl, rfl⟩
  rcases Form.matches_choice_cons_iff.mp hothers with hfinish | ⟨-, hothers⟩
  · obtain ⟨rfl, rfl⟩ := (Form.matches_finish_iff hsees).mp (matches_ofForm_iff.mp hfinish)
    exact ⟨[], [], rfl, hnothing (.inr ⟨rfl, rfl⟩), rfl, rfl⟩
  · exact absurd hothers Form.not_matches_choice_nil

/-- A line stays on its line up to the end of its heading. -/
theorem line_past_heading {heading : List Char} (hinner : ∀ c ∈ heading, c ≠ ':' ∧ c ≠ '\n') :
    ((place.past (spaces depth)).past heading).line = place.line := by
  have hheading : heading.count '\n' = 0 :=
    List.count_eq_zero.mpr fun hmem => (hinner _ hmem).2 rfl
  rw [Position.line_past, Position.line_past, count_spaces, hheading]
  rfl

/-- Every match of a line takes an item. -/
theorem line_sound (hline : LineBelow text limit) : LineBelow text (limit + 1) := by
  intro scope depth place rest success hlimit hlevel hsees hmatches
  obtain ⟨values, value, stop, inner, hrow, hpicked, rfl⟩ := row_of_matches line_form hmatches
  obtain ⟨front, others, hfront, hothers, rfl⟩ := rowMatches_cons_iff.mp hrow
  obtain ⟨middle, others, hmiddle, hlast, rfl⟩ := rowMatches_cons_iff.mp hothers
  obtain ⟨final, hfinal, rfl⟩ := rowMatches_singleton_iff.mp hlast
  cases hpicked
  obtain ⟨_, indent, rfl, hunspaced, hindent, rfl⟩ := indentation_sound hlevel hsees hfront
  obtain ⟨heading, _, rfl, hheading, hinner, -, rfl⟩ := lineText_sound hsees.past hmiddle
  rw [List.length_append, List.length_append] at hlimit
  have hpositive := List.length_pos_iff.mpr hheading
  obtain ⟨tail, after, rfl, hends, hstop, hscope⟩ :=
    ending_sound hline hlevel (by omega) hsees.past.past hfinal
  dsimp only at hstop hscope
  subst hstop hscope
  rw [line_past_heading hinner] at hends
  refine ⟨_, spaces depth ++ (heading ++ tail), after, ?_, ?_,
    hends.stands (heading_of_unspaced hheading hinner hunspaced), ?_⟩
  · simp only [List.append_assoc]
  · simp [hheading]
  · rw [line_finishValue _ hindent, Position.past_append, Position.past_append]

theorem lineBelow (text : String) (limit : Nat) : LineBelow text limit := by
  induction limit with
  | zero => exact fun _ _ _ _ _ hlimit => absurd hlimit (Nat.not_lt_zero _)
  | succ limit ih => exact line_sound ih

end ScopedGrammar.Outline
