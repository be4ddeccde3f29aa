/-
# Rendered items are matched

A forest of items is matched where it is rendered, if nothing as deep comes after it. The
induction is on the items: after each of them comes another one at the same depth, or what
comes after the forest, and in both cases its block has ended. The depth has to fit a signed
word. It does in every text with fewer than 2^63 characters, because the spaces of an
indentation are characters of the text.
-/

import ScopedGrammar.Proofs.Outline.Soundness

namespace ScopedGrammar.Outline

open Pattern

variable {text : String} {scope : Scope} {place : Position} {depth count : Nat}
  {rest after : List Char} {item : Value} {items : List Value}

/-- Whether no line of a block at a depth comes next: the text ends, or fewer spaces do. -/
def Dedents (depth : Nat) (after : List Char) : Prop :=
  after = [] ∨ (after.takeWhile (inClass " ".toList false)).length < depth

theorem Dedents.deeper (hafter : Dedents depth after) : Dedents (depth + 1) after :=
  hafter.imp id Nat.lt_succ_of_lt

theorem line_misses (hlevel : Level scope depth) (hsees : place.Sees text after)
    (hafter : Dedents depth after) : (named "LINE").Misses text scope place := by
  apply named_misses hlevel.line
  apply labelled_misses
  apply misses_of_row line_form
  rcases hafter with rfl | hfew
  · cases depth with
    | zero =>
        have hnext : place.Sees text (spaces 0 ++ []) := hsees
        obtain ⟨value, -, hindentation⟩ :=
          indentation_complete hlevel hnext fun _ hc => nomatch hc
        exact rowMisses_of_rest hindentation (rowMisses_of_first (lineText_misses hsees))
    | succ depth =>
        exact rowMisses_of_first (indentation_misses hlevel hsees (Nat.zero_lt_succ depth))
  · exact rowMisses_of_first (indentation_misses hlevel hsees hfew)

/-- Fewer spaces before something else end a block. -/
theorem dedents_of_unspaced {limit : Nat} (hfew : depth < limit) (hafter : Unspaced after) :
    Dedents limit (spaces depth ++ after) := by
  have hspaces : ∀ c ∈ spaces depth, inClass " ".toList false c = true :=
    fun c hc => inClass_space_iff.mpr (List.eq_of_mem_replicate hc)
  have hnone : after.takeWhile (inClass " ".toList false) = [] := by
    cases after with
    | nil => rfl
    | cons c more =>
        have hspace := mt inClass_space_iff.mp (hafter c rfl)
        rw [List.takeWhile_cons, if_neg hspace]
  refine .inr ?_
  rw [List.takeWhile_append_of_pos hspaces, hnone, List.append_nil]
  simpa [spaces] using hfew

/-- An item begins with its indentation, and no further space. -/
theorem exists_renderAt_eq (hitem : Item item) (depth : Nat) :
    ∃ c more, (renderAt depth item).toList = spaces depth ++ (c :: more) ∧ c ≠ ' ' := by
  obtain ⟨heading, all⟩ := hitem
  rename_i line text block
  obtain ⟨c, more, htext⟩ := List.exists_cons_of_ne_nil heading.nonempty
  rw [toList_renderAt, htext]
  exact ⟨c, _, rfl, heading.first c (by rw [htext]; rfl)⟩

/-- Whatever comes after an item of a block, the block of the item has ended. -/
theorem dedents_renderAll (hitems : ∀ item ∈ items, Item item) (hafter : Dedents depth after) :
    Dedents (depth + 1) ((renderAll depth items).toList ++ after) := by
  cases items with
  | nil => exact hafter.deeper
  | cons item rest =>
      obtain ⟨c, more, hitem, hc⟩ := exists_renderAt_eq (hitems item List.mem_cons_self) depth
      rw [toList_renderAll_cons, hitem, List.append_assoc, List.append_assoc]
      exact dedents_of_unspaced (Nat.lt_succ_self depth) fun d hd => by cases hd; exact hc

/-- An item is matched where it is rendered, if its block ends there. -/
def ItemAt (text : String) (item : Value) : Prop :=
  ∀ (scope : Scope) (depth : Nat) (place : Position) (after : List Char), Level scope depth →
    NumberedFrom place.line [item] → Dedents (depth + 1) after →
    place.Sees text ((renderAt depth item).toList ++ after) →
    line.Matches text scope place ⟨item, place.past (renderAt depth item).toList, scope⟩

theorem series_complete (hitems : ∀ item ∈ items, Item item)
    (htaken : ∀ item ∈ items, ItemAt text item) (hlevel : Level scope depth)
    (hnumbered : NumberedFrom place.line items) (hafter : Dedents depth after)
    (hsees : place.Sees text ((renderAll depth items).toList ++ after)) :
    Series text (named "LINE") none none count scope place items
      (place.past (renderAll depth items).toList) scope := by
  induction items generalizing place count with
  | nil => exact .missed not_fullAt_none (rowMisses_part_iff.mpr (line_misses hlevel hsees hafter))
  | cons item rest ih =>
      obtain ⟨hitem, hrest⟩ := List.forall_mem_cons.mp hitems
      obtain ⟨hfirst, hothers⟩ := List.forall_mem_cons.mp htaken
      obtain ⟨hline, hlines⟩ := numberedFrom_cons_iff.mp hnumbered
      rw [toList_renderAll_cons, List.append_assoc] at hsees
      rw [toList_renderAll_cons, Position.past_append]
      have hmatches : (named "LINE").Matches text scope place
          ⟨item, place.past (renderAt depth item).toList, scope⟩ :=
        (matches_named_iff hlevel.line).mpr ⟨scope, (matches_labelled_iff "LINE").mpr
          (hfirst _ _ _ _ hlevel hline (dedents_renderAll hrest hafter) hsees), rfl⟩
      refine .moved not_fullAt_none (rowMatches_part_iff.mpr ⟨rfl, hmatches⟩) ?_
        (ih hrest hothers ?_ hsees.past)
      · obtain ⟨c, more, hrendered, -⟩ := exists_renderAt_eq hitem depth
        rw [Position.offset_past, hrendered, List.length_append, List.length_cons]
        omega
      · rwa [Position.line_past, count_renderAt hitem]

/-- A block of items is matched where they are rendered. -/
theorem lines_complete (hsome : items ≠ []) (hitems : ∀ item ∈ items, Item item)
    (htaken : ∀ item ∈ items, ItemAt text item) (hlevel : Level scope depth)
    (hnumbered : NumberedFrom place.line items) (hafter : Dedents depth after)
    (hsees : place.Sees text ((renderAll depth items).toList ++ after)) :
    (named "BLOCK").Matches text scope place
      ⟨.list items, place.past (renderAll depth items).toList, scope⟩ := by
  have hlines : lines.Matches text scope place
      ⟨.list items, place.past (renderAll depth items).toList, scope⟩ :=
    (matches_atLeast_iff (by decide)).mpr
      ⟨items, series_complete hitems htaken hlevel hnumbered hafter hsees,
        List.length_pos_iff.mpr hsome, rfl⟩
  exact (matches_named_iff hlevel.block).mpr
    ⟨scope, (matches_labelled_iff "BLOCK").mpr hlines, rfl⟩

/-- The depth of a rendered block fits a word, since its spaces are in the text. -/
theorem depth_lt (hfits : text.length < 2 ^ 63) (hsome : items ≠ [])
    (hitems : ∀ item ∈ items, Item item)
    (hsees : place.Sees text ((renderAll depth items).toList ++ after)) : depth < 2 ^ 63 := by
  obtain ⟨item, more, rfl⟩ := List.exists_cons_of_ne_nil hsome
  obtain ⟨c, further, hrendered, -⟩ := exists_renderAt_eq (hitems item List.mem_cons_self) depth
  have hlength := congrArg List.length hsees
  rw [toList_renderAll_cons, hrendered, List.length_drop, String.length_toList] at hlength
  simp only [List.length_append, List.length_cons, spaces, List.length_replicate] at hlength
  omega

theorem block_complete (hfits : text.length < 2 ^ 63) (hsome : items ≠ [])
    (hitems : ∀ item ∈ items, Item item) (htaken : ∀ item ∈ items, ItemAt text item)
    (hlevel : Level scope depth) (hnumbered : NumberedFrom (place.line + 1) items)
    (hafter : Dedents (depth + 1) after)
    (hsees : place.Sees text (":\n".toList ++ ((renderAll (depth + 1) items).toList ++ after))) :
    block.Matches text scope place
      ⟨.list items, place.past (":\n".toList ++ (renderAll (depth + 1) items).toList), scope⟩ := by
  have hline : (place.past ":\n".toList).line = place.line + 1 := Position.line_past _ _
  obtain ⟨next, hnext⟩ := Value.exists_ofInt?_next (depth_lt hfits hsome hitems hsees.past)
  obtain ⟨start, hstart⟩ := literal_matches scope hsees
  have hlines := lines_complete hsome hitems htaken (hlevel.push hnext) (hline ▸ hnumbered)
    hafter hsees.past
  have hframe : scope.resolveAll deeper = .ok [("indent", .value next)] := by
    rw [deeper_eq, hlevel.counts.resolveAll_next, hnext]
  rw [Position.past_append]
  exact matches_of_row block_form (.cons hstart (.single (matches_ofForm_iff.mpr
    (Form.matches_overlay_iff.mpr ⟨_, _, hframe, hlines, rfl⟩)))) rfl

/-- A line that opens no block ends with a newline. -/
theorem newline_ends (scope : Scope) (hsees : place.Sees text ('\n' :: after)) :
    ending.Matches text scope place
      ⟨.token ⟨"\n", place, place.past ['\n']⟩, place.past ['\n'], scope⟩ := by
  have hnewline : place.Sees text ("\n".toList ++ after) := hsees
  have hblock : block.Misses text scope place := by
    refine misses_of_row block_form
      (rowMisses_of_first (literal_misses_of_head hnewline rfl ?_))
    rintro c ⟨⟩
    decide
  exact matches_ofForm_iff.mpr (Form.matches_choice_cons_iff.mpr (.inr ⟨hblock,
    Form.matches_choice_cons_iff.mpr (.inl ((matches_literal_iff hnewline).mpr ⟨after, rfl, rfl⟩))⟩))

/-- The ending of an item is matched with its block, if it has one. -/
theorem ending_complete (hfits : text.length < 2 ^ 63) (hitems : ∀ item ∈ items, Item item)
    (htaken : ∀ item ∈ items, ItemAt text item) (hlevel : Level scope depth)
    (hnumbered : NumberedFrom (place.line + 1) items) (hafter : Dedents (depth + 1) after)
    (hsees : place.Sees text (tailText depth items ++ after)) :
    ∃ value : Value, value.asList?.getD [] = items ∧
      ending.Matches text scope place ⟨value, place.past (tailText depth items), scope⟩ := by
  cases items with
  | nil => exact ⟨_, rfl, newline_ends scope hsees⟩
  | cons item rest =>
      have hsome : item :: rest ≠ [] := List.cons_ne_nil _ _
      refine ⟨.list (item :: rest), rfl, matches_ofForm_iff.mpr
        (Form.matches_choice_cons_iff.mpr (.inl ?_))⟩
      exact block_complete hfits hsome hitems htaken hlevel hnumbered hafter hsees

theorem unspaced_heading {heading : String} (hheading : Heading heading) (after : List Char) :
    Unspaced (heading.toList ++ after) := by
  obtain ⟨c, more, htext⟩ := List.exists_cons_of_ne_nil hheading.nonempty
  have hfirst := hheading.first
  rw [htext] at hfirst ⊢
  exact hfirst

theorem endsText_tailText (depth : Nat) (block : List Value) (after : List Char) :
    EndsText (tailText depth block ++ after) := by
  cases block with
  | nil =>
      rintro c ⟨⟩
      decide
  | cons item rest =>
      rintro c ⟨⟩
      decide

/-- Every item is matched where it is rendered. -/
theorem item_complete (hfits : text.length < 2 ^ 63) (hitem : Item item) : ItemAt text item := by
  induction hitem with
  | @mk line heading block hheading all ih =>
      intro scope depth place after hlevel hnumbered hafter hsees
      obtain ⟨rfl, hblock⟩ := numberedFrom_item_iff.mp hnumbered
      have hrendered : (renderAt depth (.node "item" place.line (.text heading :: block))).toList =
          spaces depth ++ (heading.toList ++ tailText depth block) :=
        toList_renderAt _ _ _ _
      rw [hrendered, List.append_assoc, List.append_assoc] at hsees
      obtain ⟨indent, hindent, hfront⟩ :=
        indentation_complete hlevel hsees (unspaced_heading hheading _)
      have hmiddle : lineText.Matches text scope (place.past (spaces depth))
          ⟨.text heading, (place.past (spaces depth)).past heading.toList, scope⟩ := by
        have htext : lineText.Matches text scope (place.past (spaces depth))
            ⟨.text (String.ofList heading.toList),
              (place.past (spaces depth)).past heading.toList, scope⟩ :=
          lineText_complete hsees.past hheading.nonempty hheading.inner
            (endsText_tailText depth block after)
        rwa [String.ofList_toList] at htext
      have hline : ((place.past (spaces depth)).past heading.toList).line = place.line :=
        line_past_heading hheading.inner
      obtain ⟨final, hvalue, hfinal⟩ := ending_complete hfits all (fun item hitem => ih item hitem)
        hlevel (hline ▸ hblock) hafter hsees.past.past
      rw [hrendered, Position.past_append, Position.past_append]
      have hmatches :=
        matches_of_row line_form (.cons hfront (.cons hmiddle (.single hfinal))) rfl
      rwa [line_finishValue heading hindent, hvalue] at hmatches

end ScopedGrammar.Outline
