/-
# Parsing and rendering are inverse

Parsing an outline and rendering it again gives the text, with the newline at its end if that
was missing, and the items carry the lines that they are on. Rendering a forest of items that
carry their lines and parsing it again gives the forest.
-/

import ScopedGrammar.Proofs.Grammar.Parses
import ScopedGrammar.Proofs.Outline.Completeness
import Mathlib

namespace ScopedGrammar.Outline

open Pattern

/-- How deep the rules nest before a character is taken. All of them take one. The depth of
a block may be too great to be named. -/
def ranking : Ranking where
  entries := [("LINE", ⟨5, true⟩), ("BLOCK", ⟨11, true⟩), ("start", ⟨13, true⟩)]
  limit := 64
  width := 0
  resolves := false

theorem ranking_admits : ranking.admitsDefinitions definitions = true := by
  decide +kernel

theorem ranking_start : ranking.promise? "start" = some ⟨13, true⟩ :=
  rfl

theorem limit_le_stepsFor (length : Nat) : ranking.limit * (length + 1) ≤ stepsFor length :=
  Nat.mul_le_mul_left 64 (Nat.le_succ _)

theorem rule_start : grammar.scope.rule? "start" = some ((named "BLOCK").labelled "start") :=
  rfl

/-- What is parsed as an outline stands for items from the first line on. -/
theorem stands_of_parse {text : String} {value : Value} (hparse : parse text = .ok value) :
    ∃ forest, value = .list forest ∧ forest ≠ [] ∧ Stands 0 1 forest text.toList [] := by
  obtain ⟨rule, stop, inner, hrule, hmatches, hend⟩ := Grammar.matches_of_parse hparse
  cases rule_start.symm.trans hrule
  obtain ⟨forest, run, after, htext, hsome, -, hstands, hsuccess⟩ :=
    lines_sound (lineBelow text _) level_start (Nat.lt_succ_self _) (.start text)
      ((matches_labelled_iff "start").mp hmatches)
  obtain ⟨rfl, rfl, -⟩ := Match.mk.inj hsuccess
  have hsees : Position.start.Sees text (run ++ after) := htext
  have hafter : after = [] := hsees.past.symm.trans hend
  rw [hafter, List.append_nil] at htext
  rw [hafter, ← htext] at hstands
  exact ⟨forest, rfl, hsome, hstands⟩

/-- The text with a newline at its end. -/
def ended (text : String) : String :=
  if text.toList.getLast? = some '\n' then text else text ++ "\n"

theorem render_of_stands {text : String} {forest : List Value} (hsome : forest ≠ [])
    (hstands : Stands 0 1 forest text.toList []) : render (.list forest) = ended text := by
  obtain ⟨front, c, hrendered, hc⟩ := endsInLine_renderAll hsome hstands.wellFormed 0
  have hrender : (render (.list forest)).toList = (renderAll 0 forest).toList := rfl
  rw [← String.toList_inj, hrender, ended]
  rcases hstands.written with htext | ⟨htext, -⟩
  · rw [if_pos (by rw [← htext, hrendered]; simp), htext]
  · have hlast : text.toList = front ++ [c] := by
      rw [hrendered, List.append_cons] at htext
      exact (List.append_inj' htext rfl).1.symm
    rw [if_neg (by rw [hlast]; simpa using hc), htext, String.toList_append]
    rfl

/-- A forest of items, one at least, with the lines 1, 2 and so on in order. -/
structure Forest (items : List Value) : Prop where
  some : items ≠ []
  wellFormed : ∀ item ∈ items, Item item
  numbered : NumberedFrom 1 items

/-- A forest is parsed from the text that it is rendered as. -/
theorem parse_of_render {forest : List Value} (hforest : Forest forest)
    (hfits : (render (.list forest)).length < 2 ^ 63) :
    parse (render (.list forest)) = .ok (.list forest) := by
  have hsees : Position.start.Sees (render (.list forest)) ((renderAll 0 forest).toList ++ []) := by
    rw [List.append_nil]
    exact .start _
  have hmatches := lines_complete hforest.some hforest.wellFormed
    (fun item hitem => item_complete hfits (hforest.wellFormed item hitem)) level_start
    hforest.numbered (.inl rfl) hsees
  exact Ranking.parse_eq_ok ranking_admits ranking_start (limit_le_stepsFor _) rule_start
    ((matches_labelled_iff "start").mpr hmatches) hsees.past

/-- Parsing and rendering are inverse to each other. What is parsed is a forest with the lines
of its items, and rendered it gives the text, with a newline at its end. A forest is parsed
from the text that it is rendered as, where a text is one with fewer than 2^63 characters. -/
theorem parse_render_inverse :
    (∀ text value, parse text = .ok value →
      ∃ forest, value = .list forest ∧ Forest forest ∧ render value = ended text) ∧
      ∀ forest, Forest forest → (render (.list forest)).length < 2 ^ 63 →
        parse (render (.list forest)) = .ok (.list forest) := by
  refine ⟨fun text value hparse => ?_, fun forest => parse_of_render⟩
  obtain ⟨forest, rfl, hsome, hstands⟩ := stands_of_parse hparse
  exact ⟨forest, rfl, ⟨hsome, hstands.wellFormed, hstands.numbered⟩,
    render_of_stands hsome hstands⟩

/-- An outline with two depths whose last line does not end. -/
theorem parse_render_inverse_without_last_newline :
    ∃ forest : List Value, parse "a:\n b c\nd" = .ok (.list forest) ∧
      render (.list forest) = "a:\n b c\nd\n" ∧ parse "a:\n b c\nd\n" = .ok (.list forest) ∧
      forest = [.node "item" 1 [.text "a", .node "item" 2 [.text "b c"]],
        .node "item" 3 [.text "d"]] := by
  have hparse : parse "a:\n b c\nd" = .ok (.list [.node "item" 1 [.text "a",
      .node "item" 2 [.text "b c"]], .node "item" 3 [.text "d"]]) := by cbv
  obtain ⟨forest, hvalue, hforest, hrender⟩ := parse_render_inverse.1 _ _ hparse
  have hended : ended "a:\n b c\nd" = "a:\n b c\nd\n" := by simp [ended]
  rw [hvalue, hended] at hrender
  have hagain := parse_render_inverse.2 forest hforest (by rw [hrender]; decide)
  rw [hrender] at hagain
  exact ⟨forest, hvalue ▸ hparse, hrender, hagain, (Value.list.inj hvalue).symm⟩

end ScopedGrammar.Outline
