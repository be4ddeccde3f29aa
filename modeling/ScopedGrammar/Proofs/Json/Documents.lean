/-
# Documents

A text is parsed as a document exactly if the language produces it as an element, and then
with the value it stands for. All other texts are refused with a diagnostic: no rule of the
grammar goes around without taking a character, every name means a rule, and so neither the
steps granted run out nor is a defect found.
-/

import ScopedGrammar.Proofs.Grammar.Parses
import ScopedGrammar.Proofs.Json.Completeness

namespace ScopedGrammar.Json

open Pattern

/-- How deep the rules nest before a character is taken. All of them take one. -/
def ranking : Ranking where
  entries := [("STRING", ⟨2, true⟩), ("VALUE", ⟨11, true⟩), ("ELEMENT", ⟨13, true⟩),
    ("MEMBER", ⟨5, true⟩), ("start", ⟨22, true⟩)]
  limit := 64
  width := 0
  resolves := true

theorem ranking_admits : ranking.admitsDefinitions definitions = true := by
  decide +kernel

theorem ranking_start : ranking.promise? "start" = some ⟨22, true⟩ :=
  rfl

theorem limit_le_stepsFor (length : Nat) : ranking.limit * (length + 1) ≤ stepsFor length :=
  Nat.mul_le_mul_left 64 (Nat.le_succ _)

/-- A document that the grammar produces is parsed, and as what it stands for. -/
theorem parse_of_produces {text : String} {value : Value}
    (hproduces : Produces (.element value) text.toList) : parse text = .ok value := by
  obtain ⟨before, core, hrun, hbefore, -, htaken⟩ :
      ItemAt text (named "ELEMENT") value text.toList := produces_complete hproduces
  have hsees : Position.start.Sees text (before ++ (core ++ [])) := by
    rw [List.append_nil, ← hrun]
    exact .start text
  have hmatches := htaken before [] Position.start hbefore (fun _ hc => nomatch hc) hsees
  have hend : (Position.start.past (before ++ core)).Sees text [] := by
    rw [Position.past_append]
    exact hsees.past.past
  exact Ranking.parse_eq_ok ranking_admits ranking_start (limit_le_stepsFor _) rule_start
    ((matches_labelled_iff "start").mpr hmatches) hend

/-- What is parsed as a document is produced by the grammar. -/
theorem produces_of_parse {text : String} {value : Value} (hparse : parse text = .ok value) :
    Produces (.element value) text.toList := by
  obtain ⟨rule, stop, inner, hrule, hmatches, hend⟩ := Grammar.matches_of_parse hparse
  cases rule_start.symm.trans hrule
  obtain ⟨run, after, _, htext, hproduces, hsuccess⟩ :=
    sound_of_rule rule_element (element_sound (value_sound text _)) Position.start text.toList _
      (Nat.lt_succ_self _) (.start text) ((matches_labelled_iff "start").mp hmatches)
  obtain ⟨rfl, rfl, -⟩ := Match.mk.inj hsuccess
  have hsees : Position.start.Sees text (run ++ after) := htext
  have hafter : after = [] := hsees.past.symm.trans hend
  rw [htext, hafter, List.append_nil]
  exact hproduces

/-- A text is parsed as a value exactly if the grammar produces it as an element that stands
for the value. Every other text is refused with a diagnostic. -/
theorem parse_iff_produces (text : String) :
    (∀ value, parse text = .ok value ↔ Produces (.element value) text.toList) ∧
      ((∃ value, parse text = .ok value) ∨
        ∃ diagnostic, parse text = .error (.diagnostic diagnostic)) := by
  exact ⟨fun value => ⟨produces_of_parse, parse_of_produces⟩,
    Ranking.parse_ok_or_diagnostic ranking_admits ranking_start (limit_le_stepsFor _) rfl rfl⟩

end ScopedGrammar.Json
