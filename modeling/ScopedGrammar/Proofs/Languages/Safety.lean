/-
# The languages are safe to parse

The rules of the languages refer to themselves, to each other and to names that are rebound
around them. All the same, the parse of any text ends, and it ends with a value or with a
diagnostic about the text: whatever the rules look up is there and is what they need.
-/

import ScopedGrammar.Proofs.Croco.Contracts
import ScopedGrammar.Proofs.Grammar.Ending
import ScopedGrammar.Proofs.Json.Documents
import ScopedGrammar.Proofs.Outline.Contracts

namespace ScopedGrammar

theorem Outline.grammar_ends : Outline.grammar.Ends Outline.stepsFor :=
  Ranking.ends Outline.ranking_admits Outline.ranking_start Outline.limit_le_stepsFor

theorem Croco.grammar_ends : Croco.grammar.Ends Croco.stepsFor :=
  Ranking.ends Croco.ranking_admits Croco.ranking_start Croco.limit_le_stepsFor

/-- Parses of documents, outlines and programs end, with the steps that are granted to them. -/
theorem languages_end :
    Json.grammar.Ends Json.stepsFor ∧ Outline.grammar.Ends Outline.stepsFor ∧
      Croco.grammar.Ends Croco.stepsFor :=
  ⟨Ranking.ends Json.ranking_admits Json.ranking_start Json.limit_le_stepsFor,
    Outline.grammar_ends, Croco.grammar_ends⟩

/-- Whether a parse comes to a value or blames the text. -/
def Blameless (result : Except Halt Value) : Prop :=
  (∃ value, result = .ok value) ∨ ∃ diagnostic, result = .error (.diagnostic diagnostic)

/-- A parse that ends comes to a value or blames the text, if its errors spare the grammar. -/
theorem Grammar.Ends.blameless {grammar : Grammar} {steps : Nat → Nat} {text : String}
    (hends : grammar.Ends steps)
    (hspares : ∀ {reason}, grammar.parse (steps text.length) text = .error reason →
      reason.sparesGrammar = true) : Blameless (grammar.parse (steps text.length) text) := by
  cases hparse : grammar.parse (steps text.length) text with
  | ok value => exact .inl ⟨value, rfl⟩
  | error reason =>
      have hspared := hspares hparse
      cases reason with
      | diagnostic diagnostic => exact .inr ⟨diagnostic, rfl⟩
      | exhausted => exact absurd hparse (hends.settled (Nat.le_refl _)).1
      | defect defect => cases hspared
      | overflow => cases hspared

/-- No text is refused because a grammar is at fault, if the offsets in it fit signed words. -/
theorem languages_blameless {text : String} (hfits : text.length < 2 ^ 63) :
    Blameless (Json.parse text) ∧ Blameless (Outline.parse text) ∧
      Blameless (Croco.parse text) :=
  ⟨Ranking.parse_ok_or_diagnostic Json.ranking_admits Json.ranking_start
      (Json.limit_le_stepsFor _) rfl rfl,
    Outline.grammar_ends.blameless (Outline.parse_spares_grammar hfits _),
    Croco.grammar_ends.blameless (Croco.parse_spares_grammar hfits _)⟩

theorem languages_blameless_of_list :
    "[1,\n  2]".length < 2 ^ 63 ∧ Blameless (Json.parse "[1,\n  2]") ∧
      Blameless (Outline.parse "[1,\n  2]") ∧ Blameless (Croco.parse "[1,\n  2]") := by
  have hfits : "[1,\n  2]".length < 2 ^ 63 := by decide
  exact ⟨hfits, languages_blameless hfits⟩

end ScopedGrammar
