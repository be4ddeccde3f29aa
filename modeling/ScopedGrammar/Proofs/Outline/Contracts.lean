/-
# Outlines without faults

The depth of a block is never more than the number of characters before it, since a colon
and a newline stand before each deeper block. So the name of the depth always means a count,
the next one fits a word if the offsets do, and no rule of the grammar is ever at fault.
-/

import ScopedGrammar.Proofs.Match.Contracts
import ScopedGrammar.Proofs.Outline.Inverse

namespace ScopedGrammar.Outline

open Pattern

variable {text : String} {steps : Nat}

/-- Where a block at a depth may stand: at least as many characters are before it. -/
def Aligned : Condition :=
  fun scope place => ∃ depth, Level scope depth ∧ depth ≤ place.offset

/-- Where a deeper block may stand. -/
def Opened : Condition :=
  fun scope place => ∃ depth, Level scope depth ∧ depth < place.offset

theorem aligned_lasts : Aligned.Lasts :=
  fun _ _ _ ⟨depth, hlevel, hdepth⟩ hleads => ⟨depth, hlevel, hdepth.trans hleads⟩

theorem opened_lasts : Opened.Lasts :=
  fun _ _ _ ⟨depth, hlevel, hdepth⟩ hleads => ⟨depth, hlevel, Nat.lt_of_lt_of_le hdepth hleads⟩

theorem indentation_keeps :
    indentation.Keeps text steps Aligned Anything Aligned := by
  have hspaces : ((oneOf " ").times (.name "indent")).Keeps text steps Aligned _ Aligned :=
    .times (.oneOf " " aligned_lasts) fun _ _ ⟨depth, hlevel, _⟩ => ⟨depth, hlevel.counts⟩
  have hspace : (oneOf " ").Keeps text steps Aligned Anything Aligned :=
    (Keeps.oneOf " " aligned_lasts).weaken fun _ _ => trivial
  exact .row rfl (.cons hspaces (.cons (.demand (.notAhead aligned_lasts hspace)) .nil))
    fun values _ => ⟨.list values, rfl, trivial⟩

theorem lineText_keeps : lineText.Keeps text steps Aligned Anything Aligned :=
  .map (.atLeast (.noneOf ":\n" aligned_lasts) (by decide)) fun _ _ => trivial

/-- After a colon and a newline, there is a character for one level more. -/
theorem block_keeps
    (hblock : (named "BLOCK").Keeps text steps Aligned Anything Aligned) :
    block.Keeps text steps Aligned Anything Aligned := by
  have hcolon : (literal ":\n").Keeps text steps Aligned Anything Opened := by
    refine (Keeps.ofForm (.literal fun scope place haligned => ?_)).weaken fun _ _ => trivial
    obtain ⟨depth, hlevel, hdepth⟩ := haligned
    refine ⟨depth, hlevel, ?_⟩
    rw [Position.offset_past]
    exact Nat.lt_of_le_of_lt hdepth (Nat.lt_add_of_pos_right (by decide))
  have hdeeper : (ofForm (.overlay (named "BLOCK") (nextCount "indent"))).Keeps text steps Opened
      Anything Opened := by
    refine .ofForm (.overlay_next opened_lasts (fun scope place hopened => ?_) hblock)
    obtain ⟨depth, hlevel, hdepth⟩ := hopened
    exact ⟨depth, hlevel.counts, hdepth, fun next hnext => ⟨depth + 1, hlevel.push hnext, hdepth⟩⟩
  have hafter : ∀ scope place, Opened scope place → Aligned scope place :=
    fun _ _ ⟨depth, hlevel, hdepth⟩ => ⟨depth, hlevel, hdepth.le⟩
  have hlast := hdeeper.mono (fun _ _ => id) (fun _ => id) hafter
  exact .row rfl (.cons hcolon (.cons hlast .nil))
    fun | _, .cons _ (.cons _ .nil) => ⟨_, rfl, trivial⟩

theorem line_keeps
    (hblock : (named "BLOCK").Keeps text steps Aligned Anything Aligned) :
    line.Keeps text steps Aligned Anything Aligned := by
  have hnewline : (literal "\n").Keeps text steps Aligned Anything Aligned :=
    (Keeps.literal "\n" aligned_lasts).weaken fun _ _ => trivial
  have hfinish : finish.Keeps text steps Aligned Anything Aligned :=
    Keeps.finish.weaken fun _ _ => trivial
  have hending : ((block.orElse (literal "\n")).orElse finish).Keeps text steps Aligned Anything
      Aligned :=
    .of_form (.choice (by simpa using ⟨block_keeps hblock, hnewline, hfinish⟩))
  exact .row rfl (.cons indentation_keeps (.cons lineText_keeps (.cons hending .nil)))
    fun values _ => ⟨.list values, rfl, trivial⟩

/-- The rules keep their contracts, with any number of steps. -/
theorem rules_keep (text : String) (steps : Nat) :
    (named "LINE").Keeps text steps Aligned Anything Aligned ∧
      (named "BLOCK").Keeps text steps Aligned Anything Aligned := by
  induction steps with
  | zero => exact ⟨.zero, .zero⟩
  | succ steps ih =>
      obtain ⟨hline, hblock⟩ := ih
      constructor
      · refine .named aligned_lasts fun scope place haligned => ?_
        obtain ⟨depth, hlevel, hdepth⟩ := haligned
        exact ⟨_, Aligned, hlevel.line, (line_keeps hblock).labelled _⟩
      · refine .named aligned_lasts fun scope place haligned => ?_
        obtain ⟨depth, hlevel, hdepth⟩ := haligned
        exact ⟨_, Aligned, hlevel.block,
          ((hline.atLeast (by decide)).weaken fun _ _ => trivial).labelled _⟩

/-- An outline is never refused because the grammar is at fault. -/
theorem parse_spares_grammar (hfits : text.length < 2 ^ 63) (granted : Nat) {reason : Halt}
    (hparse : grammar.parse granted text = .error reason) : reason.sparesGrammar = true := by
  have hstart : Aligned grammar.scope Position.start := ⟨0, level_start, Nat.le_refl 0⟩
  have hblock := (rules_keep text (granted + 1)).2.labelled "start"
  obtain ⟨-, hkept⟩ := Grammar.parse_keeps rule_start hblock (Nat.lt_succ_self granted) hstart
  exact hkept reason hparse hfits

end ScopedGrammar.Outline
