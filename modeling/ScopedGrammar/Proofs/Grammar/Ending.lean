/-
# Parses end

A parse makes calls: it matches the start rule, the patterns within that, and so on. For a
grammar within a ranking, no chain of such calls goes on for ever, nothing is called for
within itself before a character has been taken, and no repetition has more rounds than there
are characters left and one. So the steps that the ranking asks for suffice, and more of them
change nothing.
-/

import ScopedGrammar.Proofs.Grammar.Parses
import ScopedGrammar.Proofs.Match.Nesting

namespace ScopedGrammar

/-- A parse of a text makes a call: from the start rule on, it comes to it by calls within
calls. -/
def Grammar.Reaches (grammar : Grammar) (text : String) (call : Call) : Prop :=
  ∃ rule, grammar.rule? grammar.start = some rule ∧
    Relation.ReflTransGen (Call.Nests text) ⟨rule, grammar.scope, Position.start⟩ call

/-- A grammar whose parses end, and for which a number of steps is known that suffices for all
texts of a length. -/
structure Grammar.Ends (grammar : Grammar) (steps : Nat → Nat) : Prop where
  /-- The steps suffice, and more of them change nothing. -/
  settled : ∀ {text granted}, steps text.length ≤ granted →
    grammar.parse granted text ≠ .error .exhausted ∧
      grammar.parse granted text = grammar.parse (steps text.length) text
  /-- What a call comes to depends on the calls within it alone. -/
  asks : ∀ {text call matcher granted turns}, grammar.Reaches text call →
    (∀ inner, call.Nests text inner → inner.AnsweredAlike text matcher (Pattern.run granted)) →
    Match.form matcher turns call.pattern.form call.scope call.place (Input.ofText text) =
      Match.form (Pattern.run granted) turns call.pattern.form call.scope call.place
        (Input.ofText text)
  /-- Calls do not go on within one another for ever. -/
  wellFounded : ∀ {text call}, grammar.Reaches text call →
    Acc (fun inner outer => Call.Nests text outer inner) call
  /-- What is called for again within itself has taken a character in between. -/
  progresses : ∀ {text outer inner}, grammar.Reaches text outer →
    Relation.TransGen (Call.Nests text) outer inner → inner.pattern.form = outer.pattern.form →
    outer.place.offset < inner.place.offset
  /-- Repetitions need no more rounds than there are characters left and one. -/
  rounds : ∀ {text call granted turns}, grammar.Reaches text call →
    text.length - call.place.offset < turns →
    Match.form (Pattern.run granted) turns call.pattern.form call.scope call.place
        (Input.ofText text) =
      Match.form (Pattern.run granted) (text.length - call.place.offset + 1) call.pattern.form
        call.scope call.place (Input.ofText text)

variable {ranking : Ranking} {definitions : Frame} {start : String} {promised : Entry}
  {steps : Nat → Nat} {text : String}

/-- More steps than suffice change nothing. -/
theorem Ranking.parse_eq_of_le (hadmits : ranking.admitsDefinitions definitions = true)
    (hentry : ranking.promise? start = some promised) {enough granted : Nat}
    (henough : ranking.limit * (text.length + 1) ≤ enough) (hgranted : enough ≤ granted) :
    (Grammar.ofDefinitions definitions start).parse granted text =
      (Grammar.ofDefinitions definitions start).parse enough text := by
  obtain ⟨rule, hrule, hkeeps⟩ := ranking.rule_of_entry hadmits hentry
  have hrun : (rule.run enough (Grammar.ofDefinitions definitions start).scope Position.start
      (Input.ofText text)).1.isExhausted = false :=
    ranking.run_not_exhausted (ranking.ranks_ofDefinitions start hadmits) hkeeps.admitted
      (Nat.zero_le _) henough
  rw [Grammar.parse_eq hrule, Grammar.parse_eq hrule,
    (Steady.run rule _ Position.start).kept_of_le hgranted hrun]

/-- The calls of a parse are within the ranking of the grammar. -/
theorem Ranking.covers_of_reaches (hadmits : ranking.admitsDefinitions definitions = true)
    (hentry : ranking.promise? start = some promised) {call : Call}
    (hreaches : (Grammar.ofDefinitions definitions start).Reaches text call) :
    ranking.Covers text call := by
  obtain ⟨rule, hrule, hcalls⟩ := hreaches
  obtain ⟨other, hother, hkeeps⟩ := ranking.rule_of_entry hadmits hentry
  cases hrule.symm.trans hother
  have hstart : ranking.Covers text
      ⟨rule, (Grammar.ofDefinitions definitions start).scope, Position.start⟩ :=
    ⟨ranking.ranks_ofDefinitions start hadmits, hkeeps.admitted, Nat.zero_le _⟩
  rcases Relation.reflTransGen_iff_eq_or_transGen.mp hcalls with rfl | hwithin
  · exact hstart
  · exact (hstart.nestedWithin hwithin).1

/-- A grammar within a ranking ends, with the steps that the ranking asks for. -/
theorem Ranking.ends (hadmits : ranking.admitsDefinitions definitions = true)
    (hentry : ranking.promise? start = some promised)
    (hsteps : ∀ length, ranking.limit * (length + 1) ≤ steps length) :
    (Grammar.ofDefinitions definitions start).Ends steps where
  settled {text granted} hgranted := by
    refine ⟨fun hexhausted => ?_, ranking.parse_eq_of_le hadmits hentry (hsteps _) hgranted⟩
    have hcases := ranking.parse_cases hadmits hentry ((hsteps text.length).trans hgranted)
    rw [hexhausted] at hcases
    exact hcases
  asks _ hanswered := Match.form_eq_of_calls _ hanswered
  wellFounded hreaches := (ranking.covers_of_reaches hadmits hentry hreaches).accessible
  progresses hreaches hwithin hsame :=
    (ranking.covers_of_reaches hadmits hentry hreaches).offset_lt hwithin hsame
  rounds hreaches hturns :=
    Match.form_eq_of_left_lt (ranking.covers_of_reaches hadmits hentry hreaches).inText hturns
      (Nat.lt_succ_self _)

end ScopedGrammar
