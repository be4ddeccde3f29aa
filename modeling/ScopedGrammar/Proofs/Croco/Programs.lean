/-
# Programs

A program is a block that begins where the text does and ends where it ends, so its text is
parsed as its tree. No rule of the grammar goes around without taking a character, so the
steps granted suffice. An expression on a line of its own is the smallest program.
-/

import ScopedGrammar.Proofs.Croco.Layout
import ScopedGrammar.Proofs.Grammar.Parses

namespace ScopedGrammar.Croco

open Pattern

variable {ending : List Char}

/-- How deep the rules nest before a character is taken. Blanks and indentations need not take
one. -/
def ranking : Ranking where
  entries := [("SPACES", ⟨6, false⟩), ("MULTILINE_SPACES", ⟨5, false⟩), ("COMMENT", ⟨2, true⟩),
    ("NUMBER", ⟨5, true⟩), ("STRING", ⟨3, true⟩), ("IDENTIFIER", ⟨5, true⟩),
    ("PRIMARY", ⟨8, true⟩), ("POSTFIX", ⟨10, true⟩), ("EXPONENT", ⟨12, true⟩),
    ("MULTIPLICATION", ⟨14, true⟩), ("ADDITION", ⟨16, true⟩), ("EXPRESSION", ⟨18, true⟩),
    ("STATEMENT", ⟨20, true⟩), ("INDENT", ⟨4, false⟩), ("BLOCK", ⟨25, true⟩),
    ("start", ⟨27, false⟩)]
  limit := 256
  width := 1
  resolves := false

theorem ranking_admits : ranking.admitsDefinitions definitions = true := by
  decide +kernel

theorem ranking_start : ranking.promise? "start" = some ⟨27, false⟩ :=
  rfl

theorem limit_le_stepsFor (length : Nat) : ranking.limit * (length + 1) ≤ stepsFor length :=
  Nat.mul_le_mul_left 256 (Nat.le_succ _)

theorem rule_start : grammar.scope.rule? "start" =
    some (((named "BLOCK").orElse (finish.map fun _ => .node "block" 1 [])).labelled "start") :=
  rfl

/-- The ends of a line that is the last one. -/
def lineEnds : List (List Char) :=
  [[], ['\n']]

theorem endsLine_of_lineEnds (hending : ending ∈ lineEnds) : EndsLine ending [] := by
  rcases List.mem_pair.mp hending with rfl | rfl
  · exact .inr ⟨rfl, rfl⟩
  · exact .inl rfl

/-- A block that is read makes a program. Offsets have to be words, as they are in every text
that fits the memory; a string needs this, since it looks ahead for its closing quote. -/
theorem Block.Read.parse {body : Block} (hread : body.Read) (style : Style)
    (hending : ending ∈ lineEnds) (hfits : (body.text style 0 1 ending).length < offsetBound) :
    Croco.parse (String.ofList (body.text style 0 1 ending)) = .ok (body.node 1) := by
  have hsees : Position.start.Sees (String.ofList (body.text style 0 1 ending))
      (body.text style 0 1 ending ++ []) := by
    rw [List.append_nil]
    simpa only [String.toList_ofList] using
      Position.Sees.start (String.ofList (body.text style 0 1 ending))
  have hplaced : Placed (String.ofList (body.text style 0 1 ending)) 0 grammar.scope
      Position.start (body.text style 0 1 ending) [] :=
    ⟨by rwa [String.length_ofList], level_grammar, Nat.zero_le _, hsees⟩
  have hblock := hread.named hplaced (endsLine_of_lineEnds hending) (dedents_nil 0)
  exact Ranking.parse_eq_ok ranking_admits ranking_start (limit_le_stepsFor _) rule_start
    ((matches_labelled_iff "start").mpr (choice_matches (List.forall_mem_nil _) hblock)) hsees.past

/-- The text of a block is parsed as its tree, on the lines where its statements are: bodies are
told apart by their depth alone, however a level of indentation is written, and every branch
hangs on the clause whose depth it has. -/
theorem parse_block (body : Block) (style : Style) (hending : ending ∈ lineEnds)
    (hfits : (body.text style 0 1 ending).length < offsetBound) :
    parse (String.ofList (body.text style 0 1 ending)) = .ok (body.node 1) :=
  body.read.parse style hending hfits

/-- Levels of indentation that are tabs and spaces by turns. -/
def alternating : Style :=
  fun line depth => if (line + depth) % 2 = 0 then .tab else .spaces

/-- A loop around a condition with branches, and a loop with a last branch. -/
def branchingLoops : Block :=
  .more
    (.flow (.loop (.name ⟨'x', [], rfl, by decide, by decide⟩)
        (.name ⟨'s', [], rfl, by decide, by decide⟩))
      (.last (.flow (.condition "if" (by decide) (.name ⟨'x', [], rfl, by decide, by decide⟩))
        (.last (.assignment (.name ⟨'y', [], rfl, by decide, by decide⟩) "+" (by decide) .single
          (.number ⟨1, by decide⟩)))
        (.further (.name ⟨'f', [], rfl, by decide, by decide⟩)
          (.last (.keyword "break" (by decide)))
          (.last (.last (.keyword "pass" (by decide)))))))
      .none)
    (.last
      (.flow (.condition "while" (by decide) (.name ⟨'y', [], rfl, by decide, by decide⟩))
        (.last (.assignment
          (.operation (.name ⟨'a', [], rfl, by decide, by decide⟩) .single .plus
            (.name ⟨'b', [], rfl, by decide, by decide⟩))
          "" (by decide) .single (.number ⟨2, by decide⟩)))
        (.last (.last (.keyword "continue" (by decide))))))

/-- How the loops are written. -/
def branchingText : String :=
  "for x in s:\n\tif x:\n    \ty += 1\n\telif f:\n    \tbreak\n\telse:\n    \tpass\n" ++
    "while y:\n    (a + b) = 2\nelse:\n    continue\n"

theorem text_branchingLoops :
    branchingLoops.text alternating 0 1 ['\n'] = branchingText.toList := by
  decide +kernel

theorem parse_block_of_branchingLoops :
    parse branchingText = .ok (.node "block" 1
      [.node "for" 1 [.node "name" 1 [.text "x"], .node "name" 1 [.text "s"],
        .node "block" 2 [.node "if" 2 [.node "name" 2 [.text "x"],
          .node "block" 3 [.node "assign" 3 [.node "name" 3 [.text "y"], .text "+",
            .node "number" 3 [.int 1]]],
          .node "if" 4 [.node "name" 4 [.text "f"], .node "block" 5 [.node "break" 5 []],
            .node "block" 7 [.node "pass" 7 []]]]]],
      .node "while" 8 [.node "name" 8 [.text "y"],
        .node "block" 9 [.node "assign" 9
          [.node "binop" 9 [.text "+", .node "name" 9 [.text "a"], .node "name" 9 [.text "b"]],
            .text "", .node "number" 9 [.int 2]]],
        .node "block" 11 [.node "continue" 11 []]]]) := by
  have hfits : (branchingLoops.text alternating 0 1 ['\n']).length < offsetBound := by
    rw [text_branchingLoops]
    decide +kernel
  have hparse := parse_block branchingLoops alternating (by decide : ['\n'] ∈ lineEnds) hfits
  rw [text_branchingLoops, String.ofList_toList] at hparse
  exact hparse

/-- A line with one expression is parsed as a block of that expression. -/
theorem parse_line (expression : Expression) (hending : ending ∈ lineEnds)
    (hfits : (expression.text ++ ending).length < offsetBound) :
    parse (String.ofList (expression.text ++ ending)) =
      .ok (.node "block" 1 [expression.node 1]) := by
  have hread : (Block.last (.expression expression)).Read :=
    .last (simple_expression expression).read
  have htext : (Block.last (.expression expression)).text (fun _ _ => .spaces) 0 1 ending =
      expression.text ++ ending := by
    simp [Block.text, Statement.text, Style.levels, margin]
  have hparse := hread.parse (fun _ _ => .spaces) hending (by rwa [htext])
  rwa [htext, Block.node, Block.nodes, Statement.node] at hparse

/-- The text of an expression is parsed as a block whose only statement is the tree of the
expression, on the first line. Offsets have to be words, as they are in every text that fits
the memory; a string needs this, since it looks ahead for its closing quote. -/
theorem parse_expression (expression : Expression) (hfits : expression.text.length < offsetBound) :
    parse (String.ofList expression.text) = .ok (.node "block" 1 [expression.node 1]) := by
  have hnothing : expression.text ++ [] = expression.text := List.append_nil _
  have hparse := parse_line expression (List.mem_cons_self : [] ∈ lineEnds) (by rwa [hnothing])
  rwa [hnothing] at hparse

/-- An expression with operators of all tiers, where one operand needs parentheses. -/
def comparedDifference : Expression :=
  .operation
    (.operation (.name ⟨'a', [], rfl, by decide, by decide⟩) .single .minus
      (.operation (.name ⟨'b', [], rfl, by decide, by decide⟩) .single .minus
        (.operation (.number ⟨3, by decide⟩) .tight .times
          (.name ⟨'c', [], rfl, by decide, by decide⟩))))
    .single .atMost
    (.operation
      (.index
        (.call (.name ⟨'f', [], rfl, by decide, by decide⟩)
          [.name ⟨'x', [], rfl, by decide, by decide⟩,
            .string ⟨'"', ['\'', 'q'], .inr rfl, by decide⟩] [.single])
        (.number ⟨0, by decide⟩))
      .tight .toThe (.collection .tuple [.number ⟨2, by decide⟩] []))

theorem parse_expression_of_comparedDifference :
    parse "a - (b - 3*c) <= f(x , \"'q\")[0]**(2,)" = .ok (.node "block" 1
      [.node "compare" 1 [.text "<=",
        .node "binop" 1 [.text "-", .node "name" 1 [.text "a"],
          .node "binop" 1 [.text "-", .node "name" 1 [.text "b"],
            .node "binop" 1 [.text "*", .node "number" 1 [.int 3],
              .node "name" 1 [.text "c"]]]],
        .node "binop" 1 [.text "**",
          .node "getitem" 1 [
            .node "call" 1 [.node "name" 1 [.text "f"], .node "name" 1 [.text "x"],
              .node "string" 1 [.text "'q"]],
            .node "number" 1 [.int 0]],
          .node "tuple" 1 [.node "number" 1 [.int 2]]]]]) :=
  parse_expression comparedDifference (by decide)

end ScopedGrammar.Croco
