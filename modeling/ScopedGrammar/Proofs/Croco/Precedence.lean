/-
# Precedence

Every expression is taken for what it is. An operand that binds tightly enough is taken at
the level that asks for it, since what is taken at a level is taken at all looser levels, and
any other operand stands in parentheses and is a primary. By induction on the expression, the
operators of a tier gather from left to right, and so do postfix operations.
-/

import ScopedGrammar.Proofs.Croco.Brackets

namespace ScopedGrammar.Croco

open Pattern

variable {text : String} {multiline : Bool} {scope inner : Scope} {place stop : Position}
  {run rest after lead trail : List Char} {expression : Expression} {rank tighter : Nat}

theorem exists_tier (hrank : rank < postfixRank) : ∃ tier : Tier, tier.rank = rank := by
  match rank, hrank with
  | 0, _ => exact ⟨.comparison, rfl⟩
  | 1, _ => exact ⟨.sum, rfl⟩
  | 2, _ => exact ⟨.product, rfl⟩
  | 3, _ => exact ⟨.power, rfl⟩

theorem Tier.rank_injective {tier other : Tier} (hrank : tier.rank = other.rank) :
    tier = other := by
  revert hrank
  cases tier <;> cases other <;> decide

theorem Tier.rank_lt (tier : Tier) : tier.rank < postfixRank := by
  cases tier <;> decide

theorem Expression.rank_le (expression : Expression) : expression.rank ≤ postfixRank := by
  cases expression with
  | operation left gap operator right => exact operator.tier.rank_lt.le
  | _ => exact Nat.le_refl _

/-- What is taken at a level is taken at every looser level. -/
theorem Taken.loosen (htaken : Taken (ruleAt tighter) (Stops tighter) run expression)
    (hle : rank ≤ tighter) (htighter : tighter ≤ postfixRank) :
    Taken (ruleAt rank) (Stops rank) run expression := by
  induction tighter, hle using Nat.le_induction with
  | base => exact htaken
  | succ level hle ih =>
      obtain ⟨tier, rfl⟩ := exists_tier htighter
      exact ih htaken.chain.taken (Nat.le_of_succ_le htighter)

/-- Whether the rules take an expression for what it is: as operands and operators of its
tier, or as a primary and postfix operations. -/
structure Understood (expression : Expression) : Prop where
  operated : ∀ tier : Tier, expression.rank = tier.rank → Chain tier expression.text expression
  postfixed : expression.rank = postfixRank →
    PostfixChain expression.isNumber expression.text expression

namespace Understood

theorem taken (hunderstood : Understood expression) (hle : rank ≤ expression.rank) :
    Taken (ruleAt rank) (Stops rank) expression.text expression := by
  rcases Nat.lt_or_eq_of_le expression.rank_le with hlt | heq
  · obtain ⟨tier, htier⟩ := exists_tier hlt
    have hown := (hunderstood.operated tier htier.symm).taken
    exact hown.loosen (htier ▸ hle) tier.rank_lt.le
  · exact (hunderstood.postfixed heq).taken.loosen (heq ▸ hle) (Nat.le_refl _)

theorem whole (hunderstood : Understood expression) : Whole expression :=
  hunderstood.taken (Nat.zero_le _)

/-- In parentheses, an expression is a primary. -/
theorem enclosed_postfixChain (hunderstood : Understood expression) :
    PostfixChain false (enclosed true expression.text) expression := by
  have hopens (after : List Char) (hafter : EndsWord after) :
      Opens (enclosed true expression.text ++ after) := opens_of_head (by decide) (by decide) _
  exact ((primary_enclosed hunderstood.whole).taken hopens).postfixChain

/-- An operand is taken at the level that asks for it. -/
theorem operand (hunderstood : Understood expression) {needed : Bool}
    (hrank : rank ≤ postfixRank) (hneeded : needed = false → rank ≤ expression.rank) :
    Taken (ruleAt rank) (Stops rank) (enclosed needed expression.text) expression := by
  cases needed with
  | false => exact hunderstood.taken (hneeded rfl)
  | true => exact hunderstood.enclosed_postfixChain.taken.loosen hrank (Nat.le_refl _)

/-- What stands to the left of an operator may itself have operators of the same tier. -/
theorem leftOperand (hunderstood : Understood expression) (tier : Tier) {needed : Bool}
    (hneeded : needed = false → tier.rank ≤ expression.rank) :
    Chain tier (enclosed needed expression.text) expression := by
  by_cases hsame : needed = false ∧ expression.rank = tier.rank
  · obtain ⟨rfl, hrank⟩ := hsame
    exact hunderstood.operated tier hrank
  · refine (hunderstood.operand tier.rank_lt fun hnot => ?_).chain
    exact Nat.lt_of_le_of_ne (hneeded hnot) fun hrank => hsame ⟨hnot, hrank.symm⟩

/-- What a postfix operation is applied to. -/
theorem target (hunderstood : Understood expression) {needed : Bool}
    (hneeded : needed = false → expression.rank = postfixRank) :
    PostfixChain (!needed && expression.isNumber) (enclosed needed expression.text)
      expression := by
  cases needed with
  | false => exact hunderstood.postfixed (hneeded rfl)
  | true => exact hunderstood.enclosed_postfixChain

/-- A primary and its postfix operations have no operator. -/
theorem of_postfixChain (hrank : expression.rank = postfixRank)
    (hchain : PostfixChain expression.isNumber expression.text expression) :
    Understood expression :=
  ⟨fun tier htier => absurd (hrank.symm.trans htier) tier.rank_lt.ne', fun _ => hchain⟩

theorem of_primary (hrank : expression.rank = postfixRank)
    (hprimary : Primary expression.isNumber expression.text expression) :
    Understood expression :=
  .of_postfixChain hrank
    (hprimary.taken fun _ hafter => expression.opens_text hafter).postfixChain

theorem of_suffix {target : Expression} {needed : Bool} {suffix : List Char}
    (hunderstood : Understood target) (hneeded : needed = false → target.rank = postfixRank)
    (hsuffix : Suffix suffix target expression)
    (hpoint : Pointless (!needed && target.isNumber) suffix)
    (hwritten : expression.text = enclosed needed target.text ++ suffix)
    (hrank : expression.rank = postfixRank) (hnumber : expression.isNumber = false) :
    Understood expression := by
  apply of_postfixChain hrank
  rw [hwritten, hnumber]
  exact (hunderstood.target hneeded).snoc (oneLine_enclosed target.oneLine) hsuffix hpoint

end Understood

namespace Expression

theorem rank_of_not_enclosed
    (hneeded : decide (expression.rank < postfixRank) = false) :
    expression.rank = postfixRank :=
  Nat.le_antisymm expression.rank_le (Nat.le_of_not_lt (of_decide_eq_false hneeded))

theorem pointless_of_false (suffix : List Char) : Pointless false suffix := nofun

mutual

/-- Every expression is taken for what it is. -/
theorem understood : ∀ expression : Expression, Understood expression
  | .name word => .of_primary rfl (by rw [text]; exact primary_name word)
  | .number numeral => .of_primary rfl (by rw [text]; exact primary_number numeral)
  | .string quoted => .of_primary rfl (by rw [text]; exact primary_string quoted)
  | .collection bracket members gaps =>
      .of_primary rfl (primary_collection fun member hmember =>
        (understood_all members member hmember).whole)
  | .attribute target word => by
      refine target.understood.of_suffix (fun hnot => ?_) (suffix_attribute target word) ?_
        (by rw [text]) rfl rfl
      · exact rank_of_not_enclosed (Bool.or_eq_false_iff.mp hnot).2
      · have hnumeric : (!(target.isNumber || decide (target.rank < postfixRank)) &&
            target.isNumber) = false := by
          cases target.isNumber <;> simp
        rw [hnumeric]
        exact pointless_of_false _
  | .call callee arguments gaps => by
      have harguments : ∀ argument ∈ arguments, Whole argument := fun argument hargument =>
        (understood_all arguments argument hargument).whole
      refine callee.understood.of_suffix rank_of_not_enclosed
        (suffix_call callee harguments gaps) (fun _ => ?_) (by rw [text]) rfl rfl
      rintro c ⟨⟩
      decide
  | .index target position => by
      refine target.understood.of_suffix rank_of_not_enclosed
        (suffix_index target position.understood.whole) (fun _ => ?_) (by rw [text]) rfl rfl
      rintro c ⟨⟩
      decide
  | .operation left gap operator right => by
      have hleft := left.understood.leftOperand operator.tier fun hnot =>
        Nat.le_of_not_lt (of_decide_eq_false hnot)
      have hright := right.understood.operand operator.tier.rank_lt fun hnot =>
        Nat.lt_of_not_le (of_decide_eq_false hnot)
      have hchain := hleft.operation gap (oneLine_enclosed left.oneLine) hright
        (fun hafter => opens_enclosed _ (right.opens_text hafter))
      constructor
      · intro tier htier
        rw [text, ← Tier.rank_injective htier]
        exact hchain
      · exact fun hrank => absurd hrank operator.tier.rank_lt.ne

theorem understood_all : ∀ members : List Expression, ∀ member ∈ members, Understood member
  | [] => by simp
  | first :: others => by
      rw [List.forall_mem_cons]
      exact ⟨first.understood, understood_all others⟩

end

end Expression

end ScopedGrammar.Croco
