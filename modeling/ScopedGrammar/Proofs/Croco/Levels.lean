/-
# Operators and postfix operations

What the rules for the levels of expressions match. A rule for a tier takes an operand of the
next tighter level and then, for as long as one of its operators comes next, the operator and
one more operand. So the runs that it takes are built up one operator at a time, and each is
taken wherever nothing that comes after it would go on with it. That no shorter or looser
operator is taken for the beginning of another one is a matter of the order in which they
are tried; it is decided here once, over all pairs of operators.
-/

import Mathlib.Data.List.Find
import ScopedGrammar.Proofs.Croco.Phrases

namespace ScopedGrammar.Croco

open Pattern

variable {text : String} {multiline : Bool} {scope inner : Scope} {place stop : Position}
  {run rest after lead trail : List Char} {expression : Expression}

section Words

variable {words : List String} {word : String}

/-- A choice of words takes the first of them that comes next. -/
theorem words_match (scope : Scope) (hsees : place.Sees text rest)
    (hfind : words.find? (fun word => word.toList.isPrefixOf rest) = some word) :
    (choice (words.map literal)).Matches text scope place
      ⟨.token ⟨word, place, place.past word.toList⟩, place.past word.toList, scope⟩ := by
  obtain ⟨hword, front, back, rfl, hfront⟩ := List.find?_eq_some_iff_append.mp hfind
  obtain ⟨after, rfl⟩ := List.isPrefixOf_iff_prefix.mp hword
  rw [List.map_append, List.map_cons]
  refine choice_matches ?_ ((matches_literal_iff hsees).mpr ⟨after, rfl, rfl⟩)
  rw [List.forall_mem_map]
  intro other hother
  apply literal_misses hsees
  have hprefix := hfront other hother
  rwa [Bool.not_eq_true', ← Bool.not_eq_true, List.isPrefixOf_iff_prefix] at hprefix

theorem words_miss (hsees : place.Sees text rest)
    (hnone : ∀ word ∈ words, ¬ word.toList <+: rest) :
    (choice (words.map literal)).Misses text scope place := by
  apply choice_misses
  rw [List.forall_mem_map]
  exact fun word hword => literal_misses hsees (hnone word hword)

end Words

/-- Whether the next character, if there is one, goes on with no operator. -/
def Unoperated (rest : List Char) : Prop :=
  ∀ c ∈ rest.head?, c ≠ '=' ∧ c ≠ '*' ∧ c ≠ '/'

theorem Opens.unoperated (hopens : Opens rest) : Unoperated rest := by
  intro c hc
  have hc := hopens.of_head hc
  refine ⟨?_, ?_, ?_⟩ <;> rintro rfl <;> exact absurd hc (by decide)

theorem Blank.unoperated_append (hrun : Blank run) (hafter : Unoperated after) :
    Unoperated (run ++ after) := by
  cases run with
  | nil => exact hafter
  | cons c more =>
      rintro d ⟨⟩
      rcases hrun c List.mem_cons_self with rfl | rfl <;> decide

/-- A word that goes on only with characters of operators is next where an operator stands
exactly if it begins the operator. -/
theorem isPrefixOf_operator (operator : Operator) {word : List Char}
    (htail : ∀ c ∈ word.tail, c = '=' ∨ c = '*' ∨ c = '/') (hrest : Unoperated rest) :
    word.isPrefixOf (operator.text ++ rest) = word.isPrefixOf operator.text := by
  rw [Bool.eq_iff_iff, List.isPrefixOf_iff_prefix, List.isPrefixOf_iff_prefix]
  refine ⟨?_, fun hprefix => hprefix.trans (List.prefix_append _ _)⟩
  rintro ⟨further, hsplit⟩
  rcases List.append_eq_append_iff.mp hsplit with ⟨more, hmore, -⟩ | ⟨more, rfl, rfl⟩
  · exact ⟨more, hmore.symm⟩
  cases more with
  | nil => rw [List.append_nil]
  | cons c more =>
      obtain ⟨first, others, htext, -⟩ := operator.head_text
      have hc := htail c (by simp [htext])
      have hother := hrest c rfl
      rcases hc with rfl | rfl | rfl
      · exact absurd rfl hother.1
      · exact absurd rfl hother.2.1
      · exact absurd rfl hother.2.2

/-- So the first of such words that is next is the first that begins the operator. -/
theorem find?_operator (operator : Operator) {words : List String}
    (htails : ∀ word ∈ words, ∀ c ∈ word.toList.tail, c = '=' ∨ c = '*' ∨ c = '/')
    (hrest : Unoperated rest) :
    words.find? (fun word => word.toList.isPrefixOf (operator.text ++ rest)) =
      words.find? fun word => word.toList.isPrefixOf operator.text :=
  List.find?_congr fun word hword => isPrefixOf_operator operator (htails word hword) hrest

namespace Operator

theorem tail_text (operator : Operator) :
    ∀ c ∈ operator.text.tail, c = '=' ∨ c = '*' ∨ c = '/' := by
  cases operator <;> decide

/-- Tighter operators do not go on with what is left of an operator. -/
theorem not_prefix_of_looser {operator other : Operator}
    (htighter : operator.tier.rank < other.tier.rank) : ¬ other.text <+: operator.text := by
  revert htighter
  cases operator <;> cases other <;> decide

/-- What is tighter than an operator ends before the operator. -/
theorem stops (operator : Operator) (hrest : Unoperated rest) :
    Stops (operator.tier.rank + 1) (operator.text ++ rest) := by
  constructor
  · cases operator <;> rintro c ⟨⟩ <;> decide
  · intro other htighter
    rw [← List.isPrefixOf_iff_prefix, isPrefixOf_operator operator other.tail_text hrest,
      List.isPrefixOf_iff_prefix]
    exact not_prefix_of_looser htighter

theorem unblank (operator : Operator) (multiline : Bool) (rest : List Char) :
    Unblank multiline (operator.text ++ rest) := by
  apply unblank_of_head
  cases operator <;> rintro c ⟨⟩ <;> decide

end Operator

/-- The name of the rule for expressions that bind at least so tightly. -/
def ruleAt : Nat → String
  | 0 => "EXPRESSION"
  | 1 => "ADDITION"
  | 2 => "MULTIPLICATION"
  | 3 => "EXPONENT"
  | _ => "POSTFIX"

/-- The operators of a tier, in the order in which they are tried. -/
def Tier.operators : Tier → List Operator
  | .comparison => [.atMost, .less, .atLeast, .greater, .differs, .equals]
  | .sum => [.plus, .minus]
  | .product => [.times, .floorDivide, .divide, .remainder]
  | .power => [.toThe]

theorem Tier.tier_of_mem {tier : Tier} {operator : Operator}
    (hoperator : operator ∈ tier.operators) : operator.tier = tier := by
  revert hoperator
  cases tier <;> cases operator <;> decide

/-- An operator is the first of its tier that its text begins with. -/
theorem Tier.find?_operators (operator : Operator) :
    (operator.tier.operators.map Operator.spelling).find?
      (fun word => word.toList.isPrefixOf operator.text) = some operator.spelling := by
  cases operator <;> decide

/-- The rule for a tier. -/
def Tier.rule (tier : Tier) : Pattern :=
  operatorLevel (tier.operators.map Operator.spelling) (ruleAt (tier.rank + 1)) tier.kind

theorem Tier.rule_isRule (tier : Tier) : IsRule (ruleAt tier.rank) tier.rule := by
  cases tier <;> exact ⟨by decide, rfl⟩

/-- An operator of a tier and the operand to its right. -/
def Tier.step (tier : Tier) : Pattern :=
  sequence
    [((choice (tier.operators.map Operator.spelling |>.map literal)).map
        fun raw => .text raw.spelling).capture "last_op",
      (named (ruleAt (tier.rank + 1))).demand
        "expected an expression after '\x7blast_op\x7d' on line \x7bline\x7d"]

theorem Tier.rule_form (tier : Tier) :
    tier.rule.form = .sequence [named (ruleAt (tier.rank + 1)), tier.step.many] none :=
  rfl

theorem Tier.rule_finishValue (tier : Tier) (raw : Value) :
    tier.rule.finishValue raw = foldOperators tier.kind raw :=
  rfl

/-- From a place on, a first pattern matches and then further ones, each of which moves on.
Folded to the left, their values come to one. -/
def Gathered (text : String) (multiline : Bool) (first step : Pattern)
    (apply : Value → Value → Value) (scope : Scope) (place : Position) (value : Value)
    (stop : Position) : Prop :=
  ∃ start middle steps inner, first.Matches text scope place ⟨start, middle, scope⟩ ∧
    Moves text step scope middle steps stop inner ∧ Ready multiline inner ∧
    steps.foldl apply start = value

namespace Gathered

variable {first step : Pattern} {apply : Value → Value → Value} {value : Value}

theorem start (hready : Ready multiline scope)
    (hfirst : first.Matches text scope place ⟨value, stop, scope⟩) :
    Gathered text multiline first step apply scope place value stop :=
  ⟨value, stop, [], scope, hfirst, .nil, hready, rfl⟩

/-- There may be one more step, in the scope that the steps before it lead to. -/
theorem extend (hgathered : Gathered text multiline first step apply scope place value stop) :
    ∃ within, Ready multiline within ∧ ∀ further last inner,
      step.Matches text within stop ⟨further, last, inner⟩ → Ready multiline inner →
      last.offset ≠ stop.offset →
      Gathered text multiline first step apply scope place (apply value further) last := by
  obtain ⟨begun, middle, steps, within, hfirst, hmoves, hready, rfl⟩ := hgathered
  refine ⟨within, hready, fun further last inner hstep hinner hmoved =>
    ⟨begun, middle, steps ++ [further], inner, hfirst, hmoves.snoc hstep hmoved, hinner, ?_⟩⟩
  rw [List.foldl_append]
  rfl

end Gathered

/-- A run is taken as operands of a tier with operators between them, wherever it stands,
unless something tighter goes on with it. -/
def Chain (tier : Tier) (run : List Char) (expression : Expression) : Prop :=
  ∀ ⦃text : String⦄ ⦃multiline : Bool⦄ ⦃scope : Scope⦄ ⦃place : Position⦄
    ⦃lead trail after : List Char⦄, Stands text multiline scope place lead run trail after →
    Stops (tier.rank + 1) after →
    Gathered text multiline (named (ruleAt (tier.rank + 1))) tier.step
      (applyOperator tier.kind) scope place (expression.node place.line)
      (place.past (lead ++ (run ++ trail)))

variable {tier : Tier}

theorem step_misses (hsees : place.Sees text rest) (hstops : Stops tier.rank rest) :
    tier.step.Misses text scope place := by
  have hwords : (choice (tier.operators.map Operator.spelling |>.map literal)).Misses text scope
      place := by
    apply words_miss hsees
    rw [List.forall_mem_map]
    intro operator hoperator
    apply hstops.noOperator operator
    rw [Tier.tier_of_mem hoperator]
  exact sequence_misses (rowMisses_of_first (capture_misses (map_misses _ hwords)))

/-- Operands and operators of a tier are what its rule takes. -/
theorem Chain.taken (hchain : Chain tier run expression) :
    Taken (ruleAt tier.rank) (Stops tier.rank) run expression := by
  intro text multiline scope place lead trail after hstands hstops
  obtain ⟨begun, middle, steps, inner, hfirst, hmoves, hready, hvalue⟩ :=
    hchain hstands (hstops.mono (Nat.le_succ _))
  have hend : (place.past (lead ++ (run ++ trail))).Sees text after := by
    rw [Position.past_append, Position.past_append]
    exact hstands.sees.past.past.past
  have hsteps := many_matches_of_moves hmoves (step_misses hend hstops)
  have hmatches := matches_of_row tier.rule_form (.cons hfirst (.single hsteps)) rfl
  rw [tier.rule_finishValue] at hmatches
  rw [← hvalue]
  exact hstands.ready.matches_rule tier.rule_isRule hmatches

/-- What binds more tightly than a tier is an operand of it. -/
theorem Taken.chain
    (htaken : Taken (ruleAt (tier.rank + 1)) (Stops (tier.rank + 1)) run expression) :
    Chain tier run expression := by
  intro text multiline scope place lead trail after hstands hstops
  exact .start hstands.ready (htaken hstands hstops)

/-- An operator is matched, and told to the message about a missing operand. -/
theorem operator_matches (operator : Operator) (hready : Ready multiline scope)
    (hsees : place.Sees text (operator.text ++ rest)) (hrest : Unoperated rest) :
    ∃ inner, Ready multiline inner ∧
      (((choice (operator.tier.operators.map Operator.spelling |>.map literal)).map
        fun raw => .text raw.spelling).capture "last_op").Matches text scope place
        ⟨.text operator.spelling, place.past operator.text, inner⟩ := by
  have hfind : (operator.tier.operators.map Operator.spelling).find?
      (fun word => word.toList.isPrefixOf (operator.text ++ rest)) =
        some operator.spelling := by
    rw [find?_operator operator _ hrest, Tier.find?_operators]
    rw [List.forall_mem_map]
    exact fun other _ => other.tail_text
  have hword := words_match scope hsees hfind
  have htext : ((choice (operator.tier.operators.map Operator.spelling |>.map literal)).map
      fun raw => .text raw.spelling).Matches text scope place
        ⟨.text operator.spelling, place.past operator.text, scope⟩ := by
    refine matches_iff.mpr ⟨_, matches_ofForm_iff.mp hword, ?_⟩
    have hspelled : (Value.token ⟨operator.spelling, place,
        place.past operator.spelling.toList⟩).spelling = operator.spelling := by
      rw [← String.toList_inj, Value.toList_spelling_token]
    exact congrArg (fun spelled => Match.mk (.text spelled) _ scope) hspelled
  exact ⟨_, hready.bind (by decide) _, matches_capture_iff.mpr ⟨_, htext, rfl⟩⟩

/-- An operator and an operand to its right, with blanks between them, are a step of their
tier. -/
theorem step_matches {operator : Operator} {right : Expression} {blanks : List Char}
    (htaken : Taken (ruleAt (operator.tier.rank + 1)) (Stops (operator.tier.rank + 1)) run right)
    (hsees : place.Sees text (operator.text ++ (blanks ++ (run ++ (trail ++ after)))))
    (hrest : Unoperated (blanks ++ (run ++ (trail ++ after))))
    (hstops : Stops (operator.tier.rank + 1) after)
    (hstands : ∀ inner, Ready multiline inner →
      Stands text multiline inner (place.past operator.text) blanks run trail after)
    (hready : Ready multiline scope) :
    ∃ inner, Ready multiline inner ∧ operator.tier.step.Matches text scope place
      ⟨.list [.text operator.spelling, right.node place.line],
        place.past (operator.text ++ (blanks ++ (run ++ trail))), inner⟩ := by
  obtain ⟨inner, hinner, hoperator⟩ := operator_matches operator hready hsees hrest
  have hoperand := htaken (hstands inner hinner) hstops
  rw [line_past_of_oneLine _ operator.oneLine] at hoperand
  rw [Position.past_append]
  exact ⟨inner, hinner, matches_of_row rfl
    (.cons hoperator (.single (matches_demand_iff.mpr hoperand))) rfl⟩

section Operation

variable {leftRun rightRun : List Char} {gap : Gap} {operator : Operator}

/-- Nothing after an operator goes on with it. -/
theorem unoperated_right (hright : ∀ {after}, EndsWord after → Opens (rightRun ++ after))
    (hends : EndsWord (trail ++ after)) :
    Unoperated (gap.after ++ (rightRun ++ (trail ++ after))) :=
  gap.blankAfter.unoperated_append (hright hends).unoperated

/-- Where an operation stands, its left operand stands before the operator. -/
theorem Stands.left (hstands : Stands text multiline scope place lead
      (leftRun ++ (gap.before ++ (operator.text ++ (gap.after ++ rightRun)))) trail after) :
    Stands text multiline scope place lead leftRun gap.before
      (operator.text ++ (gap.after ++ (rightRun ++ (trail ++ after)))) := by
  refine ⟨hstands.fits, hstands.ready, hstands.leads, gap.blankBefore, ?_,
    operator.unblank _ _, gap.blankBefore.endsWord_append (operator.endsWord _)⟩
  simpa only [List.append_assoc] using hstands.sees

/-- One more operator, and the operand to its right. -/
theorem Chain.operation {left right : Expression} (gap : Gap)
    (hchain : Chain operator.tier leftRun left) (hline : '\n' ∉ leftRun)
    (htaken : Taken (ruleAt (operator.tier.rank + 1)) (Stops (operator.tier.rank + 1)) rightRun
      right) (hright : ∀ {after}, EndsWord after → Opens (rightRun ++ after)) :
    Chain operator.tier
      (leftRun ++ (gap.before ++ (operator.text ++ (gap.after ++ rightRun))))
      (.operation left gap operator right) := by
  intro text multiline scope place lead trail after hstands hstops
  have hrest : Unoperated (gap.after ++ (rightRun ++ (trail ++ after))) :=
    unoperated_right hright hstands.ends
  have hleft := hstands.left
  have hseen := hleft.sees.past.past.past
  rw [← Position.past_append, ← Position.past_append] at hseen
  have hstop : place.past (lead ++ ((leftRun ++ (gap.before ++ (operator.text ++
      (gap.after ++ rightRun)))) ++ trail)) =
      (place.past (lead ++ (leftRun ++ gap.before))).past
        (operator.text ++ (gap.after ++ (rightRun ++ trail))) := by
    rw [← Position.past_append]
    simp only [List.append_assoc]
  have hlines : (place.past (lead ++ (leftRun ++ gap.before))).line = place.line :=
    line_past_of_oneLine place
      (by simp [hstands.leads.oneLine, hline, gap.blankBefore.oneLine])
  -- The left operand takes the blanks before the operator, and the right one those after it.
  rw [hstop]
  obtain ⟨within, hwithin, hextend⟩ := (hchain hleft (operator.stops hrest)).extend
  obtain ⟨inner, hinner, hstep⟩ := step_matches htaken hseen hrest hstops
    (fun inner hinner => ⟨hstands.fits, hinner, gap.blankAfter, hstands.trails, hseen.past,
      hstands.unblank, hstands.ends⟩) hwithin
  have hmoved : ((place.past (lead ++ (leftRun ++ gap.before))).past
      (operator.text ++ (gap.after ++ (rightRun ++ trail)))).offset ≠
        (place.past (lead ++ (leftRun ++ gap.before))).offset := by
    obtain ⟨c, more, htext, -⟩ := operator.head_text
    exact Position.offset_past_ne _ (by simp [htext])
  have hgathered := hextend _ _ _ hstep hinner hmoved
  rw [hlines, applyOperator, nodeFrom, Expression.lineOrZero_node] at hgathered
  rw [Expression.node]
  exact hgathered

end Operation

/-- A postfix operation. -/
def postfixStep : Pattern :=
  choice [attributeAccess, call, index]

theorem postfixed_isRule : IsRule (ruleAt postfixRank) postfixed :=
  ⟨by decide, rfl⟩

theorem postfixed_form :
    postfixed.form =
      .sequence [named "PRIMARY", postfixStep.many, named "SPACES"] (some [0, 1]) :=
  rfl

theorem postfixed_finishValue (raw : Value) : postfixed.finishValue raw = foldPostfix raw :=
  rfl

/-- A run is taken as a primary with postfix operations after it, wherever it stands. Blanks
after an operation may be left for the rule to take. -/
def PostfixChain (numeric : Bool) (run : List Char) (expression : Expression) : Prop :=
  ∀ ⦃text : String⦄ ⦃multiline : Bool⦄ ⦃scope : Scope⦄ ⦃place : Position⦄
    ⦃lead trail after : List Char⦄, Stands text multiline scope place lead run trail after →
    Pointless numeric after →
    ∃ taken left, trail = taken ++ left ∧
      Gathered text multiline (named "PRIMARY") postfixStep applyPostfix scope place
        (expression.node place.line) (place.past (lead ++ (run ++ taken)))

theorem Taken.postfixChain {numeric : Bool}
    (htaken : Taken "PRIMARY" (Pointless numeric) run expression) :
    PostfixChain numeric run expression := by
  intro text multiline scope place lead trail after hstands hpoint
  exact ⟨trail, [], (List.append_nil _).symm, .start hstands.ready (htaken hstands hpoint)⟩

theorem attributeAccess_form :
    attributeAccess.form = .sequence
      [literal ".", (spaced (named "IDENTIFIER")).demand
        "expected an attribute name on line \x7bline\x7d"] none :=
  rfl

theorem postfixStep_misses (hsees : place.Sees text rest)
    (hrest : ∀ c ∈ rest.head?, c ≠ '.' ∧ c ≠ '(' ∧ c ≠ '[') :
    postfixStep.Misses text scope place := by
  have hattribute : attributeAccess.Misses text scope place :=
    misses_of_row attributeAccess_form
      (rowMisses_of_first (literal_misses_of_head hsees rfl fun c hc => (hrest c hc).1))
  have hcall : call.Misses text scope place :=
    around_misses .tuple hsees fun c hc => (hrest c hc).2.1
  have hindex : index.Misses text scope place :=
    around_misses .list hsees fun c hc => (hrest c hc).2.2
  exact choice_misses (by simp [hattribute, hcall, hindex])

/-- A primary and its postfix operations are what the rule for them takes. -/
theorem PostfixChain.taken {numeric : Bool} (hchain : PostfixChain numeric run expression) :
    Taken (ruleAt postfixRank) (Stops postfixRank) run expression := by
  intro text multiline scope place lead trail after hstands hstops
  obtain ⟨taken, left, rfl, begun, middle, steps, inner, hfirst, hmoves, hready, hvalue⟩ :=
    hchain hstands fun _ c hc => (hstops.noPostfix c hc).1
  obtain ⟨htaken, hleft⟩ : Blank taken ∧ Blank left :=
    ⟨fun c hc => hstands.trails c (List.mem_append_left _ hc),
      fun c hc => hstands.trails c (List.mem_append_right _ hc)⟩
  have hseen : (place.past (lead ++ (run ++ taken))).Sees text (left ++ after) := by
    have hsees := hstands.sees
    rw [List.append_assoc taken] at hsees
    rw [Position.past_append, Position.past_append]
    exact hsees.past.past.past
  have hmisses : postfixStep.Misses text inner (place.past (lead ++ (run ++ taken))) := by
    apply postfixStep_misses hseen
    cases left with
    | nil => exact hstops.noPostfix
    | cons c more =>
        rintro d ⟨⟩
        rcases hleft c List.mem_cons_self with rfl | rfl <;> decide
  obtain ⟨last, hlast⟩ := blanks_match hready hseen hleft hstands.unblank
  have hmatches := matches_of_row postfixed_form
    (.cons hfirst (.cons (many_matches_of_moves hmoves hmisses) (.single hlast))) rfl
  rw [postfixed_finishValue, ← Position.past_append] at hmatches
  rw [← hvalue, ← List.append_assoc run, ← List.append_assoc lead]
  exact hstands.ready.matches_rule postfixed_isRule hmatches

/-- A run applies a postfix operation to whatever stands before it. -/
structure Suffix (run : List Char) (target result : Expression) : Prop where
  head : ∃ c more, run = c :: more ∧ (c = '.' ∨ c = '(' ∨ c = '[')
  taken : ∀ ⦃text : String⦄ ⦃multiline : Bool⦄ ⦃scope : Scope⦄ ⦃place : Position⦄
    ⦃trail after : List Char⦄, Stands text multiline scope place [] run trail after →
    ∃ taken left further inner, trail = taken ++ left ∧ Ready multiline inner ∧
      postfixStep.Matches text scope place ⟨further, place.past (run ++ taken), inner⟩ ∧
      applyPostfix (target.node place.line) further = result.node place.line

theorem Suffix.head_append {target result : Expression} (hsuffix : Suffix run target result)
    (rest : List Char) :
    ∀ c ∈ (run ++ rest).head?, isNameChar c = false ∧ c ∉ blankStarts := by
  obtain ⟨c, more, rfl, hc⟩ := hsuffix.head
  rcases hc with rfl | rfl | rfl <;> rintro d ⟨⟩ <;> decide

theorem PostfixChain.snoc {numeric : Bool} {suffix : List Char} {result : Expression}
    (hchain : PostfixChain numeric run expression) (hline : '\n' ∉ run)
    (hsuffix : Suffix suffix expression result) (hpoint : Pointless numeric suffix) :
    PostfixChain false (run ++ suffix) result := by
  intro text multiline scope place lead trail after hstands _
  have hhead := hsuffix.head_append (trail ++ after)
  have hstart : Stands text multiline scope place lead run [] (suffix ++ (trail ++ after)) := by
    refine ⟨hstands.fits, hstands.ready, hstands.leads, List.forall_mem_nil _, ?_,
      unblank_of_head (fun c hc => (hhead c hc).2) _, fun c hc => (hhead c hc).1⟩
    simpa only [List.append_assoc, List.nil_append] using hstands.sees
  have hnext : Pointless numeric (suffix ++ (trail ++ after)) := by
    obtain ⟨c, more, rfl, -⟩ := hsuffix.head
    exact hpoint
  -- Between the run and the operation there are no blanks, so none are left over there.
  obtain ⟨taken, left, hnothing, hgathered⟩ := hchain hstart hnext
  obtain ⟨rfl, rfl⟩ := List.append_eq_nil_iff.mp hnothing.symm
  rw [List.append_nil] at hgathered
  have hseen : (place.past (lead ++ run)).Sees text ([] ++ (suffix ++ (trail ++ after))) := by
    rw [Position.past_append]
    exact hstart.sees.past.past
  have hlines : (place.past (lead ++ run)).line = place.line :=
    line_past_of_oneLine place (by simp [hstands.leads.oneLine, hline])
  obtain ⟨within, hwithin, hextend⟩ := hgathered.extend
  obtain ⟨taken, left, further, inner, rfl, hinner, hstep, hvalue⟩ :=
    hsuffix.taken ⟨hstands.fits, hwithin, List.forall_mem_nil _, hstands.trails, hseen,
      hstands.unblank, hstands.ends⟩
  have hmoved : ((place.past (lead ++ run)).past (suffix ++ taken)).offset ≠
      (place.past (lead ++ run)).offset := by
    obtain ⟨c, more, rfl, -⟩ := hsuffix.head
    exact Position.offset_past_ne _ (List.cons_ne_nil _ _)
  have hlast := hextend _ _ _ hstep hinner hmoved
  rw [hlines] at hvalue
  rw [hvalue, ← Position.past_append] at hlast
  refine ⟨taken, left, rfl, ?_⟩
  simpa only [List.append_assoc] using hlast

theorem attributeAccess_finishValue (raw : Value) :
    attributeAccess.finishValue raw = attributeValue raw :=
  rfl

theorem attributeAccess_matches (word : Name)
    (hstands : Stands text multiline scope place [] ('.' :: word.text) trail after) :
    attributeAccess.Matches text scope place
      ⟨.node "getattr" place.line [.text (String.ofList word.text)],
        place.past ('.' :: word.text ++ trail), scope⟩ := by
  have hsees : place.Sees text (".".toList ++ (word.text ++ (trail ++ after))) := hstands.sees
  have hpoint : (literal ".").Matches text scope place
      ⟨.token ⟨".", place, place.past ".".toList⟩, place.past ".".toList, scope⟩ :=
    (matches_literal_iff hsees).mpr ⟨_, rfl, rfl⟩
  have hopens := (Expression.name word).opens_text hstands.ends
  rw [Expression.text] at hopens
  obtain ⟨first, hfirst⟩ := noBlanks_match hstands.ready hsees.past (hopens.unblank multiline)
  have hname := hstands.ready.matches_rule identifier_isRule
    (identifier_matches scope word hsees.past hstands.ends)
  obtain ⟨last, hlast⟩ := blanks_match hstands.ready hsees.past.past hstands.trails
    hstands.unblank
  have hspaced : (spaced (named "IDENTIFIER")).Matches text scope (place.past ".".toList)
      ⟨(Expression.name word).node (place.past ".".toList).line,
        ((place.past ".".toList).past word.text).past trail, scope⟩ :=
    matches_of_row rfl (.cons hfirst (.cons hname (.single hlast))) rfl
  have hattribute := matches_of_row attributeAccess_form
    (.cons hpoint (.single (matches_demand_iff.mpr hspaced))) rfl
  rw [attributeAccess_finishValue, attributeValue, nodeFrom, lineOrZero_list_token,
    Expression.node, ← Position.past_append, ← Position.past_append] at hattribute
  exact hattribute

/-- A point and a name take the attribute of what stands before them. -/
theorem suffix_attribute (target : Expression) (word : Name) :
    Suffix ('.' :: word.text) target (.attribute target word) := by
  refine ⟨⟨'.', word.text, rfl, .inl rfl⟩, ?_⟩
  intro text multiline scope place trail after hstands
  have hattribute := attributeAccess_matches word hstands
  refine ⟨trail, [], _, scope, (List.append_nil _).symm, hstands.ready,
    choice_matches (List.forall_mem_nil _) hattribute, ?_⟩
  rw [applyPostfix, Expression.node]

theorem not_opens {c : Char} (hc : opens c = false) :
    isNameChar c = false ∧ c ≠ '\'' ∧ c ≠ '"' ∧ c ≠ '(' ∧ c ≠ '[' ∧ c ≠ '\x7b' := by
  simpa [opens] using hc

/-- Where neither a name comes next nor another beginning, there is no primary. -/
theorem primary_misses_of_identifier (hready : Ready multiline scope)
    (hsees : place.Sees text (lead ++ rest)) (hlead : Blank lead)
    (hunblank : Unblank multiline rest)
    (hname : identifier.Misses text scope (place.past lead))
    (hrest : ∀ c ∈ rest.head?, Decimal.isDigit c = false ∧
      c ∉ ['.', '\'', '"', '(', '[', '\x7b']) :
    (named "PRIMARY").Misses text scope place := by
  simp only [List.mem_cons, List.not_mem_nil, or_false, not_or] at hrest
  obtain ⟨first, hfirst⟩ := blanks_match hready hsees hlead hunblank
  have hseen := hsees.past
  have hnumber := named_number_misses hready hseen fun c hc =>
    ⟨(hrest c hc).1, (hrest c hc).2.1⟩
  have hstring := named_string_misses hready hseen fun c hc =>
    ⟨(hrest c hc).2.2.1, (hrest c hc).2.2.2.1⟩
  have hword := hready.misses_rule identifier_isRule hname
  have htuple : (collection "(" ")" "tuple").Misses text scope (place.past lead) :=
    around_misses .tuple hseen fun c hc => (hrest c hc).2.2.2.2.1
  have hlist : (collection "[" "]" "list").Misses text scope (place.past lead) :=
    around_misses .list hseen fun c hc => (hrest c hc).2.2.2.2.2.1
  have hset : (collection "\x7b" "\x7d" "set").Misses text scope (place.past lead) :=
    around_misses .set hseen fun c hc => (hrest c hc).2.2.2.2.2.2
  have hchoice : primaryChoice.Misses text scope (place.past lead) :=
    choice_misses (by simp [hnumber, hstring, hword, htuple, hlist, hset])
  exact hready.misses_rule primary_isRule
    (misses_of_row primary_form (rowMisses_of_rest hfirst (rowMisses_of_first hchoice)))

theorem primary_misses (hready : Ready multiline scope) (hsees : place.Sees text (lead ++ rest))
    (hlead : Blank lead) (hunblank : Unblank multiline rest)
    (hrest : ∀ c ∈ rest.head?, opens c = false ∧ c ≠ '.') :
    (named "PRIMARY").Misses text scope place := by
  have hname : identifier.Misses text scope (place.past lead) :=
    identifier_misses hsees.past fun c hc =>
      (Bool.or_eq_false_iff.mp (not_opens (hrest c hc).1).1).1
  refine primary_misses_of_identifier hready hsees hlead hunblank hname fun c hc => ?_
  obtain ⟨hopens, hpoint⟩ := hrest c hc
  refine ⟨isDigit_of_isNameChar (not_opens hopens).1, ?_⟩
  simpa [hpoint] using (not_opens hopens).2

/-- Without a primary, there is nothing to be postfixed. -/
theorem postfixed_misses (hready : Ready multiline scope)
    (hprimary : (named "PRIMARY").Misses text scope place) :
    (named (ruleAt postfixRank)).Misses text scope place :=
  hready.misses_rule postfixed_isRule (misses_of_row postfixed_form (rowMisses_of_first hprimary))

/-- Without a primary, there is no expression. -/
theorem expression_misses_of_primary (hready : Ready multiline scope)
    (hprimary : (named "PRIMARY").Misses text scope place) :
    (named "EXPRESSION").Misses text scope place := by
  have htier (tier : Tier) (hoperand : (named (ruleAt (tier.rank + 1))).Misses text scope place) :
      (named (ruleAt tier.rank)).Misses text scope place :=
    hready.misses_rule tier.rule_isRule
      (misses_of_row tier.rule_form (rowMisses_of_first hoperand))
  exact htier .comparison (htier .sum (htier .product (htier .power
    (postfixed_misses hready hprimary))))

theorem expression_misses (hready : Ready multiline scope) (hsees : place.Sees text (lead ++ rest))
    (hlead : Blank lead) (hunblank : Unblank multiline rest)
    (hrest : ∀ c ∈ rest.head?, opens c = false ∧ c ≠ '.') :
    (named "EXPRESSION").Misses text scope place :=
  expression_misses_of_primary hready (primary_misses hready hsees hlead hunblank hrest)

end ScopedGrammar.Croco
