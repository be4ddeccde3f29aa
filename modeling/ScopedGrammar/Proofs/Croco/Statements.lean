/-
# Statements on a line

Before a statement is taken for an expression, it is tried as a reserved word and as an
assignment. The target of an assignment is a primary with its postfix operations, which every
expression begins with. After it there is an operator, or the end of the expression. Some
operators may work in place, so they are taken once more for the operator of an assignment;
but then the sign `=` is missing, and where the operator itself is the sign of equality, the
sign of an assignment may not be taken for its beginning.
-/

import ScopedGrammar.Proofs.Croco.Blocks
import ScopedGrammar.Proofs.Croco.Precedence

namespace ScopedGrammar.Croco

open Pattern

variable {text : String} {multiline : Bool} {scope inner : Scope} {place stop : Position}
  {run rest after lead trail : List Char} {expression : Expression}

/-- A list that begins with an expression is on the line of the expression. -/
theorem Expression.lineOrZero_list_node (expression : Expression) (line : Nat)
    (others : List Value) : (Value.list (expression.node line :: others)).lineOrZero = line := by
  cases expression <;> simp [node, Value.lineOrZero, Value.line?, Value.lineOfList?]

theorem unblank_of_closer (hafter : ∀ c ∈ after.head?, c ∈ closers) : Unblank false after := by
  have hall : ∀ c ∈ closers, c ≠ ' ' ∧ c ≠ '\t' ∧ c ≠ '\\' := by decide
  exact fun c hc => ⟨(hall c (hafter c hc)).1, (hall c (hafter c hc)).2.1,
    (hall c (hafter c hc)).2.2, nofun⟩

/-- Where an expression ends, it stands alone. -/
theorem Expression.stands (expression : Expression) (hfits : text.length < offsetBound)
    (hready : Ready false scope) (hlead : Blank lead)
    (hsees : place.Sees text (lead ++ (expression.text ++ after)))
    (hafter : ∀ c ∈ after.head?, c ∈ closers) :
    Stands text false scope place lead expression.text [] after :=
  ⟨hfits, hready, hlead, List.forall_mem_nil _, hsees, unblank_of_closer hafter,
    endsWord_of_closer hafter⟩

theorem Expression.named_matches (expression : Expression) (hfits : text.length < offsetBound)
    (hready : Ready false scope) (hlead : Blank lead)
    (hsees : place.Sees text (lead ++ (expression.text ++ after)))
    (hafter : ∀ c ∈ after.head?, c ∈ closers) :
    (named "EXPRESSION").Matches text scope place
      ⟨expression.node place.line, place.past (lead ++ expression.text), scope⟩ := by
  have hstands := expression.stands hfits hready hlead hsees hafter
  have hmatches := expression.understood.whole hstands (stops_of_closer hafter)
  rwa [List.append_nil] at hmatches

/-- What begins an assignment or stands in the header of a loop is taken as a whole. -/
theorem Expression.target_matches (target : Expression) (hfits : text.length < offsetBound)
    (hready : Ready false scope) (hlead : Blank lead) (htrail : Blank trail)
    (hsees : place.Sees text (lead ++ (target.targetText ++ (trail ++ after))))
    (hunblank : Unblank false after) (hends : EndsWord (trail ++ after))
    (hclear : ∀ c ∈ after.head?, c ≠ '.' ∧ c ≠ '(' ∧ c ≠ '[') :
    (named "POSTFIX").Matches text scope place
      ⟨target.node place.line, place.past (lead ++ (target.targetText ++ trail)), scope⟩ := by
  have hstops : Stops postfixRank after :=
    ⟨hclear, fun operator hle => absurd operator.tier.rank_lt (Nat.not_lt.mpr hle)⟩
  have htaken := target.understood.operand (Nat.le_refl postfixRank) fun hnot =>
    (rank_of_not_enclosed hnot).ge
  exact htaken ⟨hfits, hready, hlead, htrail, hsees, hunblank, hends⟩ hstops

/-- Whether what is left is what comes after a run, or else begins with an operator. -/
def Proceeds (after rest : List Char) : Prop :=
  rest = after ∨ ∃ (operator : Operator) (more : List Char),
    rest = operator.text ++ more ∧ Unoperated more

/-- From the beginning of a run, a primary and its postfix operations are taken up to an
operator in the run, or up to its end. -/
def Fronted (run : List Char) : Prop :=
  ∀ ⦃text : String⦄ ⦃multiline : Bool⦄ ⦃scope : Scope⦄ ⦃place : Position⦄
    ⦃lead trail after : List Char⦄, Stands text multiline scope place lead run trail after →
    (∀ c ∈ after.head?, c ≠ '.' ∧ c ≠ '(' ∧ c ≠ '[') →
    ∃ value stop rest, (named "POSTFIX").Matches text scope place ⟨value, stop, scope⟩ ∧
      stop.Sees text rest ∧ Proceeds after rest

theorem Taken.fronted (htaken : Taken (ruleAt postfixRank) (Stops postfixRank) run expression) :
    Fronted run := by
  intro text multiline scope place lead trail after hstands hclear
  have hstops : Stops postfixRank after :=
    ⟨hclear, fun operator hle => absurd operator.tier.rank_lt (Nat.not_lt.mpr hle)⟩
  refine ⟨_, _, after, htaken hstands hstops, ?_, .inl rfl⟩
  rw [Position.past_append, Position.past_append]
  exact hstands.sees.past.past.past

theorem Fronted.operation {leftRun rightRun : List Char} {gap : Gap} {operator : Operator}
    (hleft : Fronted leftRun)
    (hright : ∀ {after}, EndsWord after → Opens (rightRun ++ after)) :
    Fronted (leftRun ++ (gap.before ++ (operator.text ++ (gap.after ++ rightRun)))) := by
  intro text multiline scope place lead trail after hstands _
  have hrest : Unoperated (gap.after ++ (rightRun ++ (trail ++ after))) :=
    unoperated_right hright hstands.ends
  obtain ⟨value, stop, rest, hmatches, hsees, hproceeds⟩ :=
    hleft hstands.left (operator.stops hrest).noPostfix
  refine ⟨value, stop, rest, hmatches, hsees, .inr ?_⟩
  rcases hproceeds with rfl | hproceeds
  · exact ⟨operator, _, rfl, hrest⟩
  · exact hproceeds

/-- Every expression is led by a primary and its postfix operations. -/
theorem Expression.fronted : ∀ expression : Expression, Fronted expression.text
  | .operation left gap operator right => by
      have hright {after : List Char} (hafter : EndsWord after) :
          Opens (enclosed (decide (right.rank ≤ operator.tier.rank)) right.text ++ after) :=
        opens_enclosed _ (right.opens_text hafter)
      rw [text]
      refine Fronted.operation ?_ hright
      cases decide (left.rank < operator.tier.rank) with
      | false => exact left.fronted
      | true => exact left.understood.enclosed_postfixChain.taken.fronted
  | .name word => ((Expression.name word).understood.postfixed rfl).taken.fronted
  | .number numeral => ((Expression.number numeral).understood.postfixed rfl).taken.fronted
  | .string quoted => ((Expression.string quoted).understood.postfixed rfl).taken.fronted
  | .collection bracket members gaps =>
      ((Expression.collection bracket members gaps).understood.postfixed rfl).taken.fronted
  | .attribute target word =>
      ((Expression.attribute target word).understood.postfixed rfl).taken.fronted
  | .call callee arguments gaps =>
      ((Expression.call callee arguments gaps).understood.postfixed rfl).taken.fronted
  | .index target position =>
      ((Expression.index target position).understood.postfixed rfl).taken.fronted

theorem assignment_form :
    ∃ message, assignment.form = .sequence
      [named "POSTFIX", (choice (inPlaceOperators.map literal)).optional, literal "=",
        (literal "=").notAhead, (named "EXPRESSION").demand message] none :=
  ⟨_, rfl⟩

/-- The operators that may work in place are the arithmetic ones, and each is tried before
those that it begins with. -/
theorem find?_inPlaceOperators (operator : Operator) :
    inPlaceOperators.find? (fun word => word.toList.isPrefixOf operator.text) =
      if operator.tier = .comparison then none else some operator.spelling := by
  cases operator <;> decide

theorem inPlace_takes_nothing (hsees : place.Sees text rest)
    (hnone : ∀ word ∈ inPlaceOperators, ¬ word.toList <+: rest) :
    (choice (inPlaceOperators.map literal)).optional.Matches text scope place
      ⟨.list [], place, scope⟩ :=
  matches_optional_iff.mpr (.inr ⟨words_miss hsees hnone, rfl⟩)

/-- The sign of an assignment is no sign of equality. -/
theorem sign_misses_equals (scope : Scope) (others : List Pattern)
    (hsees : place.Sees text ('=' :: '=' :: rest)) :
    RowMisses text (literal "=" :: (literal "=").notAhead :: others) scope place := by
  have hsign : place.Sees text ("=".toList ++ ("=".toList ++ rest)) := hsees
  obtain ⟨first, hfirst⟩ := literal_matches scope hsign
  obtain ⟨second, hsecond⟩ := literal_matches scope hsign.past
  exact rowMisses_of_rest hfirst (rowMisses_of_first (notAhead_misses hsecond))

/-- Where an operator stands, there is no sign of an assignment. -/
theorem sign_misses_operator (operator : Operator) (scope : Scope) (others : List Pattern)
    (hrest : Unoperated rest) (hsees : place.Sees text (operator.text ++ rest)) :
    RowMisses text ((choice (inPlaceOperators.map literal)).optional :: literal "=" ::
      (literal "=").notAhead :: others) scope place := by
  have htails : ∀ word ∈ inPlaceOperators, ∀ c ∈ word.toList.tail,
      c = '=' ∨ c = '*' ∨ c = '/' := by decide
  have hfind := (find?_operator operator htails hrest).trans (find?_inPlaceOperators operator)
  -- Comparisons do not work in place. Of the others, the operator is taken a second time.
  by_cases hcomparison : operator.tier = .comparison
  · rw [if_pos hcomparison] at hfind
    have hnone : ∀ word ∈ inPlaceOperators, ¬ word.toList <+: operator.text ++ rest := by
      simpa using hfind
    apply rowMisses_of_rest (inPlace_takes_nothing hsees hnone)
    by_cases hequals : operator = .equals
    · subst hequals
      exact sign_misses_equals scope others hsees
    · have hsign : ¬ "=".toList <+: operator.text ++ rest := by
        rw [← List.isPrefixOf_iff_prefix, isPrefixOf_operator operator (by decide) hrest]
        revert hequals
        cases operator <;> decide
      exact rowMisses_of_first (literal_misses hsees hsign)
  · rw [if_neg hcomparison] at hfind
    have hword : (choice (inPlaceOperators.map literal)).Matches text scope place
        ⟨_, place.past operator.text, scope⟩ := words_match scope hsees hfind
    apply rowMisses_of_rest (matches_optional_iff.mpr (.inl ⟨_, hword, rfl⟩))
    exact rowMisses_of_first
      (literal_misses_of_head hsees.past rfl fun c hc => (hrest c hc).1)

/-- What ends an expression is no sign of an assignment either. -/
theorem sign_misses_closer (scope : Scope) (others : List Pattern)
    (hsees : place.Sees text rest) (hrest : ∀ c ∈ rest.head?, c ∈ closers) :
    RowMisses text ((choice (inPlaceOperators.map literal)).optional :: literal "=" ::
      others) scope place := by
  have hheads : (inPlaceOperators.all fun word =>
      word.toList.head?.any fun c => !closers.contains c) = true := by decide
  have hnone : ∀ word ∈ inPlaceOperators, ¬ word.toList <+: rest := by
    intro word hword
    obtain ⟨c, hc, hother⟩ :=
      (Option.any_eq_true _ _).mp (List.all_eq_true.mp hheads word hword)
    apply not_prefix_of_head hc
    rintro d hd rfl
    simp [hrest d hd] at hother
  apply rowMisses_of_rest (inPlace_takes_nothing hsees hnone)
  apply rowMisses_of_first
  apply literal_misses_of_head hsees rfl
  rintro c hc rfl
  exact absurd (hrest _ hc) (by decide)

/-- An expression is no assignment. -/
theorem assignment_misses (hstands : Stands text multiline scope place lead expression.text
      trail after) (hafter : ∀ c ∈ after.head?, c ∈ closers) :
    assignment.Misses text scope place := by
  obtain ⟨message, hform⟩ := assignment_form
  obtain ⟨value, stop, rest, hmatches, hsees, hproceeds⟩ :=
    expression.fronted hstands (stops_of_closer hafter).noPostfix
  apply misses_of_row hform
  apply rowMisses_of_rest hmatches
  rcases hproceeds with rfl | ⟨operator, more, rfl, hmore⟩
  · exact sign_misses_closer scope _ hsees hafter
  · exact sign_misses_operator operator scope _ hmore hsees

/-- The characters that the sign of an assignment begins with. -/
def signStarts : List Char :=
  ['=', '/', '*', '+', '-', '%', '@', '|', '&']

theorem signStarts_apart : ∀ c ∈ signStarts, c ∉ blankStarts ∧ isNameChar c = false ∧
    c ≠ '.' ∧ c ≠ '(' ∧ c ≠ '[' := by
  decide

theorem head_sign {sign : String} (hsign : sign = "" ∨ sign ∈ inPlaceOperators)
    (rest : List Char) : ∀ c ∈ (sign.toList ++ ('=' :: rest)).head?, c ∈ signStarts := by
  rcases hsign with rfl | hsign
  · rintro c ⟨⟩
    decide
  · have hheads : ∀ word ∈ inPlaceOperators,
        word.toList ≠ [] ∧ ∀ c ∈ word.toList.head?, c ∈ signStarts := by decide
    rw [List.head?_append_of_ne_nil _ (hheads sign hsign).1]
    exact (hheads sign hsign).2

theorem oneLine_sign {sign : String} (hsign : sign = "" ∨ sign ∈ inPlaceOperators) :
    '\n' ∉ sign.toList := by
  rcases hsign with rfl | hsign
  · exact List.not_mem_nil
  · have hall : ∀ word ∈ inPlaceOperators, '\n' ∉ word.toList := by decide
    exact hall sign hsign

/-- An operator that works in place is found before the sign. -/
theorem find?_sign {sign : String} (hsign : sign ∈ inPlaceOperators) (rest : List Char) :
    inPlaceOperators.find? (fun word => word.toList.isPrefixOf (sign.toList ++ ('=' :: rest))) =
      some sign := by
  revert sign
  simp only [inPlaceOperators, List.forall_mem_cons]
  exact ⟨rfl, rfl, rfl, rfl, rfl, rfl, rfl, rfl, rfl, rfl, nofun⟩

theorem inPlace_matches {sign : String} (scope : Scope)
    (hsign : sign = "" ∨ sign ∈ inPlaceOperators)
    (hsees : place.Sees text (sign.toList ++ ('=' :: rest))) :
    ∃ value : Value, value.spelling = sign ∧
      (choice (inPlaceOperators.map literal)).optional.Matches text scope place
        ⟨value, place.past sign.toList, scope⟩ := by
  rcases hsign with rfl | hsign
  · have hnone : ∀ word ∈ inPlaceOperators, ¬ word.toList <+: '=' :: rest := by
      have hheads : ∀ word ∈ inPlaceOperators, word.toList.head? ≠ some '=' := by decide
      have hsome : ∀ word ∈ inPlaceOperators, word.toList ≠ [] := by decide
      rintro word hword ⟨further, hsplit⟩
      have hhead := congrArg List.head? hsplit
      rw [List.head?_append_of_ne_nil _ (hsome word hword)] at hhead
      exact hheads word hword hhead
    exact ⟨.list [], rfl, inPlace_takes_nothing hsees hnone⟩
  · have hword := words_match scope hsees (find?_sign hsign rest)
    refine ⟨_, ?_, matches_optional_iff.mpr (.inl ⟨_, hword, rfl⟩)⟩
    rw [← String.toList_inj, Value.toList_spelling_list]
    simp [Value.toList_spelling_token]

theorem assignment_finishValue (raw : Value) : assignment.finishValue raw = assignmentValue raw :=
  rfl

/-- The target of an assignment begins as expressions do. -/
theorem Expression.opens_targetText (target : Expression) {sign : String}
    (hsign : sign = "" ∨ sign ∈ inPlaceOperators) (gap : Gap) (value after : List Char) :
    Opens ((target.targetText ++ (gap.before ++ (sign.toList ++
      ('=' :: (gap.after ++ value))))) ++ after) := by
  have hends : EndsWord (gap.before ++ (sign.toList ++ ('=' :: (gap.after ++ (value ++ after))))) :=
    gap.blankBefore.endsWord_append fun c hc => (signStarts_apart c (head_sign hsign _ c hc)).2.1
  simpa only [targetText, List.append_assoc, List.cons_append] using
    opens_enclosed _ (target.opens_text hends)

/-- An assignment is matched up to the end of its value. -/
theorem assignment_matches (target value : Expression) (gap : Gap) {sign : String}
    (hsign : sign = "" ∨ sign ∈ inPlaceOperators) (hfits : text.length < offsetBound)
    (hready : Ready false scope)
    (hsees : place.Sees text ((target.targetText ++ (gap.before ++ (sign.toList ++
      ('=' :: (gap.after ++ value.text))))) ++ after))
    (hafter : ∀ c ∈ after.head?, c ∈ closers) :
    assignment.Matches text scope place
      ⟨.node "assign" place.line [target.node place.line, .text sign, value.node place.line],
        place.past (target.targetText ++ (gap.before ++ (sign.toList ++
          ('=' :: (gap.after ++ value.text))))), scope⟩ := by
  have hflat : place.Sees text (target.targetText ++ (gap.before ++ (sign.toList ++
      ('=' :: (gap.after ++ (value.text ++ after)))))) := by
    simpa only [List.append_assoc, List.cons_append] using hsees
  have hsplit : place.Sees text (target.targetText ++ (gap.before ++ (sign.toList ++
      ("=".toList ++ (gap.after ++ (value.text ++ after)))))) := hflat
  have hstart := head_sign hsign (gap.after ++ (value.text ++ after))
  have hapart := fun c hc => signStarts_apart c (hstart c hc)
  have htarget : (named "POSTFIX").Matches text scope place
      ⟨target.node place.line, (place.past target.targetText).past gap.before, scope⟩ := by
    rw [← Position.past_append]
    exact target.target_matches hfits hready (List.forall_mem_nil _) gap.blankBefore hsplit
      (unblank_of_head (fun c hc => (hapart c hc).1) false)
      (gap.blankBefore.endsWord_append fun c hc => (hapart c hc).2.1)
      fun c hc => (hapart c hc).2.2
  obtain ⟨taken, hspelled, htaken⟩ := inPlace_matches scope hsign hsplit.past.past
  obtain ⟨equal, hequal⟩ := literal_matches scope hsplit.past.past.past
  have hends := endsWord_of_closer hafter
  have hunoperated : Unoperated (gap.after ++ (value.text ++ after)) :=
    gap.blankAfter.unoperated_append (value.opens_text hends).unoperated
  have hsingle := (literal_misses_of_head hsplit.past.past.past.past rfl
    fun c hc => (hunoperated c hc).1 : (literal "=").Misses text scope _)
  have hnoEqual := notAhead_matches hsingle
  have hvalue := value.named_matches hfits hready gap.blankAfter hsplit.past.past.past.past hafter
  have hline : (place.past (target.targetText ++ (gap.before ++ (sign.toList ++
      "=".toList)))).line = place.line :=
    line_past_of_oneLine place (by
      simp [Expression.targetText, oneLine_enclosed target.oneLine, gap.blankBefore.oneLine,
        oneLine_sign hsign])
  obtain ⟨message, hform⟩ := assignment_form
  have hmatches := matches_of_row hform (.cons htarget (.cons htaken (.cons hequal
    (.cons hnoEqual (.single (matches_demand_iff.mpr hvalue)))))) rfl
  simp only [← Position.past_append, List.append_assoc] at hmatches
  rw [hline, assignment_finishValue, assignmentValue, nodeFrom,
    target.lineOrZero_list_node] at hmatches
  subst hspelled
  exact hmatches

/-- Where none of the words is next that are statements, no such statement is. -/
theorem keywordStatement_misses (hready : Ready multiline scope) (hsees : place.Sees text rest)
    (hunblank : Unblank multiline rest) (hrest : Lacks ["break", "continue", "pass"] rest) :
    (spaced keywordStatement).Misses text scope place := by
  obtain ⟨blanks, hblanks⟩ := noBlanks_match hready hsees hunblank
  have hwords : keywordStatement.Misses text scope place := by
    apply choice_misses
    rw [List.forall_mem_map]
    exact fun word hword => map_misses _ (keyword_misses hsees (hrest word hword))
  exact misses_of_row rfl (rowMisses_of_rest hblanks (rowMisses_of_first hwords))

/-- A word that is a statement begins as no other one does. -/
theorem head_statementWord : ∀ word ∈ ["break", "continue", "pass"],
    ∃ c ∈ word.toList.head?, c ∉ blankStarts ∧
      ∀ other ∈ ["break", "continue", "pass", "if", "elif", "else", "while", "for"],
        other ≠ word → ∃ d ∈ other.toList.head?, d ≠ c := by
  decide

theorem keywordStatement_matches {word : String} (hword : word ∈ ["break", "continue", "pass"])
    (scope : Scope) (hsees : place.Sees text (word.toList ++ after)) (hafter : EndsWord after) :
    keywordStatement.Matches text scope place
      ⟨.node word place.line [], place.past word.toList, scope⟩ := by
  obtain ⟨c, hc, -, hothers⟩ := head_statementWord word hword
  obtain ⟨front, back, hsplit, hfront⟩ := List.eq_append_cons_of_mem hword
  have hbefore : ∀ other ∈ front, (keyword other).Misses text scope place := by
    intro other hother
    have hdiffers : ∃ d ∈ other.toList.head?, d ≠ c := by
      refine hothers other ?_ (fun hsame => hfront (hsame ▸ hother))
      exact List.mem_append_left _ (hsplit ▸ List.mem_append_left _ hother)
    have hlacks : Lacks [other] (word.toList ++ after) :=
      lacks_of_head (List.mem_head?_append_of_mem_head? hc) (by simpa using hdiffers)
    exact keyword_misses hsees (hlacks other List.mem_cons_self)
  have hmatches :=
    map_matches (fun raw => nodeFrom word raw []) (keyword_matches scope hsees hafter)
  rw [keywordStatement, hsplit, List.map_append, List.map_cons]
  refine choice_matches ?_ hmatches
  rw [List.forall_mem_map]
  exact fun other hother => map_misses _ (hbefore other hother)

/-- A word that is a statement is matched as one. -/
theorem statement_matches_keyword {word : String} (hword : word ∈ ["break", "continue", "pass"])
    (hready : Ready false scope) (hsees : place.Sees text (word.toList ++ after))
    (hafter : ∀ c ∈ after.head?, c ∈ closers) :
    statement.Matches text scope place
      ⟨.node word place.line [], place.past word.toList, scope⟩ := by
  obtain ⟨c, hc, hunblank, -⟩ := head_statementWord word hword
  have hbegins : Unblank false (word.toList ++ after) := by
    refine unblank_of_head (fun d hd => ?_) false
    rw [List.head?_append, hc] at hd
    cases hd
    exact hunblank
  obtain ⟨first, hfirst⟩ := noBlanks_match hready hsees hbegins
  obtain ⟨last, hlast⟩ := noBlanks_match hready hsees.past (unblank_of_closer hafter)
  have hmatches := keywordStatement_matches hword scope hsees (endsWord_of_closer hafter)
  have hspaced : (spaced keywordStatement).Matches text scope place
      ⟨.node word place.line [], place.past word.toList, scope⟩ :=
    matches_of_row rfl (.cons hfirst (.cons hmatches (.single hlast))) rfl
  exact matches_ofForm_iff.mpr (Form.matches_choice_cons_iff.mpr (.inl hspaced))

/-- An assignment is a statement. -/
theorem statement_matches_assignment (target value : Expression) (gap : Gap) {sign : String}
    (hsign : sign = "" ∨ sign ∈ inPlaceOperators) (hfits : text.length < offsetBound)
    (hready : Ready false scope)
    (hsees : place.Sees text ((target.targetText ++ (gap.before ++ (sign.toList ++
      ('=' :: (gap.after ++ value.text))))) ++ after))
    (hafter : ∀ c ∈ after.head?, c ∈ closers) :
    statement.Matches text scope place
      ⟨.node "assign" place.line [target.node place.line, .text sign, value.node place.line],
        place.past (target.targetText ++ (gap.before ++ (sign.toList ++
          ('=' :: (gap.after ++ value.text))))), scope⟩ := by
  have hassignment := assignment_matches target value gap hsign hfits hready hsees hafter
  have hopens := target.opens_targetText hsign gap (value.text) after
  have hkeyword := keywordStatement_misses hready hsees (hopens.unblank false)
    (hopens.unreserved.mono (by decide))
  exact matches_ofForm_iff.mpr (Form.matches_choice_cons_iff.mpr
    (.inr ⟨hkeyword, Form.matches_choice_cons_iff.mpr (.inl hassignment)⟩))

/-- An expression is a statement. -/
theorem statement_matches_expression (expression : Expression)
    (hfits : text.length < offsetBound) (hready : Ready false scope)
    (hsees : place.Sees text (expression.text ++ after)) (hafter : ∀ c ∈ after.head?, c ∈ closers) :
    statement.Matches text scope place
      ⟨expression.node place.line, place.past expression.text, scope⟩ := by
  have hopens := expression.opens_text (endsWord_of_closer hafter)
  have hkeyword := keywordStatement_misses hready hsees (hopens.unblank false)
    (hopens.unreserved.mono (by decide))
  have hstands := expression.stands hfits hready (List.forall_mem_nil _) hsees hafter
  have hexpression := expression.named_matches hfits hready (List.forall_mem_nil _) hsees hafter
  have hbefore : ∀ option ∈ [spaced keywordStatement, assignment],
      option.Misses text scope place := by
    simp [hkeyword, assignment_misses hstands hafter]
  exact choice_matches hbefore hexpression

/-- Without a primary, there is no statement but a word. -/
theorem statement_misses_of_primary (hready : Ready false scope)
    (hkeyword : (spaced keywordStatement).Misses text scope place)
    (hprimary : (named "PRIMARY").Misses text scope place) :
    statement.Misses text scope place := by
  obtain ⟨message, hform⟩ := assignment_form
  have hassignment : assignment.Misses text scope place :=
    misses_of_row hform (rowMisses_of_first (postfixed_misses hready hprimary))
  have hexpression := expression_misses_of_primary hready hprimary
  exact choice_misses (by simp [hkeyword, hassignment, hexpression])

/-- Where a line or a text ends, or a comment begins, there is no statement. -/
theorem statement_misses (hready : Ready false scope) (hsees : place.Sees text rest)
    (hrest : ∀ c ∈ rest.head?, c = '\n' ∨ c = '#') : statement.Misses text scope place := by
  have hends : ∀ c ∈ rest.head?, isNameStart c = false ∧ opens c = false ∧ c ≠ '.' := by
    intro c hc
    rcases hrest c hc with rfl | rfl <;> decide
  have hunblank : Unblank false rest := by
    intro c hc
    rcases hrest c hc with rfl | rfl <;> decide
  have hnoBlanks : place.Sees text ([] ++ rest) := hsees
  have hreserved : Unreserved rest := unreserved_of_head fun c hc => (hends c hc).1
  exact statement_misses_of_primary hready
    (keywordStatement_misses hready hsees hunblank (hreserved.mono (by decide)))
    (primary_misses hready hnoBlanks (List.forall_mem_nil _) hunblank fun c hc => (hends c hc).2)

end ScopedGrammar.Croco
