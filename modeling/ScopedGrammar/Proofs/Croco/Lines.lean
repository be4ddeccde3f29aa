/-
# Lines at a depth

A line of a block begins with the levels of indentation that the depth of the block asks for.
A line with fewer levels belongs to a block further out: all patterns that begin with the
indentation miss there, so the block ends. A line with as many levels is tried as an empty
line, as a header and as statements, in this order.
-/

import ScopedGrammar.Proofs.Croco.Scopes
import ScopedGrammar.Proofs.Croco.Statements

namespace ScopedGrammar.Croco

open Pattern

variable {text : String} {scope inner : Scope} {place : Position} {depth count : Nat}
  {levels : List Indent} {run rest content ending after : List Char} {node : Value}

/-- A level of indentation, as the grammar has it. -/
def indentLevel : Pattern :=
  choice [literal "    ", literal "\t"]

/-- Whether indentation does not go on. -/
def Unindented (rest : List Char) : Prop :=
  ∀ c ∈ rest.head?, c ≠ ' ' ∧ c ≠ '\t'

theorem Unblank.unindented {multiline : Bool} (hrest : Unblank multiline rest) :
    Unindented rest :=
  fun c hc => ⟨(hrest c hc).1, (hrest c hc).2.1⟩

theorem Indent.text_ne_nil (indent : Indent) : indent.text ≠ [] := by
  cases indent <;> exact List.cons_ne_nil _ _

theorem blank_margin (levels : List Indent) : Blank (margin levels) := by
  intro c hc
  have hindent : ∀ indent : Indent, Blank indent.text := by
    intro indent
    cases indent <;> decide
  obtain ⟨indent, -, hmem⟩ := List.mem_flatMap.mp hc
  exact hindent indent c hmem

theorem oneLine_margin (levels : List Indent) : '\n' ∉ margin levels :=
  (blank_margin levels).oneLine

theorem length_le_margin (levels : List Indent) : levels.length ≤ (margin levels).length := by
  induction levels with
  | nil => exact Nat.le_refl 0
  | cons indent rest ih =>
      have hsome := List.length_pos_iff.mpr indent.text_ne_nil
      rw [margin, List.flatMap_cons, List.length_append, List.length_cons, ← margin]
      omega

theorem indentLevel_matches (scope : Scope) (indent : Indent)
    (hsees : place.Sees text (indent.text ++ rest)) :
    ∃ value, indentLevel.Matches text scope place ⟨value, place.past indent.text, scope⟩ := by
  cases indent with
  | spaces =>
      obtain ⟨value, hspaces⟩ := literal_matches scope
        (show place.Sees text ("    ".toList ++ rest) from hsees)
      exact ⟨value, choice_matches (List.forall_mem_nil _) hspaces⟩
  | tab =>
      obtain ⟨value, htab⟩ := literal_matches scope
        (show place.Sees text ("\t".toList ++ rest) from hsees)
      have hspaces : (literal "    ").Misses text scope place :=
        literal_misses_of_head hsees rfl (by rintro c ⟨⟩; decide)
      have hbefore : ∀ option ∈ [literal "    "], option.Misses text scope place := by
        simpa using hspaces
      exact ⟨value, choice_matches hbefore htab⟩

/-- Whether no level of indentation comes next. -/
def Unlevelled (rest : List Char) : Prop :=
  ∀ indent : Indent, ¬ indent.text <+: rest

theorem Unindented.unlevelled (hrest : Unindented rest) : Unlevelled rest := by
  rintro indent ⟨more, rfl⟩
  cases indent with
  | spaces => exact (hrest ' ' rfl).1 rfl
  | tab => exact (hrest '\t' rfl).2 rfl

theorem indentLevel_misses (hsees : place.Sees text rest) (hrest : Unlevelled rest) :
    indentLevel.Misses text scope place := by
  have hspaces : (literal "    ").Misses text scope place := literal_misses hsees (hrest .spaces)
  have htab : (literal "\t").Misses text scope place := literal_misses hsees (hrest .tab)
  exact choice_misses (by simp [hspaces, htab])

/-- Levels of indentation are taken one by one, up to a count. -/
theorem margin_series (scope : Scope) (hsees : place.Sees text (margin levels ++ rest))
    (hrest : Unlevelled rest ∨ count + levels.length = depth)
    (hcount : count + levels.length ≤ depth) :
    ∃ values, values.length = levels.length ∧
      Series text indentLevel none (some depth) count scope place values
        (place.past (margin levels)) scope := by
  induction levels generalizing place count with
  | nil =>
      refine ⟨[], rfl, ?_⟩
      by_cases hfull : FullAt (some depth) count
      · exact .full hfull
      · have hmore : Unlevelled rest :=
          hrest.resolve_right fun hsame => hfull ⟨depth, rfl, hsame.ge⟩
        exact .missed hfull (rowMisses_part_iff.mpr (indentLevel_misses hsees hmore))
  | cons indent others ih =>
      have hopen : ¬ FullAt (some depth) count := by
        rintro ⟨limit, ⟨⟩, hle⟩
        rw [List.length_cons] at hcount
        omega
      have hsplit : place.Sees text (indent.text ++ (margin others ++ rest)) := by
        simpa only [margin, List.flatMap_cons, List.append_assoc] using hsees
      obtain ⟨value, hvalue⟩ := indentLevel_matches scope indent hsplit
      rw [List.length_cons] at hcount hrest
      obtain ⟨values, hlength, hseries⟩ := ih hsplit.past
        (hrest.imp_right fun hsame => by omega) (by omega : count + 1 + others.length ≤ depth)
      refine ⟨value :: values, congrArg (· + 1) hlength, ?_⟩
      rw [margin, List.flatMap_cons, ← margin, Position.past_append]
      exact .moved hopen (rowMatches_part_iff.mpr ⟨rfl, hvalue⟩)
        (Position.offset_past_ne _ indent.text_ne_nil) hseries

section Indentation

variable {multiline : Bool}

theorem indentation_rule (hlevel : Level multiline depth scope) :
    scope.rule? "INDENT" = some (indentation.labelled "INDENT") :=
  hlevel.rule?_eq (by decide) rfl

/-- As many levels as the depth asks for are an indentation. -/
theorem indentation_matches (hlevel : Level multiline depth scope)
    (hsees : place.Sees text (margin levels ++ rest)) (hrest : Unindented rest)
    (hlength : levels.length = depth) :
    ∃ value, (named "INDENT").Matches text scope place
      ⟨value, place.past (margin levels), scope⟩ := by
  have hfit : 0 + levels.length ≤ depth := by omega
  obtain ⟨values, hvalues, hseries⟩ := margin_series scope hsees (.inl hrest.unlevelled) hfit
  have hlevels : (indentLevel.times (.name "indent")).Matches text scope place
      ⟨.list values, place.past (margin levels), scope⟩ :=
    matches_ofForm_iff.mpr ((Form.matches_repetition_iff hlevel.counts.resolveBounds).mpr
      ⟨values, hseries, (hvalues.trans hlength).ge, rfl⟩)
  have hnoMore : (oneOf " \t").Misses text scope (place.past (margin levels)) :=
    class_misses hsees.past fun c hc => by simp [inClass, hrest c hc]
  exact ⟨_, (matches_named_iff (indentation_rule hlevel)).mpr
    ⟨_, (matches_labelled_iff "INDENT").mpr (matches_of_row rfl
      (.cons hlevels (.single (matches_demand_iff.mpr (notAhead_matches hnoMore)))) rfl), rfl⟩⟩

/-- Fewer levels than the depth asks for are none. -/
theorem indentation_misses (hlevel : Level multiline depth scope)
    (hsees : place.Sees text (margin levels ++ rest)) (hrest : Unlevelled rest)
    (hfew : levels.length < depth) : (named "INDENT").Misses text scope place := by
  have hfit : 0 + levels.length ≤ depth := by omega
  obtain ⟨values, hvalues, hseries⟩ := margin_series scope hsees (.inl hrest) hfit
  have hlevels : (indentLevel.times (.name "indent")).Misses text scope place :=
    misses_of_form (Form.repetition_misses hlevel.counts.resolveBounds hseries
      (hvalues ▸ hfew))
  exact named_misses (indentation_rule hlevel) (labelled_misses "INDENT"
    (misses_of_row rfl (rowMisses_of_first hlevels)))

end Indentation

/-- Whether something stands next that is neither blank nor a comment. -/
def Begins (content : List Char) : Prop :=
  ∃ c ∈ content.head?, c ∉ blankStarts

namespace Begins

theorem append (hrun : Begins run) (rest : List Char) : Begins (run ++ rest) := by
  obtain ⟨c, hc, hblank⟩ := hrun
  refine ⟨c, ?_, hblank⟩
  rw [List.head?_append, hc]
  rfl

theorem head (hrun : Begins run) : ∀ c ∈ run.head?, c ∉ blankStarts := by
  obtain ⟨c, hc, hblank⟩ := hrun
  intro d hd
  cases Option.mem_unique hc hd
  exact hblank

theorem ne_nil (hrun : Begins run) : run ≠ [] := by
  rintro rfl
  obtain ⟨c, hc, -⟩ := hrun
  cases hc

theorem unindented (hrun : Begins run) : Unindented run :=
  (unblank_of_head hrun.head true).unindented

end Begins

theorem Opens.begins (hopens : Opens rest) : Begins rest := by
  obtain ⟨c, more, rfl, hc⟩ := hopens.head
  have hall : ∀ d ∈ blankStarts, opens d = false := by decide
  refine ⟨c, rfl, fun hblank => ?_⟩
  rw [hall c hblank] at hc
  cases hc

/-- What comes next: the end of the text, or a line that is not empty. -/
structure Next (levels : List Indent) (content : List Char) : Prop where
  begins : ∀ c ∈ content.head?, c ∉ blankStarts
  ended : content = [] → levels = []

theorem Begins.next (hbegins : Begins content) (levels : List Indent) : Next levels content :=
  ⟨hbegins.head, fun hended => absurd hended hbegins.ne_nil⟩

theorem Next.unindented (hnext : Next levels content) : Unindented content :=
  (unblank_of_head hnext.begins true).unindented

/-- Whether a block at a depth has ended: the text ends, or a line comes next that is indented
less. -/
def Dedents (depth : Nat) (after : List Char) : Prop :=
  ∃ levels content, after = margin levels ++ content ∧ Next levels content ∧
    (content = [] ∨ levels.length < depth)

/-- Whether a statement at a depth has ended with its branches: the text ends, or a line comes
next that is not indented more and, at the same depth, is no branch. -/
def Follows (depth : Nat) (after : List Char) : Prop :=
  ∃ levels content, after = margin levels ++ content ∧ Next levels content ∧
    levels.length ≤ depth ∧ (levels.length = depth → Lacks ["elif", "else"] content)

theorem dedents_nil (depth : Nat) : Dedents depth [] :=
  ⟨[], [], rfl, ⟨nofun, fun _ => rfl⟩, .inl rfl⟩

theorem lacks_nil {words : List String} (hwords : ∀ word ∈ words, word.toList ≠ []) :
    Lacks words [] :=
  fun word hword _ hsplit => absurd (List.append_eq_nil_iff.mp hsplit.symm).1 (hwords word hword)

theorem Dedents.follows (hafter : Dedents depth after) : Follows depth after := by
  obtain ⟨levels, content, rfl, hnext, hless⟩ := hafter
  refine ⟨levels, content, rfl, hnext, ?_⟩
  rcases hless with hended | hless
  · rw [hnext.ended hended, hended]
    exact ⟨Nat.zero_le depth, fun _ => lacks_nil (by decide)⟩
  · exact ⟨hless.le, fun hsame => absurd hsame hless.ne⟩

theorem Follows.dedents (hafter : Follows depth after) : Dedents (depth + 1) after := by
  obtain ⟨levels, content, rfl, hnext, hle, -⟩ := hafter
  exact ⟨levels, content, rfl, hnext, .inr (Nat.lt_succ_of_le hle)⟩

/-- A line at the same depth that begins no branch follows. -/
theorem Begins.follows (hbegins : Begins content) (hlength : levels.length = depth)
    (hlacks : Lacks ["elif", "else"] content) : Follows depth (margin levels ++ content) :=
  ⟨levels, content, rfl, hbegins.next levels, hlength.le, fun _ => hlacks⟩

section Misses

variable {multiline : Bool} {header : Pattern}

theorem comment_optional_matches (hready : Ready multiline scope) (hsees : place.Sees text rest)
    (hrest : ∀ c ∈ rest.head?, c ≠ '#') :
    (named "COMMENT").optional.Matches text scope place ⟨.list [], place, scope⟩ :=
  matches_optional_iff.mpr
    (.inr ⟨hready.misses_rule comment_isRule (comment_misses hsees hrest), rfl⟩)

/-- Where something stands on a line, or nothing at the end of the text, there is no empty
line. -/
theorem emptyLine_misses (hready : Ready multiline scope)
    (hsees : place.Sees text (run ++ rest)) (hrun : Blank run) (hrest : Unblank true rest)
    (hended : rest = [] → run = []) : emptyLine.Misses text scope place := by
  have hblank : ∀ c ∈ run, inClass " \t".toList false c = true := fun c hc => by
    rcases hrun c hc with rfl | rfl <;> decide
  have hstops : ∀ c ∈ rest.head?, inClass " \t".toList false c = false := fun c hc => by
    simp [inClass, hrest c hc]
  have hblanks (least : Nat) (hleast : least ≤ run.length) (hword : least ≤ 1) :
      ((oneOf " \t").atLeast least).Matches text scope place
        ⟨.list (charTokens place run), place.past run, scope⟩ :=
    run_matches hsees (Match.resolveBounds_none (hword.trans (by decide))) hblank hstops hleast
  have hcomment := comment_optional_matches hready hsees.past
    fun c hc => ((hrest c hc).2.2.2 rfl).2.2
  have hnewline : (literal "\n").Misses text scope (place.past run) :=
    literal_misses_of_head hsees.past rfl fun c hc => ((hrest c hc).2.2.2 rfl).2.1
  have hfirst : (sequence [(oneOf " \t").many, (named "COMMENT").optional, literal "\n"]).Misses
      text scope place :=
    misses_of_row rfl (rowMisses_of_rest (hblanks 0 (Nat.zero_le _) (Nat.zero_le 1))
      (rowMisses_of_rest hcomment (rowMisses_of_first hnewline)))
  have hsecond : (sequence [(oneOf " \t").atLeast 1, finish]).Misses text scope place := by
    apply misses_of_row rfl
    by_cases hnone : run = []
    · subst hnone
      exact rowMisses_of_first
        (run_misses_of_head hsees (Match.resolveBounds_none (by decide)) Nat.one_pos hstops)
    · apply rowMisses_of_rest (hblanks 1 (List.length_pos_iff.mpr hnone) (Nat.le_refl 1))
      exact rowMisses_of_first (misses_of_form (Form.finish_misses hsees.past (mt hended hnone)))
  exact map_misses _ (misses_of_form
    (Form.choice_cons_misses hfirst (Form.choice_cons_misses hsecond Form.choice_nil_misses)))

theorem Next.emptyLine_misses (hnext : Next levels content) (hready : Ready multiline scope)
    (hsees : place.Sees text (margin levels ++ content)) :
    emptyLine.Misses text scope place :=
  Croco.emptyLine_misses hready hsees (blank_margin levels) (unblank_of_head hnext.begins true)
    fun hended => by rw [hnext.ended hended]; rfl

/-- A clause is missed where its indentation is, or else its header. -/
theorem clause_misses (hlevel : Level multiline depth scope)
    (hsees : place.Sees text (margin levels ++ content)) (hcontent : Unindented content)
    (hlength : levels.length ≤ depth)
    (hheader : levels.length = depth → header.Misses text scope (place.past (margin levels))) :
    (clause header).Misses text scope place := by
  rcases Nat.lt_or_eq_of_le hlength with hless | hsame
  · exact misses_of_row rfl
      (rowMisses_of_first (indentation_misses hlevel hsees hcontent.unlevelled hless))
  · obtain ⟨indent, hindent⟩ := indentation_matches hlevel hsees hcontent hsame
    exact misses_of_row rfl (rowMisses_of_rest hindent (rowMisses_of_first (hheader hsame)))

theorem condition_misses {word : String} (hmissed : (keyword word).Misses text scope place) :
    (condition word).Misses text scope place :=
  misses_of_row rfl (rowMisses_of_first hmissed)

/-- Where no word is next that begins a clause, no statement with clauses is. -/
theorem flow_misses (hlevel : Level multiline depth scope)
    (hsees : place.Sees text (margin levels ++ content)) (hcontent : Unindented content)
    (hlength : levels.length ≤ depth)
    (hheaders : levels.length = depth → Lacks ["if", "while", "for"] content) :
    flow.Misses text scope place := by
  refine misses_of_row rfl (rowMisses_of_first
    (clause_misses hlevel hsees hcontent hlength fun hsame => ?_))
  have hword (word : String) (hword : word ∈ ["if", "while", "for"]) :
      (keyword word).Misses text scope (place.past (margin levels)) :=
    keyword_misses hsees.past (hheaders hsame word hword)
  have hif := condition_misses (hword "if" (by decide))
  have hwhile := condition_misses (hword "while" (by decide))
  have hfor : forHeader.Misses text scope (place.past (margin levels)) :=
    misses_of_row rfl (rowMisses_of_first (hword "for" (by decide)))
  exact choice_misses (by simp [hif, hwhile, hfor])

theorem statements_miss (hlevel : Level multiline depth scope)
    (hstatement : statement.Misses text scope place) : statements.Misses text scope place := by
  have hrule : scope.rule? "STATEMENT" = some (statement.labelled "STATEMENT") :=
    hlevel.rule?_eq (by decide) rfl
  have hnamed : (named "STATEMENT").Misses text scope place :=
    named_misses hrule (labelled_misses _ hstatement)
  exact misses_of_form (Form.repetition_misses (Match.resolveBounds_none (by decide))
    (.missed not_fullAt_none (rowMisses_first_iff.mpr hnamed)) Nat.one_pos)

theorem simpleLine_misses (hlevel : Level multiline depth scope)
    (hsees : place.Sees text (margin levels ++ content)) (hcontent : Unindented content)
    (hlength : levels.length ≤ depth)
    (hstatement : levels.length = depth →
      statement.Misses text scope (place.past (margin levels))) :
    simpleLine.Misses text scope place := by
  rcases Nat.lt_or_eq_of_le hlength with hless | hsame
  · exact misses_of_row rfl
      (rowMisses_of_first (indentation_misses hlevel hsees hcontent.unlevelled hless))
  · obtain ⟨indent, hindent⟩ := indentation_matches hlevel hsees hcontent hsame
    exact misses_of_row rfl (rowMisses_of_rest hindent
      (rowMisses_of_first (statements_miss hlevel (hstatement hsame))))

end Misses

/-- A line of a block. -/
def line : Pattern :=
  choice [emptyLine, flow, simpleLine]

theorem line_form : line.form = .choice [emptyLine, flow, simpleLine] :=
  rfl

/-- Where a block has ended, no line of it comes next. -/
theorem line_misses (hlevel : Level false depth scope) (hsees : place.Sees text after)
    (hafter : Dedents depth after) : line.Misses text scope place := by
  obtain ⟨levels, content, rfl, hnext, hless⟩ := hafter
  have hempty := hnext.emptyLine_misses hlevel.ready hsees
  have hlength : levels.length ≤ depth := by
    rcases hless with hended | hless
    · rw [hnext.ended hended]
      exact Nat.zero_le depth
    · exact hless.le
  -- At the same depth, only the end of the text is left.
  have hended : levels.length = depth → content = [] := fun hsame =>
    hless.resolve_right fun hless => absurd hsame hless.ne
  have hflow : flow.Misses text scope place := by
    refine flow_misses hlevel hsees hnext.unindented hlength fun hsame => ?_
    rw [hended hsame]
    exact lacks_nil (by decide)
  have hsimple : simpleLine.Misses text scope place := by
    refine simpleLine_misses hlevel hsees hnext.unindented hlength fun hsame => ?_
    refine statement_misses hlevel.ready hsees.past fun c hc => ?_
    rw [hended hsame] at hc
    cases hc
  exact choice_misses (by simp [hempty, hflow, hsimple])

/-- Whether a line ends: with a newline, or with the text. -/
def EndsLine (ending after : List Char) : Prop :=
  ending = ['\n'] ∨ ending = [] ∧ after = []

theorem EndsLine.head (hending : EndsLine ending after) :
    ∀ c ∈ (ending ++ after).head?, c = '\n' := by
  rcases hending with rfl | ⟨rfl, rfl⟩ <;> rintro c ⟨⟩
  rfl

theorem EndsLine.closers (hending : EndsLine ending after) :
    ∀ c ∈ (ending ++ after).head?, c ∈ closers := by
  intro c hc
  rw [hending.head c hc]
  decide

theorem lineEnd_matches (scope : Scope) (hending : EndsLine ending after)
    (hsees : place.Sees text (ending ++ after)) :
    ∃ value, lineEnd.Matches text scope place ⟨value, place.past ending, scope⟩ := by
  rcases hending with rfl | ⟨rfl, rfl⟩
  · obtain ⟨value, hnewline⟩ := literal_matches scope
      (show place.Sees text ("\n".toList ++ after) from hsees)
    exact ⟨value, matches_demand_iff.mpr (choice_matches (List.forall_mem_nil _) hnewline)⟩
  · have hnewline : (literal "\n").Misses text scope place :=
      literal_misses_of_head hsees rfl fun c hc => nomatch hc
    have hfinish : finish.Matches text scope place ⟨.endMark, place, scope⟩ :=
      matches_ofForm_iff.mpr ((Form.matches_finish_iff hsees).mpr ⟨rfl, rfl⟩)
    have hbefore : ∀ option ∈ [literal "\n"], option.Misses text scope place := by
      simpa using hnewline
    exact ⟨_, matches_demand_iff.mpr (choice_matches hbefore hfinish)⟩

/-- A statement that stands alone on its line is all there is. -/
theorem statements_match {multiline : Bool} (hlevel : Level multiline depth scope)
    (hstatement : statement.Matches text scope place ⟨node, place.past run, inner⟩)
    (hrun : run ≠ []) (hsees : place.Sees text (run ++ (ending ++ after)))
    (hending : EndsLine ending after) :
    statements.Matches text scope place ⟨.list [node], place.past run, scope⟩ := by
  have hrule : scope.rule? "STATEMENT" = some (statement.labelled "STATEMENT") :=
    hlevel.rule?_eq (by decide) rfl
  have hnamed : (named "STATEMENT").Matches text scope place ⟨node, place.past run, scope⟩ :=
    (matches_named_iff hrule).mpr ⟨_, (matches_labelled_iff _).mpr hstatement, rfl⟩
  have hsemicolon : (literal ";").Misses text scope (place.past run) := by
    apply literal_misses_of_head hsees.past rfl
    intro c hc
    rw [hending.head c hc]
    decide
  exact (matches_atLeast_iff (by decide)).mpr
    ⟨_, .moved not_fullAt_none (rowMatches_first_iff.mpr ⟨rfl, hnamed⟩)
      (Position.offset_past_ne _ hrun)
      (.missed not_fullAt_none (rowMisses_later_of_separator hsemicolon)), Nat.le_refl 1, rfl⟩

/-- A line with one statement is taken for it. -/
theorem line_matches_statement (hlevel : Level false depth scope) (hlength : levels.length = depth)
    (hstatement : statement.Matches text scope (place.past (margin levels))
      ⟨node, (place.past (margin levels)).past run, inner⟩)
    (hbegins : Begins run)
    (hheaders : Lacks ["if", "while", "for"] (run ++ (ending ++ after)))
    (hsees : place.Sees text (margin levels ++ (run ++ (ending ++ after))))
    (hending : EndsLine ending after) :
    line.Matches text scope place
      ⟨.list [node], place.past (margin levels ++ (run ++ ending)), scope⟩ := by
  have hrest := hbegins.append (ending ++ after)
  have hempty := (hrest.next levels).emptyLine_misses hlevel.ready hsees
  have hflow : flow.Misses text scope place :=
    flow_misses hlevel hsees hrest.unindented hlength.le fun _ => hheaders
  obtain ⟨indent, hindent⟩ := indentation_matches hlevel hsees hrest.unindented hlength
  have hstatements := statements_match hlevel hstatement hbegins.ne_nil hsees.past hending
  have hcomment := comment_optional_matches hlevel.ready hsees.past.past fun d hd => by
    rw [hending.head d hd]
    decide
  obtain ⟨last, hlast⟩ := lineEnd_matches scope hending hsees.past.past
  have hbefore : ∀ option ∈ [emptyLine, flow], option.Misses text scope place := by
    simp [hempty, hflow]
  rw [Position.past_append, Position.past_append]
  exact choice_matches hbefore (matches_of_row rfl
    (.cons hindent (.cons hstatements (.cons hcomment (.single hlast)))) rfl)

end ScopedGrammar.Croco
