/-
# Blocks are matched where they are written

A block is matched line by line in a scope with its depth, up to where it ends. The induction
is on its statements: after each of them comes another one at the same depth, or what comes
after the block. A statement with clauses has the same depth as its branches, and its bodies
are blocks one level deeper, so a line that begins no branch ends all the bodies before it,
and a branch hangs on the clause whose depth it has.
-/

import ScopedGrammar.Proofs.Croco.Clauses

namespace ScopedGrammar.Croco

open Pattern

variable {text : String} {scope : Scope} {place : Position} {style : Style}
  {depth : Nat} {levels : List Indent} {run rest ending after : List Char}

/-- The words that clauses begin with. -/
def clauseWords : List String :=
  ["if", "while", "for", "elif", "else"]

/-- A statement is a run on a line of its own, which begins no clause. -/
structure Simple (simple : Statement) (run : List Char) : Prop where
  text_eq : ∀ style depth line ending,
    simple.text style depth line ending = margin (style.levels line depth) ++ (run ++ ending)
  begins : Begins run
  oneLine : '\n' ∉ run
  lacks : ∀ {rest}, (∀ c ∈ rest.head?, c ∈ closers) → Lacks clauseWords (run ++ rest)
  taken : ∀ {text scope place rest}, text.length < offsetBound → Ready false scope →
    place.Sees text (run ++ rest) → (∀ c ∈ rest.head?, c ∈ closers) →
    statement.Matches text scope place ⟨simple.node place.line, place.past run, scope⟩

theorem simple_keyword {word : String} (hword : word ∈ ["break", "continue", "pass"]) :
    Simple (.keyword word hword) word.toList where
  text_eq _ _ _ _ := by rw [Statement.text]
  begins := by
    obtain ⟨c, hc, hbegins, -⟩ := head_statementWord word hword
    exact ⟨c, hc, hbegins⟩
  oneLine := by
    have hall : ∀ word ∈ ["break", "continue", "pass"], '\n' ∉ word.toList := by decide
    exact hall word hword
  lacks _ := by
    obtain ⟨c, hc, -, hothers⟩ := head_statementWord word hword
    have hapart : ∀ other ∈ clauseWords, other ∉ ["break", "continue", "pass"] := by decide
    refine lacks_of_head (List.mem_head?_append_of_mem_head? hc) fun other hother => ?_
    refine hothers other ?_ fun hsame => hapart other hother (hsame ▸ hword)
    revert other
    decide
  taken _ hready hsees hafter := by
    rw [Statement.node]
    exact statement_matches_keyword hword hready hsees hafter

theorem simple_assignment (target : Expression) {sign : String}
    (hsign : sign = "" ∨ sign ∈ inPlaceOperators) (gap : Gap) (value : Expression) :
    Simple (.assignment target sign hsign gap value)
      (target.targetText ++ (gap.before ++ (sign.toList ++
        ('=' :: (gap.after ++ value.text))))) where
  text_eq _ _ _ _ := by rw [Statement.text]
  begins := by
    have hopens := target.opens_targetText hsign gap value.text []
    rw [List.append_nil] at hopens
    exact hopens.begins
  oneLine := by
    simp [Expression.targetText, oneLine_enclosed target.oneLine, gap.blankBefore.oneLine,
      oneLine_sign hsign, gap.blankAfter.oneLine, value.oneLine]
  lacks _ := (target.opens_targetText hsign gap value.text _).unreserved.mono (by decide)
  taken hfits hready hsees hafter := by
    rw [Statement.node]
    exact statement_matches_assignment target value gap hsign hfits hready hsees hafter

theorem simple_expression (value : Expression) : Simple (.expression value) value.text where
  text_eq _ _ _ _ := by rw [Statement.text]
  begins := by
    have hends : EndsWord [] := fun _ hc => nomatch hc
    have hopens := value.opens_text hends
    rw [List.append_nil] at hopens
    exact hopens.begins
  oneLine := value.oneLine
  lacks hafter := (value.opens_text (endsWord_of_closer hafter)).unreserved.mono (by decide)
  taken hfits hready hsees hafter := by
    rw [Statement.node]
    exact statement_matches_expression value hfits hready hsees hafter

theorem Statement.simple_or_flow (statement : Statement) :
    (∃ run, Simple statement run) ∨
      ∃ header body branches, statement = .flow header body branches := by
  cases statement with
  | keyword word hword => exact .inl ⟨_, simple_keyword hword⟩
  | assignment target sign hsign gap value =>
      exact .inl ⟨_, simple_assignment target hsign gap value⟩
  | expression value => exact .inl ⟨_, simple_expression value⟩
  | flow header body branches => exact .inr ⟨header, body, branches, rfl⟩

@[simp]
theorem Style.length_levels (style : Style) (line depth : Nat) :
    (style.levels line depth).length = depth := by
  simp [levels]

theorem count_clauseText {body : List Char} (hrun : '\n' ∉ run) :
    (clauseText levels run body).count '\n' = 1 + body.count '\n' := by
  rw [clauseText, List.count_append, List.count_append,
    List.count_eq_zero.mpr (oneLine_margin levels), List.count_eq_zero.mpr hrun]
  simp [Nat.add_comm]

theorem Simple.count_text {simple : Statement} (hsimple : Simple simple run) (style : Style)
    (depth line : Nat) : (simple.text style depth line ['\n']).count '\n' = 1 := by
  rw [hsimple.text_eq, List.count_append, List.count_append,
    List.count_eq_zero.mpr (oneLine_margin _), List.count_eq_zero.mpr hsimple.oneLine]
  rfl

theorem Branches.endingBefore_newline (branches : Branches) :
    branches.endingBefore ['\n'] = ['\n'] := by
  cases branches <;> rfl

mutual

/-- A statement takes as many newlines as lines, if the last of them ends with one. -/
theorem Statement.count_text : ∀ (statement : Statement) (style : Style) (depth line : Nat),
    (statement.text style depth line ['\n']).count '\n' = statement.lines
  | .keyword word hword, style, depth, line => by
      rw [(simple_keyword hword).count_text, Statement.lines]
  | .assignment target sign hsign gap value, style, depth, line => by
      rw [(simple_assignment target hsign gap value).count_text, Statement.lines]
  | .expression value, style, depth, line => by
      rw [(simple_expression value).count_text, Statement.lines]
  | .flow header body branches, style, depth, line => by
      rw [Statement.text, Statement.lines, List.count_append, count_clauseText header.oneLine,
        branches.endingBefore_newline, body.count_text, branches.count_text]

theorem Block.count_text : ∀ (block : Block) (style : Style) (depth line : Nat),
    (block.text style depth line ['\n']).count '\n' = block.lines
  | .last statement, style, depth, line => by
      rw [Block.text, Block.lines, statement.count_text]
  | .more statement rest, style, depth, line => by
      rw [Block.text, Block.lines, List.count_append, statement.count_text, rest.count_text]

theorem Branches.count_text : ∀ (branches : Branches) (style : Style) (depth line : Nat),
    (branches.text style depth line ['\n']).count '\n' = branches.lines
  | .none, style, depth, line => by
      rw [Branches.text, Branches.lines, List.count_nil]
  | .last body, style, depth, line => by
      rw [Branches.text, Branches.lines, count_clauseText heads_last.oneLine, body.count_text]
  | .further guard body rest, style, depth, line => by
      rw [Branches.text, Branches.lines, List.count_append,
        count_clauseText (heads_further guard).oneLine, rest.endingBefore_newline,
        body.count_text, rest.count_text]

end

/-- A statement is no branch of the one before it. -/
theorem Simple.follows {simple : Statement} (hsimple : Simple simple run)
    (hending : EndsLine ending after) (style : Style) (depth line : Nat) :
    Follows depth (simple.text style depth line ending ++ after) := by
  rw [hsimple.text_eq, List.append_assoc, List.append_assoc]
  refine (hsimple.begins.append _).follows (style.length_levels line depth) ?_
  exact (hsimple.lacks hending.closers).mono (by decide)

theorem Statement.follows (statement : Statement) (hending : EndsLine ending after)
    (style : Style) (depth line : Nat) :
    Follows depth (statement.text style depth line ending ++ after) := by
  obtain ⟨run, hsimple⟩ | ⟨header, body, branches, rfl⟩ := statement.simple_or_flow
  · exact hsimple.follows hending style depth line
  · rw [Statement.text, clauseText]
    simp only [List.append_assoc]
    exact (header.begins.append _).follows (style.length_levels line depth) (header.lacks _)

theorem Block.follows (block : Block) (hending : EndsLine ending after) (style : Style)
    (depth line : Nat) : Follows depth (block.text style depth line ending ++ after) := by
  cases block with
  | last statement =>
      rw [Block.text]
      exact statement.follows hending style depth line
  | more statement rest =>
      rw [Block.text, List.append_assoc]
      exact statement.follows (.inl rfl) style depth line

theorem dedents_clause {body : List Char} (hlength : levels.length = depth)
    (hbegins : Begins run) : Dedents (depth + 1) (clauseText levels run body ++ after) := by
  rw [clauseText, List.append_assoc, List.append_assoc]
  have hnext := (hbegins.append (':' :: '\n' :: body ++ after)).next levels
  exact ⟨levels, _, rfl, hnext, .inr (hlength ▸ Nat.lt_succ_self _)⟩

/-- Branches are no part of the body before them. -/
theorem Branches.dedents (branches : Branches) (hafter : Follows depth after) (style : Style)
    (line : Nat) (ending : List Char) :
    Dedents (depth + 1) (branches.text style depth line ending ++ after) := by
  cases branches with
  | none =>
      rw [Branches.text]
      exact hafter.dedents
  | last body =>
      rw [Branches.text]
      exact dedents_clause (style.length_levels line depth) heads_last.begins
  | further guard body rest =>
      rw [Branches.text, List.append_assoc]
      exact dedents_clause (style.length_levels line depth) (heads_further guard).begins

theorem Branches.endsLine (branches : Branches) (hending : EndsLine ending after)
    (style : Style) (depth line : Nat) :
    EndsLine (branches.endingBefore ending) (branches.text style depth line ending ++ after) := by
  cases branches with
  | none =>
      rw [Branches.text]
      exact hending
  | last body => exact .inl rfl
  | further guard body rest => exact .inl rfl

theorem Statement.lineOrZero_node (statement : Statement) (line : Nat) :
    (statement.node line).lineOrZero = line := by
  cases statement with
  | expression value => rw [Statement.node, value.lineOrZero_node]
  | _ => rw [Statement.node]; rfl

/-- A block is on the line of its first statement. -/
theorem Block.line_nodes (block : Block) (line : Nat) :
    ((block.nodes line).head?.bind Value.line?).getD 0 = line := by
  cases block with
  | last statement => rw [Block.nodes]; exact statement.lineOrZero_node line
  | more statement rest => rw [Block.nodes]; exact statement.lineOrZero_node line

/-- Wherever a statement is next in a block, lines are taken for it. -/
def Statement.Read (statement : Statement) : Prop :=
  ∀ ⦃text : String⦄ ⦃scope : Scope⦄ ⦃place : Position⦄ ⦃style : Style⦄ ⦃depth : Nat⦄
    ⦃ending after : List Char⦄,
    Placed text depth scope place (statement.text style depth place.line ending) after →
    EndsLine ending after → Follows depth after →
    ∃ value, statementsOf value = [statement.node place.line] ∧
      line.Matches text scope place
        ⟨value, place.past (statement.text style depth place.line ending), scope⟩

/-- Wherever a block is next at its depth, lines are taken for its statements, and no others. -/
def Block.Read (block : Block) : Prop :=
  ∀ ⦃text : String⦄ ⦃scope : Scope⦄ ⦃place : Position⦄ ⦃style : Style⦄ ⦃depth : Nat⦄
    ⦃ending after : List Char⦄,
    Placed text depth scope place (block.text style depth place.line ending) after →
    EndsLine ending after → Dedents depth after →
    ∃ values, values ≠ [] ∧ values.flatMap statementsOf = block.nodes place.line ∧
      ∀ count, Series text line none none count scope place values
        (place.past (block.text style depth place.line ending)) scope

/-- Wherever branches are next at their depth, clauses are taken for them. Where there are
none, the line of the place need not have ended. -/
def Branches.Read (branches : Branches) : Prop :=
  ∀ ⦃text : String⦄ ⦃scope : Scope⦄ ⦃place : Position⦄ ⦃style : Style⦄ ⦃depth line : Nat⦄
    ⦃ending after : List Char⦄, (branches ≠ .none → place.line = line) →
    Placed text depth scope place (branches.text style depth line ending) after →
    EndsLine ending after → Follows depth after →
    Branched text scope place (branches.node? line)
      (place.past (branches.text style depth line ending))

/-- A block is read as the tree that it stands for. -/
theorem Block.Read.named {body : Block} (hread : body.Read)
    (hplaced : Placed text depth scope place (body.text style depth place.line ending) after)
    (hending : EndsLine ending after) (hafter : Dedents depth after) :
    (named "BLOCK").Matches text scope place
      ⟨body.node place.line, place.past (body.text style depth place.line ending), scope⟩ := by
  obtain ⟨values, hsome, hnodes, hseries⟩ := hread hplaced hending hafter
  have hrule : scope.rule? "BLOCK" = some (block.labelled "BLOCK") :=
    hplaced.level.rule?_eq (by decide) rfl
  have hlines : (line.atLeast 1).Matches text scope place
      ⟨.list values, place.past (body.text style depth place.line ending), scope⟩ :=
    (matches_atLeast_iff (by decide)).mpr
      ⟨values, hseries 0, List.length_pos_iff.mpr hsome, rfl⟩
  have hvalue : blockValue (.list values) = body.node place.line := by
    rw [blockValue, Value.items, hnodes, body.line_nodes, Block.node]
  rw [← hvalue]
  exact (matches_named_iff hrule).mpr ⟨_, (matches_labelled_iff _).mpr
    (matches_iff.mpr ⟨_, matches_ofForm_iff.mp hlines, rfl⟩), rfl⟩

theorem Simple.read {simple : Statement} (hsimple : Simple simple run) : simple.Read := by
  intro text scope place style depth ending after hplaced hending _
  rw [hsimple.text_eq] at hplaced ⊢
  have hlevel := hplaced.level
  have hsees : place.Sees text (margin (style.levels place.line depth) ++
      (run ++ (ending ++ after))) := by
    simpa only [List.append_assoc] using hplaced.sees
  have hstatement := hsimple.taken hplaced.fits hlevel.ready hsees.past hending.closers
  rw [line_past_of_oneLine place (oneLine_margin _)] at hstatement
  refine ⟨.list [simple.node place.line], rfl, ?_⟩
  exact line_matches_statement hlevel (style.length_levels _ _) hstatement hsimple.begins
    ((hsimple.lacks hending.closers).mono (by decide)) hsees hending

/-- A clause is read with its body, if the body is. -/
theorem Block.Read.clause {header : Pattern} {body : Block} {kind : String}
    {children : Nat → List Value} (hread : body.Read) (hheads : Heads header run kind children)
    (hplaced : Placed text depth scope place
      (clauseText (style.levels place.line depth) run
        (body.text style (depth + 1) (place.line + 1) ending)) after)
    (hending : EndsLine ending after) (hafter : Dedents (depth + 1) after) :
    (clause header).Matches text scope place
      ⟨.node kind place.line (children place.line ++ [body.node (place.line + 1)]),
        place.past (clauseText (style.levels place.line depth) run
          (body.text style (depth + 1) (place.line + 1) ending)), scope⟩ := by
  have hline : (place.past (margin (style.levels place.line depth) ++
      (run ++ [':', '\n']))).line = place.line + 1 := by
    rw [Position.line_past, List.count_append, List.count_append,
      List.count_eq_zero.mpr (oneLine_margin _), List.count_eq_zero.mpr hheads.oneLine]
    rfl
  refine clause_matches hheads hplaced (style.length_levels _ _) fun inner hinner => ?_
  rw [← hline] at hinner ⊢
  exact hread.named hinner hending hafter

/-- After a clause, its branches are on the line that its body ends before. -/
theorem line_past_clauseText {body : Block} {branches : Branches} {line : Nat}
    (hrun : '\n' ∉ run) (hsome : branches ≠ .none) :
    (place.past (clauseText levels run
      (body.text style (depth + 1) line (branches.endingBefore ending)))).line =
      place.line + 1 + body.lines := by
  have hnewline : branches.endingBefore ending = ['\n'] := by
    cases branches with
    | none => exact absurd rfl hsome
    | last body => rfl
    | further guard body rest => rfl
  rw [Position.line_past, count_clauseText hrun, hnewline, body.count_text, Nat.add_assoc]

theorem Statement.Read.flow (header : Header) {body : Block} {branches : Branches}
    (hbody : body.Read) (hbranches : branches.Read) :
    (Statement.flow header body branches).Read := by
  intro text scope place style depth ending after hplaced hending hafter
  obtain ⟨levels, content, hcontent, hnext, -⟩ :=
    (Statement.flow header body branches).follows hending style depth place.line
  have hempty := hnext.emptyLine_misses hplaced.level.ready (hcontent ▸ hplaced.sees)
  rw [Statement.text] at hplaced ⊢
  -- To the body, its branches are a line further out; to the branches, the line is their own.
  have hclause := hbody.clause header.heads hplaced.front
    (branches.endsLine hending style depth _) (branches.dedents hafter style _ ending)
  have hbranched := hbranches (fun hsome => line_past_clauseText header.oneLine hsome)
    hplaced.past hending hafter
  have hflow := flow_matches hclause hbranched
  rw [← Position.past_append, List.append_assoc, List.singleton_append] at hflow
  rw [Statement.node]
  exact ⟨_, rfl, choice_matches (List.forall_mem_singleton.mpr hempty) hflow⟩

theorem Statement.text_ne_nil (statement : Statement) (style : Style) (depth line : Nat)
    (ending : List Char) : statement.text style depth line ending ≠ [] := by
  obtain ⟨run, hsimple⟩ | ⟨header, body, branches, rfl⟩ := statement.simple_or_flow
  · simp [hsimple.text_eq, hsimple.begins.ne_nil]
  · simp [Statement.text, clauseText]

/-- A statement is followed by the rest of its block. -/
theorem Statement.Read.series {first : Statement} {values : List Value} {stop : Position}
    (hread : first.Read)
    (hplaced : Placed text depth scope place (first.text style depth place.line ending) after)
    (hending : EndsLine ending after) (hafter : Follows depth after)
    (hrest : ∀ count, Series text line none none count scope
      (place.past (first.text style depth place.line ending)) values stop scope) :
    ∃ value, statementsOf value = [first.node place.line] ∧
      ∀ count, Series text line none none count scope place (value :: values) stop scope := by
  obtain ⟨value, hvalue, hline⟩ := hread hplaced hending hafter
  exact ⟨value, hvalue, fun count => .moved not_fullAt_none (rowMatches_part_iff.mpr ⟨rfl, hline⟩)
    (Position.offset_past_ne _ (first.text_ne_nil _ _ _ _)) (hrest (count + 1))⟩

theorem Block.Read.last {only : Statement} (honly : only.Read) : (Block.last only).Read := by
  intro text scope place style depth ending after hplaced hending hafter
  rw [Block.text] at hplaced ⊢
  have hended : line.Misses text scope (place.past (only.text style depth place.line ending)) :=
    line_misses hplaced.level hplaced.sees.past hafter
  obtain ⟨value, hvalue, hseries⟩ := honly.series hplaced hending hafter.follows
    fun count => .missed not_fullAt_none (rowMisses_part_iff.mpr hended)
  refine ⟨[value], List.cons_ne_nil _ _, ?_, hseries⟩
  rw [Block.nodes, List.flatMap_singleton, hvalue]

theorem Block.Read.more {first : Statement} {rest : Block} (hfirst : first.Read)
    (hrest : rest.Read) : (Block.more first rest).Read := by
  intro text scope place style depth ending after hplaced hending hafter
  rw [Block.text] at hplaced ⊢
  have hline : (place.past (first.text style depth place.line ['\n'])).line =
      place.line + first.lines := by
    rw [Position.line_past, first.count_text]
  -- The rest is written from the line on that the newlines before it count up to.
  have hplacedRest := hplaced.past
  rw [← hline] at hplacedRest
  obtain ⟨values, -, hnodes, hvalues⟩ := hrest hplacedRest hending hafter
  obtain ⟨value, hvalue, hseries⟩ := hfirst.series hplaced.front (.inl rfl)
    (rest.follows hending style depth _) hvalues
  refine ⟨value :: values, List.cons_ne_nil _ _, ?_, ?_⟩
  · rw [Block.nodes, List.flatMap_cons, hvalue, hnodes, hline, List.singleton_append]
  · rw [Position.past_append, ← hline]
    exact hseries

theorem lacks_further (rest : List Char) : Lacks ["elif"] ("else".toList ++ rest) := by
  rintro word hword after hsplit
  rw [List.mem_singleton.mp hword] at hsplit
  exact absurd hsplit (by simp)

theorem clauseText_ne_nil (levels : List Indent) (run body : List Char) :
    clauseText levels run body ≠ [] := by
  simp [clauseText]

theorem Branches.Read.none : Branches.none.Read := by
  intro text scope place style depth line ending after _ hplaced _ hafter
  rw [Branches.text] at hplaced ⊢
  rw [Branches.node?]
  exact .none
    (branches_miss hplaced.level hplaced.sees hafter (by decide) fun _ => condition_misses)
    (branches_miss hplaced.level hplaced.sees hafter (by decide) fun _ => map_misses _)

theorem Branches.Read.last {body : Block} (hbody : body.Read) : (Branches.last body).Read := by
  intro text scope place style depth line ending after hline hplaced hending hafter
  obtain rfl := hline nofun
  rw [Branches.text] at hplaced ⊢
  rw [Branches.node?, ← Block.node]
  have hlast := hbody.clause heads_last hplaced hending hafter.dedents
  have hsplit : place.Sees text (margin (style.levels place.line depth) ++ ("else".toList ++
      (':' :: '\n' :: body.text style (depth + 1) (place.line + 1) ending ++ after))) := by
    simpa only [clauseText, List.append_assoc] using hplaced.sees
  have hfurther : furtherClause.Misses text scope place := by
    refine clause_misses hplaced.level hsplit (heads_last.begins.append _).unindented
      (style.length_levels _ _).le fun _ => condition_misses ?_
    exact keyword_misses hsplit.past (lacks_further _ "elif" List.mem_cons_self)
  exact .last hfurther hlast

theorem Branches.Read.further (guard : Expression) {body : Block} {rest : Branches}
    (hbody : body.Read) (hrest : rest.Read) : (Branches.further guard body rest).Read := by
  intro text scope place style depth line ending after hline hplaced hending hafter
  obtain rfl := hline nofun
  rw [Branches.text] at hplaced ⊢
  rw [Branches.node?, ← Block.node]
  have hheads := heads_further guard
  have hfirst := hbody.clause hheads hplaced.front (rest.endsLine hending style depth _)
    (rest.dedents hafter style _ ending)
  have hbranched := hrest (fun hsome => line_past_clauseText hheads.oneLine hsome)
    hplaced.past hending hafter
  rw [Position.past_append]
  exact .further hfirst (Position.offset_past_ne _ (clauseText_ne_nil _ _ _)) hbranched

mutual

/-- Every statement is read where it is written. -/
theorem Statement.read : ∀ statement : Statement, statement.Read
  | .keyword _ hword => (simple_keyword hword).read
  | .assignment target _ hsign gap value => (simple_assignment target hsign gap value).read
  | .expression value => (simple_expression value).read
  | .flow header body branches => .flow header body.read branches.read

theorem Block.read : ∀ block : Block, block.Read
  | .last only => .last only.read
  | .more first rest => .more first.read rest.read

theorem Branches.read : ∀ branches : Branches, branches.Read
  | .none => .none
  | .last body => .last body.read
  | .further guard body rest => .further guard body.read rest.read

end

end ScopedGrammar.Croco
