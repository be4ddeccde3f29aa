/-
# Bodies have statements

A block below the root of a tree is the body of a clause: of the one whose header the node
above it is made of, or of the `else` clause right after that one. It is never without
statements, unless an empty line stands right below the colon and nothing but empty lines
follows up to where the body ends. The rule for lines wants at least one line of a nested
body and counts an empty one, which adds no statement; so such a header is accepted, and one
that anything else comes after is refused.
-/

import ScopedGrammar.Proofs.Croco.Parts

namespace ScopedGrammar.Croco

open Pattern

variable {text : String} {multiline : Bool} {depth line : Nat} {scope inner : Scope}
  {place stop here there : Position} {success : Match} {header : Pattern}
  {value body : Value} {values children own : List Value} {kind : String} {rest : List Char}
  {later : Option Value}

/-- A tree occurs in another: it is the other, or it occurs in a child of it. -/
inductive Occurs (tree : Value) : Value → Prop
  | whole : Occurs tree tree
  | child {kind : String} {line : Nat} {children : List Value} {child : Value}
      (mem : child ∈ children) (occurs : Occurs tree child) :
      Occurs tree (.node kind line children)

mutual

/-- Whether two trees of nodes, texts and whole numbers are the same, lines included. -/
def sameTree : Value → Value → Bool
  | .node kind line children, .node otherKind otherLine others =>
      kind == otherKind && line == otherLine && sameTrees children others
  | .text content, .text other => content == other
  | .int number, .int other => number == other
  | _, _ => false

/-- Whether two runs of such trees are the same. -/
def sameTrees : List Value → List Value → Bool
  | [], [] => true
  | first :: rest, other :: others => sameTree first other && sameTrees rest others
  | _, _ => false

end

mutual

theorem eq_of_sameTree : (tree other : Value) → sameTree tree other = true → tree = other
  | .node _ _ _, .node _ _ _, hsame => by
      simp only [sameTree, Bool.and_eq_true, beq_iff_eq] at hsame
      rw [hsame.1.1, hsame.1.2, eq_of_sameTrees _ _ hsame.2]
  | .text _, .text _, hsame => congrArg Value.text (beq_iff_eq.mp hsame)
  | .int _, .int _, hsame => congrArg Value.int (beq_iff_eq.mp hsame)

theorem eq_of_sameTrees : (trees others : List Value) → sameTrees trees others = true →
    trees = others
  | [], [], _ => rfl
  | _ :: _, _ :: _, hsame => by
      simp only [sameTrees, Bool.and_eq_true] at hsame
      rw [eq_of_sameTree _ _ hsame.1, eq_of_sameTrees _ _ hsame.2]

end

/-- Whether a program is accepted with a tree. -/
def yieldsTree (tree : Value) : Except Halt Value → Bool
  | .ok value => sameTree value tree
  | .error _ => false

theorem parse_eq_of_yieldsTree {tree : Value} (hyields : yieldsTree tree (parse text) = true) :
    parse text = .ok tree := by
  cases hparse : parse text with
  | ok value =>
      rw [hparse] at hyields
      rw [eq_of_sameTree value tree hyields]
  | error reason =>
      rw [hparse] at hyields
      cases hyields

/-- There is no block in a tree. -/
def Blockless (value : Value) : Prop :=
  ∀ ⦃line : Nat⦄ ⦃statements : List Value⦄, ¬ Occurs (.node "block" line statements) value

theorem blockless_node (hkind : kind ≠ "block") (hchildren : ∀ child ∈ children, Blockless child) :
    Blockless (.node kind line children) := by
  intro other statements hoccurs
  cases hoccurs with
  | whole => exact hkind rfl
  | child hmem hoccurs => exact hchildren _ hmem hoccurs

/-- What is no node has no blocks in it. -/
theorem blockless_leaf (hleaf : ∀ kind line children, value ≠ .node kind line children) :
    Blockless value := by
  intro line statements hoccurs
  cases hoccurs with
  | whole => exact hleaf _ _ _ rfl
  | child => exact hleaf _ _ _ rfl

theorem blockless_text (content : String) : Blockless (.text content) :=
  blockless_leaf fun _ _ _ => nofun

theorem IsNumber.blockless (hnumber : IsNumber value) : Blockless value := by
  cases hnumber <;> exact blockless_leaf fun _ _ _ => nofun

/-- A node without blocks in it. It may take a body for a further child. -/
def Extensible (value : Value) : Prop :=
  ∃ kind line children, value = .node kind line children ∧ kind ≠ "block" ∧
    ∀ child ∈ children, Blockless child

theorem Extensible.blockless (hvalue : Extensible value) : Blockless value := by
  obtain ⟨kind, line, children, rfl, hkind, hchildren⟩ := hvalue
  exact blockless_node hkind hchildren

/-- There are no blocks in expressions. -/
theorem IsExpression.extensible (hexpression : IsExpression value) : Extensible value := by
  induction hexpression with
  | name word => exact ⟨_, _, _, rfl, by decide, by simpa using blockless_text _⟩
  | number hvalue => exact ⟨_, _, _, rfl, by decide, by simpa using hvalue.blockless⟩
  | string content => exact ⟨_, _, _, rfl, by decide, by simpa using blockless_text content⟩
  | operation operator _ _ ihleft ihright =>
      refine ⟨_, _, _, rfl, ?_, by simp [blockless_text, ihleft.blockless, ihright.blockless]⟩
      cases operator <;> decide
  | collection bracket _ ih =>
      exact ⟨_, _, _, rfl, by cases bracket <;> decide, fun member hmember =>
        (ih member hmember).blockless⟩
  | access _ word ih => exact ⟨_, _, _, rfl, by decide, by simp [blockless_text, ih.blockless]⟩
  | call _ _ ihcallee iharguments =>
      exact ⟨_, _, _, rfl, by decide, List.forall_mem_cons.mpr ⟨ihcallee.blockless,
        fun argument hargument => (iharguments argument hargument).blockless⟩⟩
  | index _ _ ihobject ihposition =>
      exact ⟨_, _, _, rfl, by decide, by simp [ihobject.blockless, ihposition.blockless]⟩

/-- A clause of a text between two places: a margin, a header, a colon and a body, one right
after the other. The body begins below the colon. -/
def ClauseAt (text : String) (place : Position) (heading body : Value)
    (below stop : Position) : Prop :=
  ∃ header ∈ [headers, condition "elif", elseHeader], ∃ depth tabs mark here there,
    Takes text false depth (named "INDENT") place tabs here ∧
    Takes text false depth header here heading there ∧
    Takes text false depth colon there mark below ∧
    Takes text false depth (choice [inlineBody, nestedBody]) below body stop

/-- A child of a node is the body of a clause of the text: of the clause whose header the node
is, or of the `else` clause right after that one. -/
inductive BodyOf (text : String) (kind : String) (line : Nat) (children : List Value)
    (body : Value) (below stop : Position) : Prop
  | own {place : Position} {own others : List Value}
      (clause : ClauseAt text place (.node kind line own) body below stop)
      (children_eq : children = own ++ body :: others)
  | otherwise {place firstBelow middle : Position} {own : List Value} {first : Value}
      {elseLine : Nat} (clause : ClauseAt text place (.node kind line own) first firstBelow middle)
      (last : ClauseAt text middle (.node "else" elseLine []) body below stop)
      (children_eq : children = own ++ [first, body])

/-- Whether a line without a statement begins a text: one of blanks, possibly with a comment,
or blanks at the end of the text. -/
def startsEmpty (rest : List Char) : Bool :=
  match rest.dropWhile fun c => c == ' ' || c == '\t' with
  | [] => !rest.isEmpty
  | '#' :: note => note.contains '\n'
  | c :: _ => c == '\n'

/-- An empty line comes next, and nothing but empty lines up to another place. -/
def EmptyLines (text : String) (place stop : Position) : Prop :=
  startsEmpty (text.toList.drop place.offset) = true ∧ SkippedTo text place stop

/-- A line ends, an empty line stands right below it, and nothing but empty lines follows up
to a place. -/
structure EmptyBelow (text : String) (below stop : Position) : Prop where
  opens : ∃ lines, skip false false (text.toList.drop below.offset) = '\n' :: lines ∧
    startsEmpty lines = true
  skipped : SkippedTo text below stop

/-- What is left of a text after spaces and tabs decides whether an empty line begins it. -/
theorem startsEmpty_append {run after : List Char}
    (hrun : ∀ c ∈ run, inClass " \t".toList false c = true)
    (hafter : ∀ c ∈ after.head?, inClass " \t".toList false c = false)
    (hended : after = [] → run ≠ [])
    (hsome : ∀ c more, after = c :: more → c = '\n' ∨ c = '#' ∧ '\n' ∈ more) :
    startsEmpty (run ++ after) = true := by
  have hclass (c : Char) : inClass " \t".toList false c = (c == ' ' || c == '\t') := by
    simp [inClass, beq_eq_decide]
  have hleft : (run ++ after).dropWhile (fun c => c == ' ' || c == '\t') = after := by
    rw [List.dropWhile_append_of_pos fun c hc => (hclass c).symm.trans (hrun c hc)]
    cases after with
    | nil => rfl
    | cons c more =>
        exact List.dropWhile_cons_of_neg (by rw [← hclass, hafter c rfl]; decide)
  rw [startsEmpty, hleft]
  cases after with
  | nil => simpa using hended rfl
  | cons c more =>
      rcases hsome c more rfl with rfl | ⟨rfl, hnote⟩
      · rfl
      · simpa using hnote

theorem emptyLine_form :
    emptyLine.form = .choice
      [sequence [(oneOf " \t").many, (named "COMMENT").optional, literal "\n"],
        sequence [(oneOf " \t").atLeast 1, finish]] :=
  rfl

theorem comment_form :
    comment.form = .sequence [literal "#", (literal "\n").exclude.many] none :=
  rfl

/-- A comment is taken from its mark on, on one line. -/
theorem comment_taken (hready : Ready multiline scope)
    (hmatches : (named "COMMENT").Matches text scope place success) (hsees : place.Sees text rest) :
    ∃ note after, rest = '#' :: (note ++ after) ∧ '\n' ∉ note ∧
      success.position = place.past ('#' :: note) := by
  obtain ⟨_, hbody, -⟩ := (matches_named_iff (hready.rule?_eq comment_isRule)).mp hmatches
  obtain ⟨_, _, stop, _, hwords, -, hstop⟩ :=
    row_of_matches comment_form ((matches_labelled_iff _).mp hbody)
  rw [show success.position = stop from congrArg Match.position hstop]
  obtain ⟨mark, _, hmark, hrest, rfl⟩ := rowMatches_cons_iff.mp hwords
  obtain ⟨_, hmany, rfl⟩ := rowMatches_singleton_iff.mp hrest
  obtain ⟨more, rfl, rfl⟩ := (matches_literal_iff hsees).mp hmark
  have hend : Marks text scope (literal "\n") '\n' := marks_literal text scope rfl
  obtain ⟨note, after, rfl, hnote, -, hlast, -⟩ := excluded_run_split hend hmany hsees.past
  exact ⟨note, after, rfl, hnote, hlast.trans (Position.past_append ..).symm⟩

theorem optionalComment_taken (hready : Ready multiline scope)
    (hmatches : (named "COMMENT").optional.Matches text scope place success)
    (hsees : place.Sees text rest) :
    ∃ note after, rest = note ++ after ∧ success.position = place.past note ∧
      (note = [] ∨ ∃ content, note = '#' :: content ∧ '\n' ∉ content) := by
  rcases matches_optional_iff.mp hmatches with ⟨taken, hcomment, rfl⟩ | ⟨-, rfl⟩
  · obtain ⟨content, after, rfl, hcontent, hstop⟩ := comment_taken hready hcomment hsees
    exact ⟨'#' :: content, after, rfl, hstop, .inr ⟨content, rfl, hcontent⟩⟩
  · exact ⟨[], rest, rfl, rfl, .inl rfl⟩

theorem skippedTo_blanks {run after : List Char} (hsees : place.Sees text (run ++ after))
    (hrun : ∀ c ∈ run, inClass " \t".toList false c = true) :
    SkippedTo text place (place.past run) :=
  ⟨run, ⟨after, hsees, rfl⟩, skipped_blanks fun c hc =>
    isBlankChar_between ((inClass_blankChar false c).symm.trans (hrun c hc))⟩

/-- The end of a line is skipped with the comment before it. -/
theorem skippedTo_lineEnd {note after : List Char} (hnote : note = [] ∨ ∃ content,
    note = '#' :: content ∧ '\n' ∉ content) (hsees : place.Sees text (note ++ '\n' :: after)) :
    SkippedTo text place ((place.past note).past ['\n']) := by
  refine ⟨note ++ ['\n'], ⟨after, ?_, (Position.past_append ..).symm⟩, ?_⟩
  · rwa [List.append_assoc]
  · rcases hnote with rfl | ⟨content, rfl, hcontent⟩
    · exact skipped_blanks (by decide)
    · exact skipped_comment hcontent

/-- Blanks and a comment at most, with their newline. -/
theorem endedLine_taken (hready : Ready multiline scope)
    (hmatches : (sequence [(oneOf " \t").many, (named "COMMENT").optional,
      literal "\n"]).Matches text scope place success) :
    EmptyLines text place success.position := by
  have hsees : place.Sees text (text.toList.drop place.offset) := rfl
  obtain ⟨_, _, _, _, hrow, -, rfl⟩ := row_of_matches rfl hmatches
  obtain ⟨blanks, _, hblanks, hrest, rfl⟩ := rowMatches_cons_iff.mp hrow
  obtain ⟨comment, _, hcomment, hlast, rfl⟩ := rowMatches_cons_iff.mp hrest
  obtain ⟨_, hend, rfl⟩ := rowMatches_singleton_iff.mp hlast
  obtain ⟨run, after, hsplit, hrun, hafter, -, rfl⟩ :=
    run_split hsees (Match.resolveBounds_none (Nat.zero_le _)) hblanks
  rw [EmptyLines, hsplit]
  rw [hsplit] at hsees
  obtain ⟨note, left, rfl, hended, hnote⟩ := optionalComment_taken hready hcomment hsees.past
  rw [hended] at hend
  obtain ⟨more, rfl, hstop⟩ := (matches_literal_iff hsees.past.past).mp hend
  cases hstop
  refine ⟨startsEmpty_append hrun hafter (by simp) ?_,
    (skippedTo_blanks hsees hrun).trans (skippedTo_lineEnd hnote hsees.past)⟩
  rcases hnote with rfl | ⟨content, rfl, -⟩ <;> rintro _ _ ⟨⟩
  · exact .inl rfl
  · exact .inr ⟨rfl, by simp⟩

/-- Blanks at the end of the text. -/
theorem lastLine_taken
    (hmatches : (sequence [(oneOf " \t").atLeast 1, finish]).Matches text scope place success) :
    EmptyLines text place success.position := by
  have hsees : place.Sees text (text.toList.drop place.offset) := rfl
  obtain ⟨_, _, _, _, hrow, -, rfl⟩ := row_of_matches rfl hmatches
  obtain ⟨blanks, _, hblanks, hrest, rfl⟩ := rowMatches_cons_iff.mp hrow
  obtain ⟨_, hend, rfl⟩ := rowMatches_singleton_iff.mp hrest
  obtain ⟨run, after, hsplit, hrun, hafter, hleast, rfl⟩ :=
    run_split hsees (Match.resolveBounds_none (by decide)) hblanks
  rw [EmptyLines, hsplit]
  rw [hsplit] at hsees
  obtain ⟨rfl, hstop⟩ := (Form.matches_finish_iff hsees.past).mp (matches_ofForm_iff.mp hend)
  cases hstop
  exact ⟨startsEmpty_append hrun hafter (fun _ => List.ne_nil_of_length_pos hleast) nofun,
    skippedTo_blanks hsees hrun⟩

/-- An empty line is only taken where one is, and there is nothing but blanks and a comment
in it. -/
theorem emptyLine_taken (hready : Ready multiline scope)
    (hmatches : emptyLine.Matches text scope place success) :
    EmptyLines text place success.position := by
  obtain ⟨raw, hraw, rfl⟩ := matches_iff.mp hmatches
  change EmptyLines text place raw.position
  rw [emptyLine_form] at hraw
  rcases Form.matches_choice_cons_iff.mp hraw with hended | ⟨-, hmore⟩
  · exact endedLine_taken hready hended
  rcases Form.matches_choice_cons_iff.mp hmore with hlast | ⟨-, hnone⟩
  · exact lastLine_taken hlast
  · exact absurd hnone Form.not_matches_choice_nil

/-- A statement without clauses has no blocks in it. -/
theorem statement_yields_extensible (text : String) (steps : Nat) :
    Yields text steps statement Extensible := by
  have hrules := rules_keep text steps
  have hexpression := hrules.expression.weaken fun _ => IsExpression.extensible
  have htarget := (hrules.operand postfixRank).weaken fun _ => IsExpression.extensible
  have hwords : Yields text steps keywordStatement Extensible := by
    apply Keeps.choice
    rw [List.forall_mem_map]
    intro word hword
    have hkind : ∀ word ∈ ["break", "continue", "pass"], word ≠ "block" := by decide
    exact .map (keyword_keeps word) fun _ _ =>
      ⟨_, _, _, rfl, hkind word hword, List.forall_mem_nil _⟩
  have hassignment : Yields text steps assignment Extensible := by
    obtain ⟨message, hform⟩ := assignment_form
    have hsigns : ∀ option ∈ inPlaceOperators.map literal, Yields text steps option Anything := by
      rw [List.forall_mem_map]
      exact fun word _ => literal_keeps word
    have hsign : Yields text steps (choice (inPlaceOperators.map literal)).optional Anything :=
      (Keeps.choice hsigns).optional.weaken fun _ _ => trivial
    exact .row hform (.cons htarget (.cons hsign (.cons (literal_keeps "=")
      (.cons (.notAhead aligned_lasts (literal_keeps "=")) (.cons (.demand hexpression) .nil)))))
      fun
      | _, .cons htarget (.cons _ (.cons _ (.cons _ (.cons hvalue .nil)))) =>
        ⟨_, rfl, _, _, _, rfl, by decide, by
          simpa using ⟨htarget.blockless, blockless_text _, hvalue.blockless⟩⟩
  exact .choice (by simpa using ⟨hrules.spaced_keeps hwords, hassignment, hexpression⟩)

theorem extensible_of_takes (htakes : Takes text multiline depth (named "STATEMENT") here value
    there) : Extensible value := by
  obtain ⟨scope, inner, hreached, hmatches⟩ := htakes
  obtain ⟨inner, hstatement⟩ := hreached.of_named (by decide) rfl hmatches
  exact (Keeps.sound (statement_yields_extensible text) hstatement hreached.inText
    hreached.aligned).1

/-- Statements in a row are such nodes. -/
theorem extensible_of_trail
    (htrail : Trail text.toList (Takes text multiline depth (named "STATEMENT")) place values
      stop) : ∀ statement ∈ values, Extensible statement := by
  intro statement hstatement
  obtain ⟨here, there, -, htakes⟩ :=
    htrail.exists_took (fun _ _ _ => Takes.leads) statement hstatement
  exact extensible_of_takes htakes

theorem Extensible.statementsOf_eq (hvalue : Extensible value) : statementsOf value = [value] := by
  obtain ⟨kind, line, children, rfl, -, -⟩ := hvalue
  rfl

/-- A block, with or without statements. -/
def BlockShaped (value : Value) : Prop :=
  ∃ line statements, value = .node "block" line statements

/-- A block without statements. -/
def Bare (value : Value) : Prop :=
  ∃ line, value = .node "block" line []

/-- Every block that is a child in a tree is the body of a clause of the text, and where it
has no statements, only empty lines are below the colon. -/
def Embodied (text : String) (value : Value) : Prop :=
  ∀ ⦃kind : String⦄ ⦃line : Nat⦄ ⦃children : List Value⦄,
    Occurs (.node kind line children) value → ∀ child ∈ children, BlockShaped child →
      ∃ below stop, BodyOf text kind line children child below stop ∧
        (Bare child → EmptyBelow text below stop)

theorem embodied_node (hchildren : ∀ child ∈ children, Embodied text child)
    (hbodies : ∀ child ∈ children, BlockShaped child → ∃ below stop,
      BodyOf text kind line children child below stop ∧ (Bare child → EmptyBelow text below stop)) :
    Embodied text (.node kind line children) := by
  intro other otherLine others hoccurs
  cases hoccurs with
  | whole => exact hbodies
  | child hmem hoccurs => exact hchildren _ hmem hoccurs

theorem Occurs.of_child (hoccurs : Occurs (.node kind line children) value)
    (hbody : body ∈ children) : Occurs body value := by
  induction hoccurs with
  | whole => exact .child hbody .whole
  | child hmem _ ih => exact .child hmem ih

theorem Blockless.embodied (hvalue : Blockless value) : Embodied text value := by
  rintro kind line children hoccurs child hchild ⟨bodyLine, statements, rfl⟩
  exact (hvalue (hoccurs.of_child hchild)).elim

theorem Blockless.not_blockShaped (hvalue : Blockless value) : ¬ BlockShaped value := by
  rintro ⟨line, statements, rfl⟩
  exact hvalue .whole

theorem not_blockShaped_node (hkind : kind ≠ "block") :
    ¬ BlockShaped (.node kind line children) := by
  rintro ⟨other, statements, hsame⟩
  exact hkind (Value.node.inj hsame).1

/-- The value of a clause: its header, a node without blocks of its own, with its body at the
end, which is empty only above an empty line. -/
def Headed (text : String) (place : Position) (clause : Value) (stop : Position) : Prop :=
  ∃ kind line own body below, clause = .node kind line (own ++ [body]) ∧ kind ≠ "block" ∧
    (∀ child ∈ own, Blockless child) ∧ ClauseAt text place (.node kind line own) body below stop ∧
    Embodied text body ∧ (Bare body → EmptyBelow text below stop)

/-- What is added to a clause that ends at a place: a block only as the body of an `else`
clause there. -/
def BranchAt (text : String) (place : Position) (branch : Value) : Prop :=
  Embodied text branch ∧ (BlockShaped branch → ∃ elseLine below stop,
    ClauseAt text place (.node "else" elseLine []) branch below stop ∧
      (Bare branch → EmptyBelow text below stop))

/-- A clause with a branch after it. -/
theorem embodied_branch {below : Position} (hown : ∀ child ∈ own, Blockless child)
    (hclause : ClauseAt text place (.node kind line own) body below stop)
    (hbody : Embodied text body) (hbare : Bare body → EmptyBelow text below stop)
    (hlater : ∀ branch ∈ later, BranchAt text stop branch) :
    Embodied text (.node kind line (own ++ [body] ++ later.toList)) := by
  refine embodied_node ?_ ?_
  · simp only [List.forall_mem_append, List.forall_mem_singleton, Option.mem_toList]
    exact ⟨⟨fun child hchild => (hown child hchild).embodied, hbody⟩,
      fun branch hbranch => (hlater branch hbranch).1⟩
  · intro child hchild hblock
    rcases List.mem_append.mp hchild with hfront | hbranch
    · rcases List.mem_append.mp hfront with hheading | hlast
      · exact absurd hblock (hown child hheading).not_blockShaped
      · rw [List.mem_singleton] at hlast
        subst hlast
        exact ⟨below, stop, .own hclause (List.append_assoc ..), hbare⟩
    · rw [Option.mem_toList] at hbranch
      obtain ⟨elseLine, lastBelow, last, helse, hempty⟩ := (hlater child hbranch).2 hblock
      refine ⟨lastBelow, last, .otherwise hclause helse ?_, hempty⟩
      rw [Option.mem_def.mp hbranch, Option.toList_some, List.append_assoc]
      rfl

/-- Branches that are chained. -/
theorem branchAt_chainBranch (hchained : Chained (Headed text) place values stop)
    (hlater : ∀ branch ∈ later, BranchAt text stop branch) :
    ∀ branch ∈ values.foldr chainBranch later, BranchAt text place branch := by
  induction hchained with
  | nil => exact hlater
  | cons hclause _ ih =>
      obtain ⟨kind, line, own, body, below, rfl, hkind, hown, hclause, hbody, hbare⟩ := hclause
      rintro _ ⟨⟩
      exact ⟨embodied_branch hown hclause hbody hbare (ih hlater),
        fun hblock => absurd hblock (not_blockShaped_node hkind)⟩

theorem embodied_flowValue {first last : Value} {middle : Position}
    (hfirst : Headed text place first middle) (hchained : Chained (Headed text) middle values stop)
    (hlast : ∀ branch ∈ elseBranch last, BranchAt text stop branch) :
    Embodied text (flowValue (.list [first, .list values, last])) ∧
      ∃ kind line children, flowValue (.list [first, .list values, last]) =
        .node kind line children ∧ kind ≠ "block" := by
  have hbranches := branchAt_chainBranch hchained hlast
  obtain ⟨kind, line, own, body, below, rfl, hkind, hown, hclause, hbody, hbare⟩ := hfirst
  exact ⟨embodied_branch hown hclause hbody hbare hbranches, kind, line, _, rfl, hkind⟩

/-- What a line adds to its block: statements, or nothing if it is empty. -/
def LineAt (text : String) (place : Position) (part : Value) (stop : Position) : Prop :=
  (∀ statement ∈ statementsOf part, Embodied text statement ∧ ¬ BlockShaped statement) ∧
    (statementsOf part = [] → EmptyLines text place stop)

/-- Lines that add nothing are empty. -/
theorem skippedTo_of_lines (hchained : Chained (LineAt text) place values stop)
    (hnone : ∀ part ∈ values, statementsOf part = []) : SkippedTo text place stop := by
  induction hchained with
  | nil => exact .refl _ _
  | cons hline _ ih =>
      rw [List.forall_mem_cons] at hnone
      exact (hline.2 hnone.1).2.trans (ih hnone.2)

theorem embodied_blockValue (hparts : ∀ part ∈ values, ∀ statement ∈ statementsOf part,
    Embodied text statement ∧ ¬ BlockShaped statement) :
    Embodied text (blockValue (.list values)) := by
  refine embodied_node ?_ ?_
  all_goals
    intro statement hstatement
    obtain ⟨part, hpart, hmem⟩ := List.mem_flatMap.mp hstatement
  · exact (hparts part hpart statement hmem).1
  · exact fun hblock => absurd hblock (hparts part hpart statement hmem).2

/-- A block without statements is made of lines without statements. -/
theorem statementsOf_of_bare (hbare : Bare (blockValue (.list values))) :
    ∀ part ∈ values, statementsOf part = [] := by
  obtain ⟨line, hbare⟩ := hbare
  exact List.flatMap_eq_nil_iff.mp (Value.node.inj hbare).2.2

/-- The blocks beyond a place are made of clauses, and of empty lines where they have no
statements. -/
def EmbodiedBeyond (text : String) (place : Position) : Prop :=
  ∀ ⦃depth : Nat⦄ ⦃scope : Scope⦄ ⦃here : Position⦄ ⦃success : Match⦄,
    place.offset < here.offset → Reached text false depth scope here →
    (named "BLOCK").Matches text scope here success →
    Embodied text success.value ∧ (Bare success.value → EmptyLines text here success.position)

theorem EmbodiedBeyond.moved (hbeyond : EmbodiedBeyond text place)
    (hleads : place.Leads text.toList here) : EmbodiedBeyond text here :=
  fun _ _ _ _ hless => hbeyond (Nat.lt_of_le_of_lt hleads.offset_le hless)

/-- A body on the line of its header has statements, and one on the lines below has some
unless these lines are empty. -/
theorem embodied_body (hbeyond : EmbodiedBeyond text place)
    (htakes : Takes text false depth (choice [inlineBody, nestedBody]) place body stop) :
    Embodied text body ∧ (Bare body → EmptyBelow text place stop) := by
  obtain ⟨scope, inner, hreached, hmatches⟩ := htakes
  rcases Form.matches_choice_cons_iff.mp (matches_ofForm_iff.mp hmatches) with hinline | ⟨-, hmore⟩
  · obtain ⟨values, hsome, rfl, htrail⟩ := hreached.inlineBody hinline
    have hall := extensible_of_trail htrail
    refine ⟨embodied_blockValue fun part hpart statement hstatement => ?_, fun hbare => ?_⟩
    · rw [(hall part hpart).statementsOf_eq, List.mem_singleton] at hstatement
      rw [hstatement]
      exact ⟨(hall part hpart).blockless.embodied, (hall part hpart).blockless.not_blockShaped⟩
    · obtain ⟨first, hfirst⟩ := List.exists_mem_of_ne_nil values hsome
      have hnone := statementsOf_of_bare hbare first hfirst
      rw [(hall first hfirst).statementsOf_eq] at hnone
      cases hnone
  rcases Form.matches_choice_cons_iff.mp hmore with hnested | ⟨-, hnever⟩
  · obtain ⟨inner, here, lines, hskip, hsees, hskipped, hless, hinner, hblock⟩ :=
      hreached.nestedBody hnested
    obtain ⟨hembodied, hempty⟩ := hbeyond hless hinner hblock
    refine ⟨hembodied, fun hbare => ?_⟩
    obtain ⟨hstarts, hlines⟩ := hempty hbare
    rw [show text.toList.drop here.offset = lines from hsees] at hstarts
    exact ⟨⟨lines, hskip, hstarts⟩, hskipped.trans hlines⟩
  · exact absurd hnever Form.not_matches_choice_nil

/-- A clause is what its header yields, with a body. -/
theorem clause_taken {good : Value → Prop}
    (hheader : header ∈ [headers, condition "elif", elseHeader])
    (hyields : ∀ steps, Yields text steps header good) (hbeyond : EmbodiedBeyond text place)
    (htakes : Takes text false depth (clause header) place value stop) :
    ∃ heading body below, value = clauseValue (.list [heading, body]) ∧ good heading ∧
      ClauseAt text place heading body below stop ∧ Embodied text body ∧
      (Bare body → EmptyBelow text below stop) := by
  obtain ⟨scope, inner, hreached, hmatches⟩ := htakes
  have hexposed : header.exposed = [] := by
    simp only [List.mem_cons, List.not_mem_nil, or_false] at hheader
    rcases hheader with rfl | rfl | rfl <;> rfl
  obtain ⟨heading, body, tabs, mark, here, there, below, hvalue, hmargin, hheading, hmark, hbody⟩ :=
    hreached.clause hexposed hmatches
  have hgood : good heading := by
    obtain ⟨_, _, hhere, hmatched⟩ := hheading
    exact (Keeps.sound hyields hmatched hhere.inText hhere.aligned).1
  have hleads := hmargin.leads.trans (hheading.leads.trans hmark.leads)
  exact ⟨heading, body, below, hvalue, hgood,
    ⟨header, hheader, depth, tabs, mark, here, there, hmargin, hheading, hmark, hbody⟩,
    embodied_body (hbeyond.moved hleads) hbody⟩

theorem headed_clause (hheader : header ∈ [headers, condition "elif", elseHeader])
    (hyields : ∀ steps, Yields text steps header Extensible) (hbeyond : EmbodiedBeyond text place)
    (htakes : Takes text false depth (clause header) place value stop) :
    Headed text place value stop := by
  obtain ⟨_, body, below, rfl, ⟨kind, line, own, rfl, hkind, hown⟩, hclause⟩ :=
    clause_taken hheader hyields hbeyond htakes
  exact ⟨kind, line, own, body, below, rfl, hkind, hown, hclause⟩

theorem header_yields_extensible (text : String) (steps : Nat) :
    Yields text steps headers Extensible := by
  refine (rules_keep text steps).header_keeps.weaken ?_
  rintro _ (⟨hkind, hcondition⟩ | ⟨htarget, hiterable⟩)
  · refine ⟨_, _, _, rfl, ?_, by simpa using hcondition.extensible.blockless⟩
    rintro rfl
    exact absurd hkind (by decide)
  · exact ⟨_, _, _, rfl, by decide, by
      simpa using ⟨htarget.extensible.blockless, hiterable.extensible.blockless⟩⟩

theorem further_yields_extensible (text : String) (steps : Nat) :
    Yields text steps (condition "elif") Extensible := by
  refine ((rules_keep text steps).condition_keeps "elif").weaken ?_
  rintro _ ⟨line, guard, hguard, rfl⟩
  exact ⟨_, _, _, rfl, by decide, by simpa using hguard.extensible.blockless⟩

/-- The branch of an `else` clause is its body. -/
theorem branchAt_lastClause (hbeyond : EmbodiedBeyond text place)
    (htakes : Takes text false depth lastClause place value stop) :
    ∀ branch ∈ elseBranch (.list [value]), BranchAt text place branch := by
  obtain ⟨_, body, below, rfl, ⟨line, rfl⟩, hclause, hembodied, hempty⟩ :=
    clause_taken (by simp) (fun _ => RulesKeep.elseHeader_keeps) hbeyond htakes
  rintro _ ⟨⟩
  exact ⟨hembodied, fun _ => ⟨line, below, stop, hclause, hempty⟩⟩

/-- A clause with its branches. -/
theorem embodied_flow (hbeyond : EmbodiedBeyond text place)
    (hreached : Reached text false depth scope place)
    (hmatches : flow.Matches text scope place success) :
    Embodied text success.value ∧
      ∃ kind line children, success.value = .node kind line children ∧ kind ≠ "block" := by
  obtain ⟨first, further, last, middle, later, hvalue, hfirst, hchained, hlast⟩ :=
    hreached.flow hmatches
  have hmiddle := hfirst.leads
  have hlater := hmiddle.trans (hchained.trail.leads fun _ _ _ => Takes.leads)
  have hheaded := hchained.along hmiddle (fun _ _ _ => Takes.leads) fun _ _ _ hleads =>
    headed_clause (by simp) (further_yields_extensible text) (hbeyond.moved hleads)
  rw [hvalue]
  refine embodied_flowValue (headed_clause (by simp) (header_yields_extensible text) hbeyond hfirst)
    hheaded ?_
  rcases hlast with ⟨rfl, -⟩ | ⟨clause, rfl, htakes⟩
  · exact fun _ hnone => nomatch hnone
  · exact branchAt_lastClause (hbeyond.moved hlater) htakes

theorem lineAt_line (hbeyond : EmbodiedBeyond text place)
    (htakes : Takes text false depth Croco.line place value stop) :
    LineAt text place value stop := by
  obtain ⟨scope, inner, hreached, hmatches⟩ := htakes
  rcases Reached.line hmatches with ⟨hempty, hvalue⟩ | hflow | hsimple
  · obtain rfl : value = .empty := hvalue
    exact ⟨List.forall_mem_nil _, fun _ => emptyLine_taken hreached.ready hempty⟩
  · obtain ⟨hembodied, kind, line, children, hnode, hkind⟩ := embodied_flow hbeyond hreached hflow
    obtain rfl : value = .node kind line children := hnode
    exact ⟨List.forall_mem_singleton.mpr ⟨hembodied, not_blockShaped_node hkind⟩, nofun⟩
  · obtain ⟨values, hsome, hvalue, htrail⟩ := hreached.simpleLine hsimple
    obtain rfl : value = .list values := hvalue
    refine ⟨fun statement hmem => ?_, fun hnone => absurd hnone hsome⟩
    have hstatement := (extensible_of_trail htrail statement hmem).blockless
    exact ⟨hstatement.embodied, hstatement.not_blockShaped⟩

/-- A block is made of lines. -/
theorem embodied_lines (hbeyond : EmbodiedBeyond text place)
    (hreached : Reached text false depth scope place)
    (hmatches : (named "BLOCK").Matches text scope place success) :
    Embodied text success.value ∧
      (Bare success.value → EmptyLines text place success.position) := by
  obtain ⟨first, rest, middle, hvalue, hfirst, hchained⟩ := hreached.block hmatches
  have hline : LineAt text place first middle := lineAt_line hbeyond ⟨_, _, hreached, hfirst⟩
  have hlines : Chained (LineAt text) place (first :: rest) success.position :=
    .cons hline (hchained.along hfirst.leads (fun _ _ _ => Takes.leads) fun _ _ _ hleads =>
      lineAt_line (hbeyond.moved hleads))
  rw [hvalue]
  refine ⟨embodied_blockValue (hlines.forall_mem fun _ _ _ => And.left), fun hbare => ?_⟩
  have hnone := statementsOf_of_bare hbare
  exact ⟨(hline.2 (hnone first List.mem_cons_self)).1, skippedTo_of_lines hlines hnone⟩

theorem embodiedBeyond (text : String) (place : Position) : EmbodiedBeyond text place := by
  -- Bodies are blocks of lines that begin further on in the text.
  induction hleft : text.length - place.offset using Nat.strong_induction_on
    generalizing place with
  | _ left ih =>
  subst hleft
  intro depth scope here success hless hreached hmatches
  have hin := hreached.inText
  exact embodied_lines (ih _ (by omega) here rfl) hreached hmatches

/-- Every block below the root of the tree of a program is the body of a clause of its text,
and it has statements unless only empty lines are below the colon. -/
theorem filled_of_parse {bodyLine : Nat} {statements : List Value}
    (hparse : parse text = .ok value) (hnode : Occurs (.node kind line children) value)
    (hbody : Value.node "block" bodyLine statements ∈ children) :
    ∃ below stop, BodyOf text kind line children (.node "block" bodyLine statements) below stop ∧
      (statements = [] → EmptyBelow text below stop) := by
  have hembodied : Embodied text value := by
    rcases program_of_parse hparse with ⟨success, hblock, rfl, -⟩ | ⟨rfl, -⟩
    · exact (embodied_lines (embodiedBeyond text _) (reached_start text) hblock).1
    · exact embodied_node (List.forall_mem_nil _) (List.forall_mem_nil _)
  obtain ⟨below, stop, hbodyOf, hbare⟩ := hembodied hnode _ hbody ⟨bodyLine, statements, rfl⟩
  exact ⟨below, stop, hbodyOf, fun hnone => hbare ⟨bodyLine, hnone ▸ rfl⟩⟩

/-- An empty line above a body is not the body, and a comment below `else` is all of it. -/
theorem filled_of_parse_of_branches :
    ∃ value children, parse "if a:\n\n\tb\nelse:\n # c\n" = .ok value ∧
      Occurs (.node "if" 1 children) value ∧
      Value.node "block" 3 [.node "name" 3 [.text "b"]] ∈ children ∧
      Value.node "block" 0 [] ∈ children ∧
      (∃ below stop, BodyOf "if a:\n\n\tb\nelse:\n # c\n" "if" 1 children
        (.node "block" 3 [.node "name" 3 [.text "b"]]) below stop) ∧
      ∃ below stop, BodyOf "if a:\n\n\tb\nelse:\n # c\n" "if" 1 children (.node "block" 0 [])
        below stop ∧ EmptyBelow "if a:\n\n\tb\nelse:\n # c\n" below stop := by
  have hparse : parse "if a:\n\n\tb\nelse:\n # c\n" = .ok (.node "block" 1 [.node "if" 1
      [.node "name" 1 [.text "a"], .node "block" 3 [.node "name" 3 [.text "b"]],
        .node "block" 0 []]]) :=
    parse_eq_of_yieldsTree (by decide +kernel)
  obtain ⟨below, stop, hbody, -⟩ := filled_of_parse hparse (.child List.mem_cons_self .whole)
    (List.mem_cons_of_mem _ List.mem_cons_self)
  obtain ⟨elseBelow, last, helse, hempty⟩ := filled_of_parse hparse
    (.child List.mem_cons_self .whole)
    (List.mem_cons_of_mem _ (List.mem_cons_of_mem _ List.mem_cons_self))
  exact ⟨_, _, hparse, .child List.mem_cons_self .whole, by simp, by simp, ⟨below, stop, hbody⟩,
    elseBelow, last, helse, hempty rfl⟩

/-- An empty line right below a header is taken for its body, which is left without
statements. -/
theorem not_filled_below_header :
    ∃ value children, parse "if x:\n\n" = .ok value ∧
      Occurs (.node "if" 1 children) value ∧ Value.node "block" 0 [] ∈ children := by
  have hparse : parse "if x:\n\n" = .ok (.node "block" 1 [.node "if" 1
      [.node "name" 1 [.text "x"], .node "block" 0 []]]) :=
    parse_eq_of_yieldsTree (by decide +kernel)
  exact ⟨_, _, hparse, .child List.mem_cons_self .whole, by simp⟩

end ScopedGrammar.Croco
