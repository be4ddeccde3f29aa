/-
# The lines of nodes

Every node of a program is tagged with a line of its text, and no node with a later line than
a node beneath it. There are two exceptions. A block without statements has no line, so it
is tagged with zero. An attribute access, a call and an index are tagged with the line
where they go on after their object, which may be later than that of the object, if newlines
are blanks there.
-/

import ScopedGrammar.Proofs.Croco.Located

namespace ScopedGrammar.Croco

open Pattern

variable {text : String} {multiline : Bool} {depth line high : Nat} {scope inner : Scope}
  {place stop here there middle : Position} {success : Match} {header : Pattern}
  {value body : Value} {values children : List Value} {kind : String}

/-- A list tells the line of the tree that it begins with. -/
theorem lineOrZero_list (hline : value.line? = some line) (others : List Value) :
    (Value.list (value :: others)).lineOrZero = line := by
  simp [Value.lineOrZero, Value.line?, Value.lineOfList?, hline]

/-- A word is taken as a token where it begins. -/
theorem keyword_taken {pattern : Pattern} {word : String} (hword : word.toList ≠ [])
    (hform : pattern.form = .sequence [literal word, nameChar.notAhead] (some [0]))
    (hmatches : pattern.Matches text scope place success) :
    ¬ place.Sees text [] ∧ success.value =
      pattern.finishValue (.token ⟨word, place, place.past word.toList⟩) := by
  obtain ⟨_, raw, stop, last, hrow, hpicked, hsuccess⟩ := row_of_matches hform hmatches
  obtain ⟨mark, _, hmark, -, rfl⟩ := rowMatches_cons_iff.mp hrow
  cases hpicked
  have hsees : place.Sees text (text.toList.drop place.offset) := rfl
  obtain ⟨after, hafter, rfl⟩ := (matches_literal_iff hsees).mp hmark
  refine ⟨fun hnothing => ?_, congrArg Match.value hsuccess⟩
  rw [show text.toList.drop place.offset = [] from hnothing] at hafter
  exact hword (List.append_eq_nil_iff.mp hafter.symm).1

/-- A word that is a node by itself begins where the word does. -/
theorem rooted_keyword {word kind : String} (hword : word.toList ≠ [])
    (hkind : kind ∉ operationKinds) (hreached : Reached text multiline depth scope place)
    (hmatches : ((keyword word).map fun raw => nodeFrom kind raw []).Matches text scope place
      success) : Rooted text place success.value success.position := by
  obtain ⟨hsees, hvalue⟩ := keyword_taken hword rfl hmatches
  have hnode : success.value = .node kind place.line [] := hvalue
  rw [hnode]
  exact rooted_at hreached hsees hmatches.leads hkind (List.forall_mem_nil _)

theorem rooted_keywordStatement (hreached : Reached text multiline depth scope place)
    (hmatches : keywordStatement.Matches text scope place success) :
    Rooted text place success.value success.position := by
  rcases Form.matches_choice_cons_iff.mp (matches_ofForm_iff.mp hmatches) with hword | ⟨-, hmore⟩
  · exact rooted_keyword (by decide) (by decide) hreached hword
  rcases Form.matches_choice_cons_iff.mp hmore with hword | ⟨-, hmore⟩
  · exact rooted_keyword (by decide) (by decide) hreached hword
  rcases Form.matches_choice_cons_iff.mp hmore with hword | ⟨-, hnever⟩
  · exact rooted_keyword (by decide) (by decide) hreached hword
  · exact absurd hnever Form.not_matches_choice_nil

/-- An assignment begins on the line of its target. -/
theorem rooted_assignment (hreached : Reached text multiline depth scope place)
    (hmatches : assignment.Matches text scope place success) :
    Rooted text place success.value success.position := by
  obtain ⟨message, hform⟩ := assignment_form
  obtain ⟨_, raw, stop, last, hrow, hpicked, hsuccess⟩ := row_of_matches hform hmatches
  obtain ⟨target, _, htarget, hsigned, rfl⟩ := rowMatches_cons_iff.mp hrow
  obtain ⟨sign, _, hsign, hequals, rfl⟩ := rowMatches_cons_iff.mp hsigned
  obtain ⟨equals, _, hequal, hapart, rfl⟩ := rowMatches_cons_iff.mp hequals
  obtain ⟨apart, _, happart, hlast, rfl⟩ := rowMatches_cons_iff.mp hapart
  obtain ⟨assigned, hassigned, rfl⟩ := rowMatches_singleton_iff.mp hlast
  cases hpicked
  have hhere := (((hreached.after htarget (by decide)).after hsign (by decide)).after hequal
    (by decide)).after happart (by decide)
  obtain ⟨line, hline, hlow, hhigh, htagged⟩ := located_target ⟨_, _, hreached, htarget⟩
  have hright := located_expression ⟨_, _, hhere, matches_demand_iff.mp hassigned⟩
  have hgap := lineAt_mono (hsign.leads.trans (hequal.leads.trans happart.leads))
  have hlast := hgap.trans hright.le
  have hnode : success.value =
      .node "assign" line [target.value, .text sign.value.spelling, assigned] :=
    (congrArg Match.value hsuccess).trans
      (congrArg (Value.node "assign" · _) (lineOrZero_list hline _))
  rw [hnode, show success.position = stop from congrArg Match.position hsuccess]
  refine ⟨"assign", line, _, rfl, by decide, hlow, hhigh.trans hlast, ?_⟩
  simp only [List.forall_mem_cons]
  exact ⟨htagged.mono (Nat.le_refl _) hlast, .of_text _,
    hright.tagged.mono (hhigh.trans hgap) (Nat.le_refl _), List.forall_mem_nil _⟩

theorem located_statement
    (htakes : Takes text multiline depth (named "STATEMENT") place value there) :
    Located text place value there := by
  obtain ⟨scope, inner, hreached, hmatches⟩ := htakes
  obtain ⟨_, hstatement⟩ := hreached.of_named (by decide) rfl hmatches
  rcases Form.matches_choice_cons_iff.mp (matches_ofForm_iff.mp hstatement) with
    hspaced | ⟨-, hmore⟩
  · obtain ⟨here, last, within, hlead, hhere, hword, htrail⟩ := hreached.spaced hspaced
    exact (rooted_keywordStatement hhere hword).located.widen hlead htrail
  rcases Form.matches_choice_cons_iff.mp hmore with hassignment | ⟨-, hmore⟩
  · exact (rooted_assignment hreached hassignment).located
  rcases Form.matches_choice_cons_iff.mp hmore with hexpression | ⟨-, hnever⟩
  · exact located_expression ⟨_, _, hreached, hexpression⟩
  · exact absurd hnever Form.not_matches_choice_nil

/-- A node that begins with a word and has further parts begins where the word does. -/
theorem rooted_condition {word : String} (hword : word.toList ≠ [])
    (hreached : Reached text multiline depth scope place)
    (hmatches : (condition word).Matches text scope place success) :
    Rooted text place success.value success.position := by
  obtain ⟨_, raw, stop, last, hrow, hpicked, hsuccess⟩ := row_of_matches rfl hmatches
  obtain ⟨mark, _, hmark, hrest, rfl⟩ := rowMatches_cons_iff.mp hrow
  obtain ⟨guard, hguard, rfl⟩ := rowMatches_singleton_iff.mp hrest
  cases hpicked
  obtain ⟨hsees, htoken⟩ := keyword_taken hword (keyword_form word) hmark
  have hguarded := located_expression
    ⟨_, _, hreached.after hmark (List.nil_subset captures), matches_demand_iff.mp hguard⟩
  have hnode : success.value =
      .node (if word = "while" then "while" else "if") place.line [guard] := by
    rw [show success.value = _ from congrArg Match.value hsuccess, htoken]
    exact congrArg (Value.node _ · [guard]) (lineOrZero_list_token _ _)
  rw [hnode]
  refine rooted_at hreached hsees hmatches.leads (by split <;> decide)
    (List.forall_mem_singleton.mpr ?_)
  rw [show success.position = stop from congrArg Match.position hsuccess]
  exact hguarded.tagged.mono (lineAt_mono hmark.leads) (Nat.le_refl _)

theorem rooted_forHeader (hreached : Reached text multiline depth scope place)
    (hmatches : forHeader.Matches text scope place success) :
    Rooted text place success.value success.position := by
  obtain ⟨_, raw, stop, last, hrow, hpicked, hsuccess⟩ := row_of_matches rfl hmatches
  obtain ⟨mark, _, hmark, hrest, rfl⟩ := rowMatches_cons_iff.mp hrow
  obtain ⟨target, _, htarget, hmore, rfl⟩ := rowMatches_cons_iff.mp hrest
  obtain ⟨between, _, hbetween, hlast, rfl⟩ := rowMatches_cons_iff.mp hmore
  obtain ⟨iterable, hiterable, rfl⟩ := rowMatches_singleton_iff.mp hlast
  cases hpicked
  obtain ⟨hsees, htoken⟩ := keyword_taken (by decide) (keyword_form "for") hmark
  have hbegun := hreached.after hmark (by decide)
  have hended := (hbegun.after htarget (by decide)).after hbetween (by decide)
  have htargeted := located_target ⟨_, _, hbegun, matches_demand_iff.mp htarget⟩
  have hlooped := located_expression ⟨_, _, hended, matches_demand_iff.mp hiterable⟩
  have hnode : success.value = .node "for" place.line [target.value, iterable] := by
    rw [show success.value = _ from congrArg Match.value hsuccess, htoken]
    exact congrArg (Value.node "for" · _) (lineOrZero_list_token _ _)
  have hlead := lineAt_mono hmark.leads
  have hgap := lineAt_mono hbetween.leads
  rw [hnode]
  refine rooted_at hreached hsees hmatches.leads (by decide) ?_
  rw [show success.position = stop from congrArg Match.position hsuccess]
  simp only [List.forall_mem_cons]
  exact ⟨htargeted.tagged.mono hlead (hgap.trans hlooped.le),
    hlooped.tagged.mono (hlead.trans (htargeted.le.trans hgap)) (Nat.le_refl _),
    List.forall_mem_nil _⟩

theorem rooted_headers (hreached : Reached text multiline depth scope place)
    (hmatches : headers.Matches text scope place success) :
    Rooted text place success.value success.position := by
  rcases Form.matches_choice_cons_iff.mp (matches_ofForm_iff.mp hmatches) with hif | ⟨-, hmore⟩
  · exact rooted_condition (by decide) hreached hif
  rcases Form.matches_choice_cons_iff.mp hmore with hwhile | ⟨-, hmore⟩
  · exact rooted_condition (by decide) hreached hwhile
  rcases Form.matches_choice_cons_iff.mp hmore with hfor | ⟨-, hnever⟩
  · exact rooted_forHeader hreached hfor
  · exact absurd hnever Form.not_matches_choice_nil

theorem rooted_elseHeader (hreached : Reached text multiline depth scope place)
    (hmatches : elseHeader.Matches text scope place success) :
    Rooted text place success.value success.position :=
  rooted_keyword (by decide) (by decide) hreached hmatches

/-- A block is tagged with the line of its first statement, and with none if there is none. -/
theorem tagged_block (htrail : Trail text.toList (Located text) place values stop) :
    Tagged (lineAt text place)
      (.node "block" ((values.head?.bind Value.line?).getD 0) values) (lineAt text stop) := by
  cases htrail with
  | nil rest => exact .bare
  | @cons _ here there _ first rest gap hfirst hrest =>
      obtain ⟨line, hline, hlow, hhigh, htagged⟩ := hfirst
      obtain ⟨hlast, hothers⟩ := tagged_of_trail hrest
      rw [List.head?_cons, Option.bind_some, hline, Option.getD_some]
      refine .node (by decide) ((lineAt_mono gap).trans hlow) (hhigh.trans hlast)
        (List.forall_mem_cons.mpr ⟨htagged.mono (Nat.le_refl _) hlast, fun other hother => ?_⟩)
      exact (hothers other hother).mono hhigh (Nat.le_refl _)

/-- All blocks beyond a place are tagged. -/
def TaggedBeyond (text : String) (place : Position) : Prop :=
  ∀ ⦃depth : Nat⦄ ⦃scope : Scope⦄ ⦃here : Position⦄ ⦃success : Match⦄,
    place.offset < here.offset → Reached text false depth scope here →
    (named "BLOCK").Matches text scope here success →
    Tagged (lineAt text here) success.value (lineAt text success.position)

theorem TaggedBeyond.moved (hbeyond : TaggedBeyond text place)
    (hleads : place.Leads text.toList here) : TaggedBeyond text here :=
  fun _ _ _ _ hless => hbeyond (Nat.lt_of_le_of_lt hleads.offset_le hless)

/-- A block of statements and lines begins on the line of its first statement. -/
theorem tagged_blockValue
    (htrail : Trail text.toList (fun here part there =>
      Trail text.toList (Located text) here (statementsOf part) there) place values stop) :
    Tagged (lineAt text place) (blockValue (.list values)) (lineAt text stop) := by
  have hstatements : Trail text.toList (Located text) place (values.flatMap statementsOf) stop := by
    induction htrail with
    | nil rest => exact .nil rest
    | cons gap hpart _ ih => exact (hpart.before gap).append ih
  exact tagged_block hstatements

theorem located_single (hlocated : Located text here value there)
    (hnode : statementsOf value = [value]) :
    Trail text.toList (Located text) here (statementsOf value) there := by
  rw [hnode]
  exact .cons (.refl _ _) hlocated (.nil (.refl _ _))

theorem tagged_body (hbeyond : TaggedBeyond text place)
    (htakes : Takes text false depth (choice [inlineBody, nestedBody]) place body stop) :
    Tagged (lineAt text place) body (lineAt text stop) := by
  obtain ⟨scope, inner, hreached, hmatches⟩ := htakes
  rcases Form.matches_choice_cons_iff.mp (matches_ofForm_iff.mp hmatches) with hinline | ⟨-, hmore⟩
  · obtain ⟨values, -, rfl, htrail⟩ := hreached.inlineBody hinline
    exact tagged_blockValue (htrail.mono fun _ _ _ htakes =>
      located_single (located_statement htakes) (extensible_of_takes htakes).statementsOf_eq)
  rcases Form.matches_choice_cons_iff.mp hmore with hnested | ⟨-, hnever⟩
  · obtain ⟨inner, here, lines, -, -, hskipped, hless, hinner, hblock⟩ :=
      hreached.nestedBody hnested
    exact (hbeyond hless hinner hblock).mono (lineAt_mono hskipped.leads) (Nat.le_refl _)
  · exact absurd hnever Form.not_matches_choice_nil

/-- A header grows by a body after it. -/
theorem rooted_clauseValue (hheading : Rooted text here value there)
    (hbody : Tagged (lineAt text middle) body (lineAt text stop))
    (hgap : there.Leads text.toList middle) (hrest : middle.Leads text.toList stop) :
    Rooted text here (clauseValue (.list [value, body])) stop := by
  obtain ⟨kind, line, children, rfl, hkind, hlow, hhigh, hchildren⟩ := hheading
  have hbelow := hhigh.trans (lineAt_mono hgap)
  have hlast := lineAt_mono hrest
  refine ⟨kind, line, children ++ [body], rfl, hkind, hlow, hbelow.trans hlast, ?_⟩
  simp only [List.forall_mem_append, List.forall_mem_singleton]
  exact ⟨fun child hchild => (hchildren child hchild).mono (Nat.le_refl _)
    ((lineAt_mono hgap).trans hlast), hbody.mono hbelow (Nat.le_refl _)⟩

/-- A clause begins where its header does. -/
theorem rooted_clause (hbeyond : TaggedBeyond text place)
    (hreached : Reached text false depth scope place) (hexposed : header.exposed = [])
    (hheader : ∀ ⦃scope here success⦄, Reached text false depth scope here →
      header.Matches text scope here success → Rooted text here success.value success.position)
    (hmatches : (clause header).Matches text scope place success) :
    Rooted text place success.value success.position := by
  obtain ⟨heading, body, _, _, here, there, below, hvalue, hmargin, hheading, hmark, hbody⟩ :=
    hreached.clause hexposed hmatches
  have htagged := tagged_body
    (hbeyond.moved (hmargin.leads.trans (hheading.leads.trans hmark.leads))) hbody
  have hrooted : Rooted text here heading there := by
    obtain ⟨_, _, hhere, hmatched⟩ := hheading
    exact hheader hhere hmatched
  rw [hvalue]
  exact (rooted_clauseValue hrooted htagged hmark.leads hbody.leads).widen hmargin.leads
    (.refl _ _)

/-- Branches that are chained are tagged in the order of their clauses. -/
theorem tagged_chainBranch {later : Option Value}
    (htrail : Trail text.toList (Rooted text) place values stop)
    (hlater : ∀ branch ∈ later, Tagged (lineAt text stop) branch high)
    (hstop : lineAt text stop ≤ high) :
    ∀ branch ∈ values.foldr chainBranch later, Tagged (lineAt text place) branch high := by
  induction htrail with
  | nil rest =>
      exact fun branch hbranch => (hlater branch hbranch).mono (lineAt_mono rest) (Nat.le_refl _)
  | cons gap hclause hrest ih =>
      obtain ⟨kind, line, children, rfl, hkind, hlow, hhigh, hchildren⟩ := hclause
      have hlast := (tagged_of_trail (hrest.mono fun _ _ _ => Rooted.located)).1.trans hstop
      rintro _ ⟨⟩
      refine .node hkind ((lineAt_mono gap).trans hlow) (hhigh.trans hlast) fun child hchild => ?_
      rcases List.mem_append.mp hchild with hown | hbranch
      · exact (hchildren child hown).mono (Nat.le_refl _) hlast
      · exact (ih hlater hstop child (by simpa using hbranch)).mono hhigh (Nat.le_refl _)

theorem tagged_elseBranch {clause : Value} (hclause : Rooted text place clause stop) :
    ∀ branch ∈ elseBranch (.list [clause]),
      Tagged (lineAt text place) branch (lineAt text stop) := by
  obtain ⟨kind, line, children, rfl, -, hlow, -, hchildren⟩ := hclause
  rintro _ ⟨⟩
  cases children with
  | nil => exact .leaf fun _ _ _ => nofun
  | cons first rest =>
      exact (hchildren first List.mem_cons_self).mono hlow (Nat.le_refl _)

/-- A first clause grows by the branches after it. -/
theorem rooted_flowValue {first last : Value} (hfirst : Rooted text place first middle)
    (hbranches : ∀ branch ∈ values.foldr chainBranch (elseBranch last),
      Tagged (lineAt text middle) branch (lineAt text stop))
    (hrest : middle.Leads text.toList stop) :
    Rooted text place (flowValue (.list [first, .list values, last])) stop := by
  obtain ⟨kind, line, children, rfl, hkind, hlow, hhigh, hchildren⟩ := hfirst
  have hlast := lineAt_mono hrest
  refine ⟨kind, line, _, rfl, hkind, hlow, hhigh.trans hlast, fun child hchild => ?_⟩
  rcases List.mem_append.mp hchild with hown | hbranch
  · exact (hchildren child hown).mono (Nat.le_refl _) hlast
  · exact (hbranches child (Option.mem_toList.mp hbranch)).mono hhigh (Nat.le_refl _)

/-- A clause with its branches begins where its header does. -/
theorem rooted_flow (hbeyond : TaggedBeyond text place)
    (hreached : Reached text false depth scope place)
    (hmatches : flow.Matches text scope place success) :
    Rooted text place success.value success.position := by
  obtain ⟨first, further, last, middle, later, hvalue, htaken, hchained, hlast⟩ :=
    hreached.flow hmatches
  have hclause {header : Pattern} {here there : Position} {clause : Value}
      (hexposed : header.exposed = [])
      (hheader : ∀ ⦃scope here success⦄, Reached text false depth scope here →
        header.Matches text scope here success → Rooted text here success.value success.position)
      (hleads : place.Leads text.toList here)
      (htakes : Takes text false depth (Croco.clause header) here clause there) :
      Rooted text here clause there := by
    obtain ⟨scope, inner, hhere, hmatched⟩ := htakes
    exact rooted_clause (hbeyond.moved hleads) hhere hexposed hheader hmatched
  have hfirst := hclause rfl (fun _ _ _ => rooted_headers) (.refl _ _) htaken
  have hfurther : Trail text.toList (Rooted text) middle further later :=
    (hchained.along htaken.leads (fun _ _ _ => Takes.leads) fun _ _ _ =>
      hclause rfl fun _ _ _ => rooted_condition (by decide)).trail
  have hmiddle := hchained.trail.leads fun _ _ _ => Takes.leads
  rw [hvalue]
  rcases hlast with ⟨rfl, hstop⟩ | ⟨clause, rfl, htakes⟩
  · rw [hstop]
    refine rooted_flowValue hfirst (tagged_chainBranch hfurther ?_ (Nat.le_refl _)) hmiddle
    exact fun _ hnone => nomatch hnone
  · have hbranch := tagged_elseBranch (hclause rfl (fun _ _ _ => rooted_elseHeader)
      (htaken.leads.trans hmiddle) htakes)
    exact rooted_flowValue hfirst (tagged_chainBranch hfurther hbranch
      (lineAt_mono htakes.leads)) (hmiddle.trans htakes.leads)

/-- What a line adds to its block is located, one statement after the other. -/
theorem located_line (hbeyond : TaggedBeyond text place)
    (hreached : Reached text false depth scope place)
    (hmatches : Croco.line.Matches text scope place success) :
    Trail text.toList (Located text) place (statementsOf success.value) success.position := by
  rcases Reached.line hmatches with ⟨-, hvalue⟩ | hflow | hsimple
  · rw [hvalue]
    exact .nil hmatches.leads
  · have hrooted := rooted_flow hbeyond hreached hflow
    have hnode : statementsOf success.value = [success.value] := by
      obtain ⟨kind, line, children, hnode, -⟩ := hrooted
      rw [hnode]
      rfl
    exact located_single hrooted.located hnode
  · obtain ⟨values, -, hvalue, htrail⟩ := hreached.simpleLine hsimple
    rw [hvalue]
    exact htrail.mono fun _ _ _ => located_statement

theorem tagged_lines (hbeyond : TaggedBeyond text place)
    (hreached : Reached text false depth scope place)
    (hmatches : (named "BLOCK").Matches text scope place success) :
    Tagged (lineAt text place) success.value (lineAt text success.position) := by
  obtain ⟨first, rest, middle, hvalue, hfirst, hchained⟩ := hreached.block hmatches
  rw [hvalue]
  refine tagged_blockValue (.cons (.refl _ _) (located_line hbeyond hreached hfirst)
    (hchained.along hfirst.leads (fun _ _ _ => Takes.leads) ?_).trail)
  rintro there part last hleads ⟨within, inner, hthere, htaken⟩
  exact located_line (hbeyond.moved hleads) hthere htaken

theorem taggedBeyond (text : String) (place : Position) : TaggedBeyond text place := by
  -- Bodies are blocks of lines that begin further on in the text.
  induction hleft : text.length - place.offset using Nat.strong_induction_on
    generalizing place with
  | _ left ih =>
  subst hleft
  intro depth scope here success hless hreached hmatches
  have hin := hreached.inText
  exact tagged_lines (ih _ (by omega) here rfl) hreached hmatches

/-- The tree of a program is tagged with the lines of its text. -/
theorem tagged_of_parse (hparse : parse text = .ok value) : Tagged 1 value (lineCount text) := by
  rcases program_of_parse hparse with ⟨success, hblock, rfl, -⟩ | ⟨rfl, -⟩
  · have htagged := tagged_lines (taggedBeyond text _) (reached_start text) hblock
    rw [lineAt_start] at htagged
    exact htagged.mono (Nat.le_refl 1) (min_le_right _ _)
  · exact .node (by decide) (Nat.le_refl 1) (le_max_left 1 _) (List.forall_mem_nil _)

/-- The nodes of a program carry lines of its text, except that blocks without statements
carry none. No node carries a later line than one beneath it, apart from the objects of
attribute accesses, calls and indexes, which carry no later lines than these. -/
theorem lines_of_parse (hparse : parse text = .ok value)
    (hnode : Occurs (.node kind line children) value) :
    (1 ≤ line ∧ line ≤ lineCount text ∨ Value.node kind line children = .node "block" 0 []) ∧
      (∀ other otherLine others,
        Beneath (.node other otherLine others) (.node kind line children) →
        line ≤ otherLine ∨ Value.node other otherLine others = .node "block" 0 []) ∧
      (kind ∈ operationKinds → ∃ object own, children = object :: own ∧
        ∀ other otherLine others, Occurs (.node other otherLine others) object →
          otherLine ≤ line) := by
  have htagged := (tagged_of_parse hparse).occurs (Nat.le_refl 1) hnode
  refine ⟨htagged.line_bounds.symm, fun other otherLine others hbeneath => ?_, fun hkind => ?_⟩
  · rcases (htagged.raise.beneath hbeneath).line_bounds with hbare | ⟨hle, -⟩
    · exact .inr hbare
    · exact .inl hle
  · cases htagged with
    | leaf hleaf => exact absurd rfl (hleaf _ _ _)
    | bare => exact absurd hkind (by decide)
    | node hother => exact absurd hkind hother
    | operation _ _ _ hobject _ =>
        refine ⟨_, _, rfl, fun other otherLine others hoccurs => ?_⟩
        rcases (hobject.occurs (Nat.le_refl 1) hoccurs).line_bounds with hbare | ⟨-, hle⟩
        · cases hbare
          exact Nat.zero_le _
        · exact hle

theorem lines_of_parse_of_index :
    ∃ value children, parse "if x:\n\t(a\n.b)[c]\n" = .ok value ∧
      Occurs (.node "getitem" 3 children) value ∧ 3 ≤ lineCount "if x:\n\t(a\n.b)[c]\n" ∧
      (∀ other otherLine others,
        Beneath (.node other otherLine others) (.node "getitem" 3 children) →
        3 ≤ otherLine ∨ Value.node other otherLine others = .node "block" 0 []) ∧
      ∃ object own, children = object :: own ∧
        ∀ other otherLine others, Occurs (.node other otherLine others) object →
          otherLine ≤ 3 := by
  have hparse : parse "if x:\n\t(a\n.b)[c]\n" = .ok (.node "block" 1 [.node "if" 1
      [.node "name" 1 [.text "x"], .node "block" 3 [.node "getitem" 3
        [.node "getattr" 3 [.node "name" 2 [.text "a"], .text "b"],
          .node "name" 3 [.text "c"]]]]]) :=
    parse_eq_of_yieldsTree (by decide +kernel)
  have hindex (condition : Value) (own : List Value) : Occurs (.node "getitem" 3 own)
      (.node "block" 1 [.node "if" 1 [condition, .node "block" 3 [.node "getitem" 3 own]]]) :=
    .child List.mem_cons_self (.child (List.mem_cons_of_mem _ List.mem_cons_self)
      (.child List.mem_cons_self .whole))
  obtain ⟨hrange, hbeneath, hobject⟩ := lines_of_parse hparse (hindex _ _)
  rcases hrange with ⟨-, hlast⟩ | hbare
  · exact ⟨_, _, hparse, hindex _ _, hlast, hbeneath, hobject (by decide)⟩
  · exact absurd (Value.node.inj hbare).1 (by decide)

/-- A block without statements is on no line, and an attribute access may be on a later line
than its object. -/
theorem not_lines_of_parse :
    parse "\n" = .ok (.node "block" 0 []) ∧
      parse "(a\n.b)" = .ok (.node "block" 2
        [.node "getattr" 2 [.node "name" 1 [.text "a"], .text "b"]]) :=
  ⟨parse_eq_of_yieldsTree (by decide +kernel), parse_eq_of_yieldsTree (by decide +kernel)⟩

end ScopedGrammar.Croco
