/-
# Clauses and their branches

A clause is a header up to its colon and a body below it. No statement stands on the line of
the header, so the body is looked for on the lines after it, in a scope with the next depth.
A statement with clauses goes on with the clauses that hang on it: as long as a line at its own
depth begins with the word for a further one, and then with one last body, if there is one.
-/

import ScopedGrammar.Proofs.Croco.Lines

namespace ScopedGrammar.Croco

open Pattern

variable {text : String} {scope inner : Scope} {place stop : Position} {depth : Nat}
  {levels : List Indent} {run rest after : List Char} {header : Pattern} {value block : Value}
  {branch : Option Value}

/-- The words that a guard comes after. -/
def guardWords : List String :=
  ["if", "while", "elif"]

theorem guardWords_oneLine : ∀ word ∈ guardWords, '\n' ∉ word.toList := by
  decide

theorem blank_single : Blank [' '] := by
  decide

theorem colon_closes : ∀ c ∈ (':' :: rest).head?, c ∈ closers := by
  rintro c ⟨⟩
  decide

theorem condition_form (word : String) :
    ∃ message, (condition word).form =
      .sequence [keyword word, (named "EXPRESSION").demand message] none :=
  ⟨_, rfl⟩

theorem condition_finishValue (word : String) (raw : Value) :
    (condition word).finishValue raw =
      nodeFrom (if word = "while" then "while" else "if") raw [raw.item 1] :=
  rfl

/-- A guard is taken with the word before it. -/
theorem condition_matches {word : String} (hword : word ∈ guardWords) (guard : Expression)
    (hfits : text.length < offsetBound) (hready : Ready false scope)
    (hsees : place.Sees text (word.toList ++ (' ' :: guard.text) ++ (':' :: rest))) :
    (condition word).Matches text scope place
      ⟨.node (if word = "while" then "while" else "if") place.line [guard.node place.line],
        place.past (word.toList ++ (' ' :: guard.text)), scope⟩ := by
  have hsplit : place.Sees text (word.toList ++ ([' '] ++ (guard.text ++ (':' :: rest)))) := by
    simpa using hsees
  have hkeyword := keyword_matches scope hsplit (endsWord_cons (by decide) _)
  have hguard := guard.named_matches hfits hready blank_single hsplit.past colon_closes
  rw [line_past_of_oneLine place (guardWords_oneLine word hword),
    ← Position.past_append] at hguard
  obtain ⟨message, hform⟩ := condition_form word
  have hmatches :=
    matches_of_row hform (.cons hkeyword (.single (matches_demand_iff.mpr hguard))) rfl
  rw [condition_finishValue, nodeFrom, lineOrZero_list_token] at hmatches
  exact hmatches

theorem forHeader_form :
    ∃ first second third, forHeader.form = .sequence
      [keyword "for", (named "POSTFIX").demand first, (keyword "in").demand second,
        (named "EXPRESSION").demand third] none :=
  ⟨_, _, _, rfl⟩

theorem forHeader_finishValue (raw : Value) :
    forHeader.finishValue raw = nodeFrom "for" raw [raw.item 1, raw.item 3] :=
  rfl

/-- A loop is taken with its target, which the word after it is no part of. -/
theorem forHeader_matches (target iterable : Expression) (hfits : text.length < offsetBound)
    (hready : Ready false scope)
    (hsees : place.Sees text ((Header.loop target iterable).text ++ (':' :: rest))) :
    forHeader.Matches text scope place
      ⟨.node "for" place.line [target.node place.line, iterable.node place.line],
        place.past (Header.loop target iterable).text, scope⟩ := by
  have hflat : place.Sees text ("for".toList ++ (' ' :: (target.targetText ++ (' ' ::
      ("in".toList ++ (' ' :: (iterable.text ++ (':' :: rest)))))))) := by
    simpa only [Header.text, List.append_assoc, List.cons_append] using hsees
  have hsplit : place.Sees text ("for".toList ++ ([' '] ++ (target.targetText ++ ([' '] ++
      ("in".toList ++ ([' '] ++ (iterable.text ++ (':' :: rest)))))))) := hflat
  have hfor := keyword_matches scope hsplit (endsWord_cons (by decide) _)
  have htarget := target.target_matches hfits hready blank_single blank_single hsplit.past
    (by rintro c ⟨⟩; decide) (endsWord_cons (by decide) _) (by rintro c ⟨⟩; decide)
  have hin_sees := hsplit.past.past.past.past
  simp only [← Position.past_append] at hin_sees htarget
  have hin := keyword_matches scope hin_sees (endsWord_cons (by decide) _)
  have hiterable := iterable.named_matches hfits hready blank_single hin_sees.past colon_closes
  simp only [← Position.past_append, List.append_assoc] at hin hiterable htarget
  have hword : (place.past "for".toList).line = place.line :=
    line_past_of_oneLine place (by decide)
  have hline : (place.past ("for".toList ++ ([' '] ++ (target.targetText ++ ([' '] ++
      "in".toList))))).line = place.line :=
    line_past_of_oneLine place
      (by simp [Expression.targetText, oneLine_enclosed target.oneLine])
  rw [hword] at htarget
  rw [hline] at hiterable
  obtain ⟨first, second, third, hform⟩ := forHeader_form
  have hmatches := matches_of_row hform (.cons hfor (.cons (matches_demand_iff.mpr htarget)
    (.cons (matches_demand_iff.mpr hin) (.single (matches_demand_iff.mpr hiterable))))) rfl
  rw [forHeader_finishValue, nodeFrom, lineOrZero_list_token] at hmatches
  exact hmatches

/-- The patterns for the headers that begin statements. -/
def headers : Pattern :=
  choice [condition "if", condition "while", forHeader]

theorem header_matches (header : Header) (hfits : text.length < offsetBound)
    (hready : Ready false scope) (hsees : place.Sees text (header.text ++ (':' :: rest))) :
    headers.Matches text scope place
      ⟨.node header.kind place.line (header.nodes place.line), place.past header.text, scope⟩ := by
  have hmisses {words : List String} {c : Char} (hc : c ∈ (header.text ++ (':' :: rest)).head?)
      (hwords : ∀ word ∈ words, ∃ d ∈ word.toList.head?, d ≠ c) :
      ∀ word ∈ words, (condition word).Misses text scope place := fun word hword =>
    condition_misses (keyword_misses hsees (lacks_of_head hc hwords word hword))
  cases header with
  | condition word hword guard =>
      have hguard (hguarded : word ∈ guardWords) :=
        condition_matches hguarded guard hfits hready hsees
      rcases List.mem_pair.mp hword with rfl | rfl
      · exact choice_matches (List.forall_mem_nil _) (hguard (by decide))
      · have hif : ∀ word ∈ ["if"], (condition word).Misses text scope place :=
          hmisses rfl (by decide : ∀ word ∈ ["if"], ∃ d ∈ word.toList.head?, d ≠ 'w')
        exact choice_matches (List.forall_mem_singleton.mpr (hif "if" List.mem_cons_self))
          (hguard (by decide))
  | loop target iterable =>
      have hconditions : ∀ word ∈ ["if", "while"], (condition word).Misses text scope place :=
        hmisses rfl (by decide : ∀ word ∈ ["if", "while"], ∃ d ∈ word.toList.head?, d ≠ 'f')
      have hbefore : ∀ option ∈ [condition "if", condition "while"],
          option.Misses text scope place := by
        simpa using hconditions
      exact choice_matches hbefore (forHeader_matches target iterable hfits hready hsees)

theorem elseHeader_matches (scope : Scope)
    (hsees : place.Sees text ("else".toList ++ (':' :: rest))) :
    elseHeader.Matches text scope place
      ⟨.node "else" place.line [], place.past "else".toList, scope⟩ :=
  map_matches _ (keyword_matches scope hsees (endsWord_cons (by decide) _))

/-- A pattern for headers takes a run before a colon. -/
structure Heads (header : Pattern) (run : List Char) (kind : String)
    (children : Nat → List Value) : Prop where
  begins : Begins run
  oneLine : '\n' ∉ run
  taken : ∀ {text scope place rest}, text.length < offsetBound → Ready false scope →
    place.Sees text (run ++ (':' :: rest)) →
    header.Matches text scope place
      ⟨.node kind place.line (children place.line), place.past run, scope⟩

theorem Header.exists_head (header : Header) : ∃ c ∈ header.text.head?, c ∈ ['i', 'w', 'f'] := by
  cases header with
  | condition word hword guard =>
      have hall : ∀ word ∈ ["if", "while"], ∃ c ∈ word.toList.head?, c ∈ ['i', 'w', 'f'] := by
        decide
      obtain ⟨c, hc, hstart⟩ := hall word hword
      exact ⟨c, List.mem_head?_append_of_mem_head? hc, hstart⟩
  | loop target iterable => exact ⟨'f', rfl, by decide⟩

theorem Header.begins (header : Header) : Begins header.text := by
  obtain ⟨c, hc, hstart⟩ := header.exists_head
  have hall : ∀ c ∈ ['i', 'w', 'f'], c ∉ blankStarts := by decide
  exact ⟨c, hc, hall c hstart⟩

theorem Header.oneLine (header : Header) : '\n' ∉ header.text := by
  cases header with
  | condition word hword guard =>
      have hwords : ∀ word ∈ ["if", "while"], '\n' ∉ word.toList := by decide
      simp [Header.text, hwords word hword, guard.oneLine]
  | loop target iterable =>
      simp [Header.text, Expression.targetText, oneLine_enclosed target.oneLine,
        iterable.oneLine]

/-- The header of a statement is no branch. -/
theorem Header.lacks (header : Header) (rest : List Char) :
    Lacks ["elif", "else"] (header.text ++ rest) := by
  obtain ⟨c, hc, hstart⟩ := header.exists_head
  have hall : ∀ c ∈ ['i', 'w', 'f'], ∀ word ∈ ["elif", "else"],
      ∃ d ∈ word.toList.head?, d ≠ c := by decide
  exact lacks_of_head (List.mem_head?_append_of_mem_head? hc) (hall c hstart)

theorem Header.heads (header : Header) :
    Heads headers header.text header.kind fun line => header.nodes line where
  begins := header.begins
  oneLine := header.oneLine
  taken hfits hready hsees := header_matches header hfits hready hsees

theorem heads_further (guard : Expression) :
    Heads (condition "elif") ("elif".toList ++ (' ' :: guard.text)) "if"
      fun line => [guard.node line] where
  begins := ⟨'e', rfl, by decide⟩
  oneLine := by simp [guard.oneLine]
  taken hfits hready hsees := condition_matches (by decide) guard hfits hready hsees

theorem heads_last : Heads elseHeader "else".toList "else" fun _ => [] where
  begins := ⟨'e', rfl, by decide⟩
  oneLine := by decide
  taken _ _ hsees := elseHeader_matches _ hsees

/-- Where the line of a header ends, no body is on it. -/
theorem inlineBody_misses (hlevel : Level false depth scope)
    (hsees : place.Sees text ('\n' :: rest)) : inlineBody.Misses text scope place := by
  have hstatement : statement.Misses text scope place :=
    statement_misses hlevel.ready hsees (by rintro c ⟨⟩; exact .inl rfl)
  exact misses_of_row rfl (rowMisses_of_first (statements_miss hlevel hstatement))

/-- A body is taken on the lines below its header, one level deeper. -/
theorem nestedBody_matches {body : List Char} (hlevel : Level false depth scope)
    (hdepth : depth + 1 < 2 ^ 63) (hsees : place.Sees text ('\n' :: (body ++ after)))
    (hbody : ∀ inner, Level false (depth + 1) inner →
      (named "BLOCK").Matches text inner (place.past ['\n'])
        ⟨block, (place.past ['\n']).past body, inner⟩) :
    nestedBody.Matches text scope place ⟨block, place.past ('\n' :: body), scope⟩ := by
  have hsplit : place.Sees text ("\n".toList ++ (body ++ after)) := hsees
  obtain ⟨blanks, hblanks⟩ := noBlanks_match hlevel.ready hsees (by rintro c ⟨⟩; decide)
  obtain ⟨newline, hnewline⟩ := literal_matches scope hsplit
  obtain ⟨next, hnext⟩ := Value.exists_ofInt?_next hdepth
  have hframe : scope.resolveAll (nextCount "indent") = .ok [("indent", .value next)] := by
    rw [hlevel.counts.resolveAll_next, hnext]
  have hblock := hbody _ (hlevel.nested hnext)
  rw [← List.singleton_append, Position.past_append]
  exact matches_of_row rfl (.cons hblanks (.cons hnewline (.single (matches_ofForm_iff.mpr
    (Form.matches_overlay_iff.mpr ⟨_, _, hframe, matches_demand_iff.mpr hblock, rfl⟩))))) rfl

theorem clause_form (header : Pattern) :
    (clause header).form =
      .sequence [named "INDENT", header, colon, choice [inlineBody, nestedBody]] (some [1, 3]) :=
  rfl

theorem colon_matches (hready : Ready false scope) (hsees : place.Sees text (':' :: rest)) :
    ∃ mark, colon.Matches text scope place ⟨mark, place.past [':'], scope⟩ := by
  have hsplit : place.Sees text (":".toList ++ rest) := hsees
  obtain ⟨blanks, hblanks⟩ := noBlanks_match hready hsees (by rintro c ⟨⟩; decide)
  obtain ⟨mark, hmark⟩ := literal_matches scope hsplit
  exact ⟨_, matches_of_row rfl (.cons hblanks (.single (matches_demand_iff.mpr hmark))) rfl⟩

/-- A run is next in a block, at least as far into the text as the block is deep. -/
structure Placed (text : String) (depth : Nat) (scope : Scope) (place : Position)
    (run after : List Char) : Prop where
  fits : text.length < offsetBound
  level : Level false depth scope
  deep : depth ≤ place.offset
  sees : place.Sees text (run ++ after)

theorem Placed.front {more : List Char}
    (hplaced : Placed text depth scope place (run ++ more) after) :
    Placed text depth scope place run (more ++ after) where
  fits := hplaced.fits
  level := hplaced.level
  deep := hplaced.deep
  sees := by
    have hsees := hplaced.sees
    rwa [List.append_assoc] at hsees

theorem Placed.past {more : List Char}
    (hplaced : Placed text depth scope place (run ++ more) after) :
    Placed text depth scope (place.past run) more after where
  fits := hplaced.fits
  level := hplaced.level
  deep := by
    rw [Position.offset_past]
    exact hplaced.deep.trans (Nat.le_add_right _ _)
  sees := hplaced.front.sees.past

/-- No text is long enough for its blocks to be deeper than numbers count: the header of a
clause takes as many characters as its depth, and so do those around it. -/
theorem Placed.depth_lt {body : List Char}
    (hplaced : Placed text depth scope place (clauseText levels run body) after)
    (hlength : levels.length = depth) : depth + 1 < 2 ^ 63 := by
  have hseen := congrArg List.length hplaced.sees
  have hfits := hplaced.fits
  have hdeep := hplaced.deep
  have hmargin := length_le_margin levels
  simp only [clauseText, List.length_drop, String.length_toList, List.length_append,
    List.length_cons] at hseen
  rw [offsetBound] at hfits
  omega

/-- A body is placed below its header. -/
theorem Placed.body {body : List Char}
    (hplaced : Placed text depth scope place (clauseText levels run body) after)
    (hinner : Level false (depth + 1) inner) :
    Placed text (depth + 1) inner (place.past (margin levels ++ (run ++ [':', '\n']))) body
      after := by
  have hsplit : Placed text depth scope place ((margin levels ++ (run ++ [':', '\n'])) ++ body)
      after := by
    simpa only [clauseText, List.append_assoc, List.cons_append, List.nil_append] using hplaced
  refine ⟨hplaced.fits, hinner, ?_, hsplit.past.sees⟩
  have hdeep := hplaced.deep
  simp only [Position.offset_past, List.length_append, List.length_cons]
  omega

/-- A header and the body below it are a clause. -/
theorem clause_matches {body : List Char} {kind : String} {children : Nat → List Value}
    (hheads : Heads header run kind children)
    (hplaced : Placed text depth scope place (clauseText levels run body) after)
    (hlength : levels.length = depth)
    (hbody : ∀ inner,
      Placed text (depth + 1) inner (place.past (margin levels ++ (run ++ [':', '\n']))) body
        after →
      (named "BLOCK").Matches text inner (place.past (margin levels ++ (run ++ [':', '\n'])))
        ⟨block, (place.past (margin levels ++ (run ++ [':', '\n']))).past body, inner⟩) :
    (clause header).Matches text scope place
      ⟨.node kind place.line (children place.line ++ [block]),
        place.past (clauseText levels run body), scope⟩ := by
  have hlevel := hplaced.level
  have hflat : place.Sees text (margin levels ++ (run ++ (':' :: ('\n' :: (body ++ after))))) := by
    simpa only [clauseText, List.append_assoc, List.cons_append] using hplaced.sees
  have hsplit : place.Sees text
      (margin levels ++ (run ++ ([':'] ++ ('\n' :: (body ++ after))))) := hflat
  have hunindented : Unindented (run ++ ([':'] ++ ('\n' :: (body ++ after)))) :=
    (hheads.begins.append _).unindented
  obtain ⟨indent, hindent⟩ := indentation_matches hlevel hsplit hunindented hlength
  have hheader := hheads.taken hplaced.fits hlevel.ready hsplit.past
  rw [line_past_of_oneLine place (oneLine_margin levels)] at hheader
  obtain ⟨mark, hmark⟩ := colon_matches hlevel.ready hsplit.past.past
  have hinline := inlineBody_misses hlevel hsplit.past.past.past
  have hnested := nestedBody_matches hlevel (hplaced.depth_lt hlength) hsplit.past.past.past
    fun inner hinner => by
      have hblock := hbody inner (hplaced.body hinner)
      simp only [← Position.past_append, List.append_assoc] at hblock ⊢
      exact hblock
  have hbodies : (choice [inlineBody, nestedBody]).Matches text scope
      (((place.past (margin levels)).past run).past [':'])
      ⟨block, (((place.past (margin levels)).past run).past [':']).past ('\n' :: body), scope⟩ :=
    choice_matches (List.forall_mem_singleton.mpr hinline) hnested
  have hmatches := matches_of_row (clause_form header)
    (.cons hindent (.cons hheader (.cons hmark (.single hbodies)))) rfl
  simp only [← Position.past_append, List.append_assoc] at hmatches
  exact hmatches

/-- The clause for a guard that is looked at where the ones before it have failed. -/
def furtherClause : Pattern :=
  clause (condition "elif")

/-- The clause for what is done where all guards have failed. -/
def lastClause : Pattern :=
  clause elseHeader

theorem branches_miss {multiline : Bool} {word : String}
    (hlevel : Level multiline depth scope) (hsees : place.Sees text after)
    (hafter : Follows depth after) (hword : word ∈ ["elif", "else"])
    (hheader : ∀ here, (keyword word).Misses text scope here → header.Misses text scope here) :
    (clause header).Misses text scope place := by
  obtain ⟨levels, content, rfl, hnext, hlength, hlacks⟩ := hafter
  refine clause_misses hlevel hsees hnext.unindented hlength fun hsame => hheader _ ?_
  exact keyword_misses hsees.past (hlacks hsame word hword)

/-- From a place on, branches are matched, which come to a tree if there are any. -/
def Branched (text : String) (scope : Scope) (place : Position) (branch : Option Value)
    (stop : Position) : Prop :=
  ∃ clauses middle last,
    (∀ count, Series text furtherClause none none count scope place clauses middle scope) ∧
      lastClause.optional.Matches text scope middle ⟨last, stop, scope⟩ ∧
      clauses.foldr chainBranch (elseBranch last) = branch

theorem Branched.none (hfurther : furtherClause.Misses text scope place)
    (hlast : lastClause.Misses text scope place) :
    Branched text scope place Option.none place :=
  ⟨[], place, .list [], fun _ => .missed not_fullAt_none (rowMisses_part_iff.mpr hfurther),
    matches_optional_iff.mpr (.inr ⟨hlast, rfl⟩), rfl⟩

theorem Branched.last (hfurther : furtherClause.Misses text scope place)
    (hlast : lastClause.Matches text scope place
      ⟨.node "else" place.line [block], stop, scope⟩) :
    Branched text scope place (some block) stop :=
  ⟨[], place, _, fun _ => .missed not_fullAt_none (rowMisses_part_iff.mpr hfurther),
    matches_optional_iff.mpr (.inl ⟨_, hlast, rfl⟩), rfl⟩

theorem Branched.further {middle : Position} {line : Nat} {children : List Value}
    (hfirst : furtherClause.Matches text scope place ⟨.node "if" line children, middle, scope⟩)
    (hmoved : middle.offset ≠ place.offset) (hrest : Branched text scope middle branch stop) :
    Branched text scope place (some (.node "if" line (children ++ branch.toList))) stop := by
  obtain ⟨clauses, after, last, hclauses, hlast, rfl⟩ := hrest
  exact ⟨_ :: clauses, after, last, fun count =>
    .moved not_fullAt_none (rowMatches_part_iff.mpr ⟨rfl, hfirst⟩) hmoved (hclauses (count + 1)),
    hlast, rfl⟩

theorem flow_form :
    flow.form = .sequence [clause headers, furtherClause.many, lastClause.optional] none :=
  rfl

theorem flow_finishValue (raw : Value) : flow.finishValue raw = flowValue raw :=
  rfl

/-- A clause with its branches is a statement. -/
theorem flow_matches {middle : Position} {kind : String} {line : Nat} {children : List Value}
    (hclause : (clause headers).Matches text scope place
      ⟨.node kind line children, middle, scope⟩)
    (hbranches : Branched text scope middle branch stop) :
    flow.Matches text scope place ⟨.node kind line (children ++ branch.toList), stop, scope⟩ := by
  obtain ⟨clauses, after, last, hclauses, hlast, rfl⟩ := hbranches
  have hmany : furtherClause.many.Matches text scope middle ⟨.list clauses, after, scope⟩ :=
    (matches_atLeast_iff (Nat.zero_le _)).mpr ⟨clauses, hclauses 0, Nat.zero_le _, rfl⟩
  have hmatches := matches_of_row flow_form (.cons hclause (.cons hmany (.single hlast))) rfl
  rw [flow_finishValue] at hmatches
  exact hmatches

end ScopedGrammar.Croco
