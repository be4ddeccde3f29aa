/-
# Empty lines and blanks that are inserted

Two ways to spread a program out are meant to leave its tree as it is: a line without a statement
between two lines, and a blank between two tokens inside brackets. Both are told by the seam where
something is inserted, and what a seam comes to is known. Each works except where the grammar
looks for something else at that place first, and then the diagnostic tells what it looked for.

What a seam asks of the text before and behind a line follows from both being programs: an
accepted program leaves no bracket open, and none begins with a branch.
-/

import ScopedGrammar.Proofs.Croco.SeamPrograms

namespace ScopedGrammar.Croco

open Pattern

variable {text : String} {value : Value} {scope : Scope} {place : Position}
  {rest after : List Char} {word : String} {words : List String}

/-- An accepted program closes its brackets, and may at most end within a comment. -/
theorem reader_of_parse (hparse : parse text = .ok value) :
    openBrackets text.toList = [] ∧ ((Reader.start.past text.toList).mode = .plain ∨
      (Reader.start.past text.toList).mode = .comment) := by
  obtain ⟨rule, stop, inner, hrule, hmatches, hend⟩ := Grammar.matches_of_parse hparse
  cases rule_program.symm.trans hrule
  have hsound : Sound (program.labelled "start") := .inl (by decide +kernel)
  obtain ⟨reader, rest, hreaches, hopened, hmode⟩ :=
    Clear.after (.start text) level_grammar hmatches hsound
  cases hreaches.sees.symm.trans hend
  obtain ⟨run, htext, -, rfl⟩ := hreaches
  rw [htext, List.append_nil]
  exact ⟨hopened, hmode.imp_right And.left⟩

theorem Mode.next_newline (mode : Mode) : mode.next '\n' ≠ .comment := by
  cases mode with
  | plain => decide
  | quoted quote =>
      simp only [Mode.next]
      split <;> simp
  | comment => decide

/-- A program that ends with a newline leaves nothing open. -/
theorem plain_of_parse (hparse : parse text = .ok value)
    (hnewline : text.toList.getLast? = some '\n') :
    (Reader.start.past text.toList).mode = .plain := by
  refine (reader_of_parse hparse).2.resolve_right ?_
  obtain ⟨before, hbefore⟩ := List.getLast?_eq_some_iff.mp hnewline
  rw [hbefore, Reader.past, List.foldl_append]
  exact Mode.next_newline _

/-- Where one of several words is next, their choice takes one. -/
theorem choice_keywords_matches (scope : Scope) (hsees : place.Sees text rest)
    (hwords : ¬ Lacks words rest) :
    ∃ success, (choice (words.map keyword)).Matches text scope place success := by
  suffices ∃ success, (Form.choice (words.map keyword)).Matches text scope place success by
    obtain ⟨success, hmatches⟩ := this
    exact ⟨success, matches_ofForm_iff.mpr hmatches⟩
  induction words with
  | nil => exact absurd nofun hwords
  | cons first others ih =>
      by_cases hfirst : ∀ after, rest = first.toList ++ after →
          ∃ c ∈ after.head?, isNameChar c = true
      · have hothers : ¬ Lacks others rest := fun hlacks =>
          hwords (List.forall_mem_cons.mpr ⟨hfirst, hlacks⟩)
        obtain ⟨success, hmatches⟩ := ih hothers
        exact ⟨success, Form.matches_choice_cons_iff.mpr
          (.inr ⟨keyword_misses hsees hfirst, hmatches⟩)⟩
      · obtain ⟨after, hafter⟩ := not_forall.mp hfirst
        obtain ⟨rfl, hnone⟩ := Classical.not_imp.mp hafter
        have hends : EndsWord after := fun c hc =>
          Bool.eq_false_iff.mpr fun hname => hnone ⟨c, hc, hname⟩
        exact ⟨_, Form.matches_choice_cons_iff.mpr (.inl (keyword_matches scope hsees hends))⟩

theorem head_of_branch (hword : word ∈ ["elif", "else"]) (after : List Char) :
    'e' ∈ (word.toList ++ after).head? := by
  rcases List.mem_pair.mp hword with rfl | rfl <;> rfl

theorem unblank_of_branch (hword : word ∈ ["elif", "else"]) (after : List Char)
    (multiline : Bool) : Unblank multiline (word.toList ++ after) := by
  refine unblank_of_head (fun c hc => ?_) multiline
  cases (head_of_branch hword after).symm.trans hc
  decide

/-- A word of a branch is no statement. -/
theorem statement_misses_of_branch (hready : Ready false scope)
    (hword : word ∈ ["elif", "else"]) (hafter : EndsWord after)
    (hsees : place.Sees text (word.toList ++ after)) : statement.Misses text scope place := by
  have hhead := head_of_branch hword after
  have hunblank := unblank_of_branch hword after false
  have hnoBlanks : place.Sees text ([] ++ (word.toList ++ after)) := hsees
  have hreserved : ¬ Lacks keywords (word.toList ++ after) := by
    intro hlacks
    have hkeyword : ["elif", "else"] ⊆ keywords := by decide
    obtain ⟨c, hc, hname⟩ := hlacks word (hkeyword hword) after rfl
    exact absurd hname (by rw [hafter c hc]; decide)
  obtain ⟨_, hreservedWord⟩ := choice_keywords_matches scope hsees hreserved
  have hname : identifier.Misses text scope place :=
    misses_of_row identifier_form (rowMisses_of_first (notAhead_misses hreservedWord))
  refine statement_misses_of_primary hready
    (keywordStatement_misses hready hsees hunblank (lacks_of_head hhead (by decide)))
    (primary_misses_of_identifier hready hnoBlanks (List.forall_mem_nil _) hunblank hname ?_)
  intro c hc
  cases hhead.symm.trans hc
  decide

/-- What begins with the indentation does not match a word of a branch if what comes after the
indentation does not. -/
theorem not_matches_branch {pattern next : Pattern} {parts : List Pattern}
    {picks : Option (List Nat)} {blanks : List Char} {success : Match}
    (hform : pattern.form = .sequence (named "INDENT" :: next :: parts) picks)
    (hlevel : Level false 0 scope) (hsees : place.Sees text (blanks ++ rest))
    (hblanks : Blank blanks) (hrest : Unindented rest)
    (hnext : ∀ here : Position, here.Sees text rest → next.Misses text scope here) :
    ¬ pattern.Matches text scope place success := by
  intro hmatches
  have hdeclines := opening_declines hform hlevel hsees fun levels after hsplit hafter => by
    obtain ⟨rfl, rfl⟩ := margin_of_blanks hsplit hblanks hrest hafter
    exact hnext _ hsees.past
  rcases hdeclines with hmisses | ⟨_, _, _, _, _, _, hstops, _⟩
  · exact hmatches.not_misses hmisses
  · exact hstops.not_matches hmatches

/-- No branch comes first in an accepted program. -/
theorem unbranched_of_parse (hparse : parse text = .ok value) {blanks : List Char}
    (hsplit : text.toList = blanks ++ rest) (hblanks : Blank blanks) :
    Lacks ["elif", "else"] rest := by
  rintro word hword after rfl
  by_contra hnone
  have hafter : EndsWord after := fun c hc =>
    Bool.eq_false_iff.mpr fun hname => hnone ⟨c, hc, hname⟩
  have hhead := head_of_branch hword after
  have hunblank := unblank_of_branch hword after true
  have hsome : word.toList ++ after ≠ [] := by
    intro hempty
    rw [hempty] at hhead
    cases hhead
  have hsees : Position.start.Sees text (blanks ++ (word.toList ++ after)) := hsplit
  rcases program_of_parse hparse with ⟨success, hblock, -, -⟩ | ⟨-, hempty⟩
  · obtain ⟨first, _, middle, -, hline, -⟩ := (reached_start text).block hblock
    rcases Reached.line hline with ⟨hmatches, -⟩ | hmatches | hmatches
    · exact hmatches.not_misses (emptyLine_misses level_grammar.ready hsees hblanks hunblank
        fun hended => absurd hended hsome)
    · obtain ⟨_, _, _, _, hrow, -, -⟩ := row_of_matches flow_form hmatches
      obtain ⟨clause, _, hclause, -, -⟩ := rowMatches_cons_iff.mp hrow
      refine not_matches_branch (clause_form headers) level_grammar hsees hblanks
        hunblank.unindented (fun here hhere => ?_) hclause
      exact headedBy_headers hhere (lacks_of_head hhead (by decide))
    · refine not_matches_branch simpleLine_form level_grammar hsees hblanks hunblank.unindented
        (fun here hhere => ?_) hmatches
      exact statements_miss level_grammar
        (statement_misses_of_branch level_grammar.ready hword hafter hhere)
  · rw [hsplit] at hempty
    exact hsome (List.append_eq_nil_iff.mp hempty).2

/-- A text is accepted as a program. -/
def Accepted (text : String) : Prop :=
  ∃ value, parse text = .ok value

theorem accepted_of_isOk (hparse : (parse text).isOk = true) : Accepted text := by
  cases hending : parse text with
  | error reason =>
      rw [hending] at hparse
      cases hparse
  | ok value => exact ⟨value, hending⟩

/-- Two texts are accepted, and their trees are written in one way. -/
def SameRendering (text other : String) : Prop :=
  ∃ value again, parse text = .ok value ∧ parse other = .ok again ∧ render again = render value

theorem exists_of_refusesWith {report : String}
    (hrefused : refusesWith report (parse text) = true) :
    ∃ diagnostic, parse text = .error (.diagnostic diagnostic) ∧ diagnostic.message = report := by
  unfold refusesWith at hrefused
  split at hrefused
  next diagnostic hparse => exact ⟨diagnostic, hparse, beq_iff_eq.mp hrefused⟩
  next => cases hrefused

/-- What a seam comes to, about the texts around it. -/
theorem Seam.outcome (seam : Seam) (haccepted : Accepted seam.edit.text) :
    SameRendering seam.edit.text seam.edit.edited ∨
      ∃ diagnostic, parse seam.edit.edited = .error (.diagnostic diagnostic) ∧
        (seam.Fair diagnostic ∨ Interline seam.front seam.gap seam.back ∧
          ReportsNote seam.front seam.gap seam.back diagnostic) := by
  obtain ⟨value, hparse⟩ := haccepted
  refine (parse_edited hparse).imp_left fun ⟨other, hother, halike⟩ => ?_
  exact ⟨value, other, hparse, hother, (render_eq_of_alike halike).symm⟩

/-- A line of blanks and a comment at most is inserted between two accepted programs that are
accepted in a row as well. The first one ends with a newline that is not escaped. At the end of
the text, the line may do without its newline. -/
structure InsertsLine (front line back : String) : Prop where
  front_accepted : Accepted front
  back_accepted : Accepted back
  accepted : Accepted (front ++ back)
  newline : front.toList.getLast? = some '\n'
  ended : ∀ before, front.toList = before ++ ['\\', '\n'] →
    (Reader.start.past before).mode ≠ .plain
  content : ∃ blanks note ending, line.toList = blanks ++ (note ++ ending) ∧ Blank blanks ∧
    IsNote note ∧ EndsLine ending back.toList
  something : line ≠ ""

variable {front line back : String}

theorem InsertsLine.interline (hinserts : InsertsLine front line back) :
    Interline front.toList line.toList back.toList := by
  obtain ⟨_, hfront⟩ := hinserts.front_accepted
  obtain ⟨_, hback⟩ := hinserts.back_accepted
  exact ⟨(reader_of_parse hfront).1, hinserts.newline, hinserts.ended, hinserts.content,
    fun hnone => hinserts.something (String.toList_eq_nil_iff.mp hnone),
    fun _ _ => unbranched_of_parse hback⟩

/-- The seam between the two programs. -/
def InsertsLine.seam (hinserts : InsertsLine front line back)
    (hfits : (front ++ line ++ back).length + 1 < offsetBound) : Seam where
  front := front.toList
  gap := line.toList
  back := back.toList
  plain := hinserts.front_accepted.elim fun _ hfront => plain_of_parse hfront hinserts.newline
  kind := .inr hinserts.interline
  fits := by simpa [← String.length_toList, Nat.add_assoc] using hfits

/-- An empty line changes nothing, if it is taken for one. -/
theorem parse_insert_line (hinserts : InsertsLine front line back)
    (hfits : (front ++ line ++ back).length + 1 < offsetBound) :
    SameRendering (front ++ back) (front ++ line ++ back) ∨
      ∃ diagnostic, parse (front ++ line ++ back) = .error (.diagnostic diagnostic) ∧
        (ReportsIndent front.toList line.toList diagnostic ∨
          ReportsNote front.toList line.toList back.toList diagnostic) := by
  have htext : (hinserts.seam hfits).edit.text = front ++ back := by
    simp [Seam.edit, InsertsLine.seam]
  have hedited : (hinserts.seam hfits).edit.edited = front ++ line ++ back := by
    simp [Seam.edit, InsertsLine.seam, ← String.toList_inj]
  have houtcome := (hinserts.seam hfits).outcome (htext ▸ hinserts.accepted)
  rw [htext, hedited] at houtcome
  refine houtcome.imp_right ?_
  rintro ⟨diagnostic, hparse, (⟨henclosed, -, -⟩ | ⟨-, hindent⟩) | ⟨-, hnote⟩⟩
  · exact absurd hinserts.interline.closed henclosed.opened
  · exact ⟨diagnostic, hparse, .inl hindent⟩
  · exact ⟨diagnostic, hparse, .inr hnote⟩

/-- What stands before an escaped newline ends with a backslash. -/
theorem getLast?_of_escaped {before : List Char} (hfront : front.toList = before ++ ['\\', '\n']) :
    front.toList.dropLast.getLast? = some '\\' := by
  rw [hfront, List.dropLast_append_of_ne_nil (List.cons_ne_nil _ _)]
  exact List.getLast?_concat

/-- A comment below a body belongs to no statement. -/
theorem parse_insert_line_of_comment :
    InsertsLine "if x:\n\ty\n" "\t # c\n" "z" ∧
      SameRendering ("if x:\n\ty\n" ++ "z") ("if x:\n\ty\n" ++ "\t # c\n" ++ "z") := by
  have hinserts : InsertsLine "if x:\n\ty\n" "\t # c\n" "z" :=
    ⟨accepted_of_isOk (by decide +kernel), accepted_of_isOk (by decide +kernel),
      accepted_of_isOk (by decide +kernel), by decide,
      fun _ hfront => absurd (getLast?_of_escaped hfront) (by decide),
      ⟨['\t', ' '], ['#', ' ', 'c'], ['\n'], rfl, by decide, .inr ⟨[' ', 'c'], rfl, by decide⟩,
        .inl rfl⟩, by decide⟩
  refine ⟨hinserts, (parse_insert_line hinserts (by decide)).resolve_right ?_⟩
  rintro ⟨diagnostic, hrefused, -⟩
  obtain ⟨value, hparse⟩ : Accepted ("if x:\n\ty\n" ++ "\t # c\n" ++ "z") :=
    accepted_of_isOk (by decide +kernel)
  cases hparse.symm.trans hrefused

/-- Below a body on the line of its header, blanks are taken for too much of an indentation, and
a comment at the end of the text is left over. -/
theorem not_parse_insert_line :
    (InsertsLine "if x: y\n" "  \n" "" ∧ ∃ diagnostic,
      parse ("if x: y\n" ++ "  \n" ++ "") = .error (.diagnostic diagnostic) ∧
        diagnostic.message = "too many indentations on line 2, column 1") ∧
      InsertsLine "a=1\n" "# c" "" ∧ ∃ diagnostic,
        parse ("a=1\n" ++ "# c" ++ "") = .error (.diagnostic diagnostic) ∧
          diagnostic.message = "unexpected character '#' at line 2, column 1" := by
  have hnothing : Accepted "" := accepted_of_isOk (by decide +kernel)
  have hbranch : Accepted "if x: y\n" := accepted_of_isOk (by decide +kernel)
  have hassignment : Accepted "a=1\n" := accepted_of_isOk (by decide +kernel)
  refine ⟨⟨?_, exists_of_refusesWith (by decide +kernel)⟩, ?_,
    exists_of_refusesWith (by decide +kernel)⟩
  · exact ⟨hbranch, hnothing, String.append_empty.symm ▸ hbranch, by decide,
      fun _ hfront => absurd (getLast?_of_escaped hfront) (by decide),
      ⟨[' ', ' '], [], ['\n'], rfl, by decide, .inl rfl, .inl rfl⟩, by decide⟩
  · exact ⟨hassignment, hnothing, String.append_empty.symm ▸ hassignment, by decide,
      fun _ hfront => absurd (getLast?_of_escaped hfront) (by decide),
      ⟨[], ['#', ' ', 'c'], [], rfl, by decide, .inr ⟨[' ', 'c'], rfl, by decide⟩,
        .inr ⟨rfl, rfl⟩⟩, by decide⟩

/-- A place in an accepted program that is inside brackets, and between two tokens. -/
structure InsertsBlank (front back : String) : Prop where
  accepted : Accepted (front ++ back)
  plain : (Reader.start.past front.toList).mode = .plain
  opened : openBrackets front.toList ≠ []
  apart : Apart front.toList back.toList

variable {c : Char}

/-- The seam between two tokens. -/
def InsertsBlank.seam (hinserts : InsertsBlank front back) (hblank : isBlankChar true c = true)
    (hfits : (front ++ String.singleton c ++ back).length + 1 < offsetBound) : Seam where
  front := front.toList
  gap := [c]
  back := back.toList
  plain := hinserts.plain
  kind := .inl ⟨hinserts.opened, hinserts.apart, c, rfl, hblank⟩
  fits := by simpa [← String.length_toList, Nat.add_assoc] using hfits

/-- Inside brackets a blank between two tokens changes nothing, unless a postfix operation comes
next and is looked for right there. Then the bracket around it counts as not closed. -/
theorem parse_insert_blank (hinserts : InsertsBlank front back)
    (hblank : isBlankChar true c = true)
    (hfits : (front ++ String.singleton c ++ back).length + 1 < offsetBound) :
    SameRendering (front ++ back) (front ++ String.singleton c ++ back) ∨
      Resumes front.toList back.toList ∧ ∃ diagnostic,
        parse (front ++ String.singleton c ++ back) = .error (.diagnostic diagnostic) ∧
          ReportsUnclosed front.toList [c] diagnostic := by
  have htext : (hinserts.seam hblank hfits).edit.text = front ++ back := by
    simp [Seam.edit, InsertsBlank.seam]
  have hedited :
      (hinserts.seam hblank hfits).edit.edited = front ++ String.singleton c ++ back := by
    simp [Seam.edit, InsertsBlank.seam, ← String.toList_inj]
  have houtcome := (hinserts.seam hblank hfits).outcome (htext ▸ hinserts.accepted)
  rw [htext, hedited] at houtcome
  refine houtcome.imp_right ?_
  rintro ⟨diagnostic, hparse, (⟨-, hresumes, hunclosed⟩ | ⟨hline, -⟩) | ⟨hline, -⟩⟩
  · exact ⟨hresumes, diagnostic, hparse, hunclosed⟩
  · exact absurd hline.closed hinserts.opened
  · exact absurd hline.closed hinserts.opened

/-- A newline between a call and an operator. -/
theorem parse_insert_blank_of_operator :
    InsertsBlank "x = (f(a)" "+ 1)" ∧ isBlankChar true '\n' = true ∧
      SameRendering ("x = (f(a)" ++ "+ 1)") ("x = (f(a)" ++ String.singleton '\n' ++ "+ 1)") := by
  have hinserts : InsertsBlank "x = (f(a)" "+ 1)" :=
    ⟨accepted_of_isOk (by decide +kernel), by decide, by decide,
      .of_last (by decide : _ = some ')') (by decide) (by decide)⟩
  have hblank : isBlankChar true '\n' = true := by decide
  refine ⟨hinserts, hblank, (parse_insert_blank hinserts hblank (by decide)).resolve_right ?_⟩
  rintro ⟨⟨-, c, hc, hbegins⟩, -⟩
  have hhead : "+ 1)".toList.head? = some '+' := by decide
  cases hhead.symm.trans hc
  exact absurd hbegins (by decide)

/-- After an index, a blank in front of another one is not taken. -/
theorem not_parse_insert_blank :
    InsertsBlank "(a[1]" "[2])" ∧ isBlankChar true ' ' = true ∧ ∃ diagnostic,
      parse ("(a[1]" ++ String.singleton ' ' ++ "[2])") = .error (.diagnostic diagnostic) ∧
        diagnostic.message = unclosedReport ')' '(' 1 :=
  ⟨⟨accepted_of_isOk (by decide +kernel), by decide, by decide,
      .of_last (by decide : _ = some ']') (by decide) (by decide)⟩, by decide,
    exists_of_refusesWith (by decide +kernel)⟩

end ScopedGrammar.Croco
