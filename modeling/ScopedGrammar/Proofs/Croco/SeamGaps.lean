/-
# The gap between two lines

Between two lines, the second match comes to the gap where the first comes to the next line. If
a line without a statement ends in the gap, it is taken for such a line. No clause and no
statement is taken there; but if more blanks stand in the gap than the depth asks for, they are
reported by whoever looks for one.
-/

import ScopedGrammar.Proofs.Croco.SeamLines

namespace ScopedGrammar.Croco

open Pattern

variable {seam : Seam} {text : String} {depth granted steps more : Nat} {scope otherScope : Scope}
  {place other : Position} {pattern next header : Pattern} {parts : List Pattern}
  {picks : Option (List Nat)} {blanks note ending tail run after rest : List Char} {word : String}

/-- Where blanks end, other blanks end as well. -/
theorem exists_of_blanks (hsplit : blanks ++ tail = run ++ after) (htail : Unindented tail)
    (hrun : Blank run) : ∃ further, blanks = run ++ further ∧ after = further ++ tail := by
  rcases List.append_eq_append_iff.mp hsplit with ⟨between, hbetween, htailSplit⟩ | hback
  · obtain rfl : between = [] := by
      rcases between with _ | ⟨c, between⟩
      · rfl
      · obtain ⟨hspace, htab⟩ := htail c (by rw [htailSplit]; rfl)
        exact ((hrun c (by rw [hbetween]; simp)).elim hspace htab).elim
    exact ⟨[], by rw [hbetween]; simp, by rw [htailSplit]; rfl⟩
  · exact hback

/-- Blanks that make up the levels of a line are all that it is indented by. -/
theorem margin_of_blanks {levels : List Indent} (hsplit : blanks ++ tail = margin levels ++ after)
    (hblanks : Blank blanks) (htail : Unindented tail) (hafter : Unindented after) :
    blanks = margin levels ∧ after = tail := by
  obtain ⟨further, rfl, rfl⟩ := exists_of_blanks hsplit htail (blank_margin levels)
  obtain rfl : further = [] := by
    rcases further with _ | ⟨c, further⟩
    · rfl
    · obtain ⟨hspace, htab⟩ := hafter c rfl
      exact ((hblanks c (by simp)).elim hspace htab).elim
  exact ⟨List.append_nil _, rfl⟩

theorem IsNote.head (hnote : IsNote note) (hending : EndsLine ending rest) :
    ∀ c ∈ (note ++ (ending ++ rest)).head?, c = '\n' ∨ c = '#' := by
  rcases hnote with rfl | ⟨content, rfl, -⟩
  · exact fun c hc => .inl (hending.head c hc)
  · rintro c ⟨⟩
    exact .inr rfl

theorem unindented_of_head (hrest : ∀ c ∈ rest.head?, c = '\n' ∨ c = '#') : Unindented rest := by
  intro c hc
  rcases hrest c hc with rfl | rfl <;> decide

theorem Lacks.misses {words : List String} (hlacks : Lacks words rest) (hword : word ∈ words)
    (hsees : place.Sees text rest) : (keyword word).Misses text scope place :=
  keyword_misses hsees (hlacks word hword)

/-- No word begins with the end of a line or with the mark of a comment. -/
theorem lacks_of_note {words : List String} (hwords : words ⊆ keywords)
    (hrest : ∀ c ∈ rest.head?, c = '\n' ∨ c = '#') : Lacks words rest := by
  have hreserved : Unreserved rest := unreserved_of_head fun c hc => by
    rcases hrest c hc with rfl | rfl <;> decide
  exact hreserved.mono hwords

/-- What begins with the indentation and does not go on at the end of a line misses in the gap,
or it reports blanks in the gap. -/
theorem gap_declines (hline : Interline seam.front seam.gap seam.back)
    (hform : pattern.form = .sequence (named "INDENT" :: next :: parts) picks)
    (hlevel : Level false depth scope) (hplace : place.offset = seam.front.length)
    (hnext : ∀ {here rest}, here.Sees seam.edit.edited rest →
      (∀ c ∈ rest.head?, c = '\n' ∨ c = '#') → next.Misses seam.edit.edited scope here) :
    pattern.Misses seam.edit.edited scope place ∨
      ∃ diagnostic, seam.edit.fair diagnostic ∧
        pattern.Stops seam.edit.edited scope place (.diagnostic diagnostic) := by
  obtain ⟨blanks, note, ending, hgap, hblanks, hnote, hending⟩ := hline.line
  have htail := hnote.head hending
  have hsees := (Seam.sees_within hplace).2
  have hwhole : seam.gap ++ seam.back = blanks ++ (note ++ (ending ++ seam.back)) := by
    rw [hgap, List.append_assoc, List.append_assoc]
  rw [hwhole] at hsees
  have hdeclines := opening_declines hform hlevel hsees fun levels after hsplit hafter => by
    obtain ⟨rfl, rfl⟩ := margin_of_blanks hsplit hblanks (unindented_of_head htail) hafter
    exact hnext hsees.past htail
  refine hdeclines.imp_right ?_
  rintro ⟨levels, c, after, diagnostic, hsplit, hc, hstops, hmessage, hposition⟩
  obtain ⟨further, hfurther, hbehind⟩ :=
    exists_of_blanks hsplit (unindented_of_head htail) (blank_margin levels)
  refine ⟨diagnostic, .inr ⟨hline, hmessage, ?_⟩, hstops⟩
  rcases further with _ | ⟨d, further⟩
  · obtain ⟨hspace, htab⟩ := unindented_of_head htail c (by
      rw [List.nil_append] at hbehind
      rw [← hbehind]
      rfl)
    exact (hc.elim hspace htab).elim
  · rw [List.cons_append, List.cons.injEq] at hbehind
    obtain ⟨rfl, -⟩ := hbehind
    refine ⟨margin levels, c, further ++ (note ++ ending), ?_, blank_margin levels, hc, ?_⟩
    · rw [hgap, hfurther, List.append_assoc, List.cons_append]
    · rw [hposition, Position.offset_past, hplace]

/-- A header begins with a word. -/
def HeadedBy (header : Pattern) (words : List String) : Prop :=
  ∀ ⦃text : String⦄ ⦃scope : Scope⦄ ⦃here : Position⦄ ⦃rest : List Char⦄,
    here.Sees text rest → Lacks words rest → header.Misses text scope here

theorem headedBy_condition (word : String) : HeadedBy (condition word) [word] :=
  fun _ _ _ _ hsees hlacks =>
    condition_misses (hlacks.misses List.mem_cons_self hsees)

theorem headedBy_else : HeadedBy elseHeader ["else"] :=
  fun _ _ _ _ hsees hlacks => map_misses _ (hlacks.misses List.mem_cons_self hsees)

theorem headedBy_headers : HeadedBy headers ["if", "while", "for"] := by
  intro text scope here rest hsees hlacks
  have hif : (condition "if").Misses text scope here :=
    headedBy_condition "if" hsees (hlacks.mono (by decide))
  have hwhile : (condition "while").Misses text scope here :=
    headedBy_condition "while" hsees (hlacks.mono (by decide))
  have hfor : forHeader.Misses text scope here :=
    misses_of_row rfl (rowMisses_of_first (hlacks.misses (by decide) hsees))
  exact choice_misses (by simp [hif, hwhile, hfor])

theorem clause_declines {words : List String} (hline : Interline seam.front seam.gap seam.back)
    (hheader : HeadedBy header words) (hwords : words ⊆ keywords)
    (hlevel : Level false depth scope) (hplace : place.offset = seam.front.length) :
    (clause header).Misses seam.edit.edited scope place ∨
      ∃ diagnostic, seam.edit.fair diagnostic ∧
        (clause header).Stops seam.edit.edited scope place (.diagnostic diagnostic) :=
  gap_declines hline (clause_form header) hlevel hplace fun hsees hrest =>
    hheader hsees (lacks_of_note hwords hrest)

/-- No branch begins the line that comes next. -/
theorem branch_declines {words : List String} (hline : Interline seam.front seam.gap seam.back)
    (hheader : HeadedBy header words) (hwords : words ⊆ ["elif", "else"])
    (hlevel : Level false depth scope) (hplace : place.offset = seam.front.length) :
    (clause header).Misses seam.edit.text scope place ∨
      ∃ reason, (clause header).Stops seam.edit.text scope place reason := by
  have hsees := (Seam.sees_within hplace).1
  have hdeclines := opening_declines (clause_form header) hlevel hsees
    fun levels after hsplit _ => by
      rw [hsplit] at hsees
      exact hheader hsees.past ((hline.unbranched _ _ hsplit (blank_margin levels)).mono hwords)
  exact hdeclines.imp_right fun ⟨_, _, _, _, _, _, hstops, _⟩ => ⟨_, hstops⟩

/-- At the seam, neither match goes on with a branch. -/
theorem branch_closed {words : List String}
    (hheader : HeadedBy header words) (hwords : words ⊆ ["elif", "else"])
    {ends : Position → Position → Prop} {values : Value → Value → Prop}
    (hspot : Spot seam (.line depth) (Between seam) scope place otherScope other)
    (hplace : place.offset = seam.front.length) (hother : other = place) :
    RoundGoes seam (.line depth) granted [clause header] ends values (fun _ _ => False) scope place
      otherScope other := by
  have hline := Seam.interline hspot.clear hplace
  have hreserved : ["elif", "else"] ⊆ keywords := by decide
  refine .closed fun fewer _ further => Edit.follows_row_closed ?_
  rcases branch_declines hline hheader hwords hspot.level hplace with hmisses | ⟨reason, hstops⟩
  · rcases clause_declines hline hheader (fun _ hword => hreserved (hwords hword)) hspot.otherLevel
      (hother ▸ hplace) with hdeclined | ⟨diagnostic, hfair, hrefused⟩
    · exact Edit.of_misses hmisses hdeclined fewer further
    · exact Edit.of_refused hrefused hfair _ further
  · exact Edit.of_stops hstops fewer further

theorem blanks_taken (hblanks : Blank blanks) (hrest : Unindented rest) {least : Nat}
    (hleast : least ≤ blanks.length) (hword : least ≤ 1) (scope : Scope)
    (hsees : place.Sees text (blanks ++ rest)) :
    ((oneOf " \t").atLeast least).Matches text scope place
      ⟨.list (charTokens place blanks), place.past blanks, scope⟩ := by
  refine run_matches hsees (Match.resolveBounds_none (hword.trans (by decide))) (fun c hc => ?_)
    (fun c hc => ?_) hleast
  · rcases hblanks c hc with rfl | rfl <;> decide
  · simp [inClass, hrest c hc]

/-- A comment is taken if there is one. -/
theorem note_taken (hready : Ready false scope) (hfits : text.length + 1 < offsetBound)
    (hnote : IsNote note) (hrest : ∀ c ∈ rest.head?, c = '\n')
    (hsees : place.Sees text (note ++ rest)) :
    ∃ value, (named "COMMENT").optional.Matches text scope place
      ⟨value, place.past note, scope⟩ := by
  rcases hnote with rfl | ⟨content, rfl, hcontent⟩
  · refine ⟨_, comment_optional_matches hready hsees fun c hc => ?_⟩
    rw [hrest c hc]
    decide
  · obtain ⟨value, hcomment⟩ := comment_matches hfits hsees hcontent hrest
    exact ⟨_, matches_optional_iff.mpr
      (.inl ⟨_, hready.matches_rule comment_isRule hcomment, rfl⟩)⟩

/-- At the end of a text, blanks and a comment are no empty line. -/
theorem ended_misses (hready : Ready false scope) (hfits : text.length + 1 < offsetBound)
    (hblanks : Blank blanks) (hnote : IsNote note) (hsees : place.Sees text (blanks ++ note)) :
    (sequence [(oneOf " \t").many, (named "COMMENT").optional, literal "\n"]).Misses text scope
      place := by
  have hrest : ∀ c ∈ (note ++ ([] ++ [])).head?, c = '\n' ∨ c = '#' := hnote.head (.inr ⟨rfl, rfl⟩)
  rw [← List.append_nil note] at hsees
  have hended : ∀ c ∈ ([] : List Char).head?, c = '\n' := nofun
  have htaken := blanks_taken hblanks (unindented_of_head hrest) (Nat.zero_le _) (Nat.zero_le 1)
    scope hsees
  obtain ⟨value, hcomment⟩ := note_taken hready hfits hnote hended hsees.past
  have hnewline : (literal "\n").Misses text scope ((place.past blanks).past note) :=
    literal_misses_of_head hsees.past.past rfl nofun
  exact misses_of_row rfl (rowMisses_of_rest htaken (rowMisses_of_rest hcomment
    (rowMisses_of_first hnewline)))

/-- A gap is a comment that goes on to the end of the text, behind blanks if need be. -/
structure EndsInNote (gap back : List Char) : Prop where
  comment : ∃ blanks content, gap = blanks ++ '#' :: content ∧ Blank blanks ∧ '\n' ∉ content
  ended : back = []

/-- The gap is taken for an empty line, unless it is a comment at the end of the text. -/
theorem gap_taken (hline : Interline seam.front seam.gap seam.back)
    (hlevel : Level false depth scope) (hplace : place.offset = seam.front.length) :
    emptyLine.Matches seam.edit.edited scope place ⟨.empty, place.past seam.gap, scope⟩ ∨
      EndsInNote seam.gap seam.back ∧ emptyLine.Misses seam.edit.edited scope place := by
  have hmade {raw : Match} (hraw : emptyLine.form.Matches seam.edit.edited scope place raw)
      (hplace : raw.position = place.past seam.gap) (hscope : raw.scope = scope) :
      emptyLine.Matches seam.edit.edited scope place ⟨.empty, place.past seam.gap, scope⟩ :=
    matches_iff.mpr ⟨raw, hraw, by rw [hplace, hscope]; rfl⟩
  obtain ⟨blanks, note, ending, hgap, hblanks, hnote, hending⟩ := hline.line
  have hsees := (Seam.sees_within hplace).2
  rcases hending with rfl | ⟨rfl, hback⟩
  · rw [hgap, List.append_assoc, List.append_assoc] at hsees
    have hrest := hnote.head (.inl rfl : EndsLine ['\n'] seam.back)
    have htaken := blanks_taken hblanks (unindented_of_head hrest) (Nat.zero_le _) (Nat.zero_le 1)
      scope hsees
    obtain ⟨value, hcomment⟩ := note_taken hlevel.ready seam.edited_fits hnote
      (by rintro c ⟨⟩; rfl) hsees.past
    have hend : ((place.past blanks).past note).Sees seam.edit.edited ("\n".toList ++ seam.back) :=
      hsees.past.past
    obtain ⟨mark, hnewline⟩ := literal_matches scope hend
    have hrow : (sequence [(oneOf " \t").many, (named "COMMENT").optional, literal "\n"]).Matches
        seam.edit.edited scope place _ :=
      matches_of_row rfl (.cons htaken (.cons hcomment (.single hnewline))) rfl
    refine .inl (hmade (emptyLine_form ▸ Form.matches_choice_cons_iff.mpr (.inl hrow)) ?_ rfl)
    rw [hgap, Position.past_append, Position.past_append]
    rfl
  · rw [List.append_nil] at hgap
    rw [hgap, hback, List.append_nil] at hsees
    have hfirst := ended_misses hlevel.ready seam.edited_fits hblanks hnote hsees
    rcases hnote with rfl | ⟨content, rfl, hcontent⟩
    · have hsome : blanks ≠ [] := by
        have hgapSome := hline.something
        rwa [hgap, List.append_nil] at hgapSome
      rw [List.append_nil] at hgap
      have hended : Unindented [] := nofun
      have htaken := blanks_taken hblanks hended (List.length_pos_iff.mpr hsome) (Nat.le_refl 1)
        scope hsees
      have hfinish : finish.Matches seam.edit.edited scope (place.past blanks)
          ⟨.endMark, place.past blanks, scope⟩ :=
        matches_ofForm_iff.mpr ((Form.matches_finish_iff hsees.past).mpr ⟨rfl, rfl⟩)
      have hrow : (sequence [(oneOf " \t").atLeast 1, finish]).Matches
          seam.edit.edited scope place _ :=
        matches_of_row rfl (.cons htaken (.single hfinish)) rfl
      refine .inl (hmade (emptyLine_form ▸ Form.matches_choice_cons_iff.mpr (.inr ⟨hfirst,
        Form.matches_choice_cons_iff.mpr (.inl hrow)⟩)) ?_ rfl)
      rw [hgap]
    · refine .inr ⟨⟨⟨blanks, content, hgap, hblanks, hcontent⟩, hback⟩, map_misses _
        (misses_of_form (Form.choice_cons_misses hfirst
          (Form.choice_cons_misses (misses_of_row rfl ?_) Form.choice_nil_misses)))⟩
      have hmark : Unindented ('#' :: content) :=
        unindented_of_head (by rintro c ⟨⟩; exact .inr rfl)
      by_cases hnone : blanks = []
      · subst hnone
        exact rowMisses_of_first (run_misses_of_head hsees (Match.resolveBounds_none (by decide))
          Nat.one_pos (by rintro c ⟨⟩; decide))
      · have htaken := blanks_taken hblanks hmark (List.length_pos_iff.mpr hnone) (Nat.le_refl 1)
          scope hsees
        exact rowMisses_of_rest htaken (rowMisses_of_first
          (misses_of_form (Form.finish_misses hsees.past (List.cons_ne_nil _ _))))

/-- A comment at the end of the text is no line on its own, and no line comes there either. -/
theorem ended_closed (hline : Interline seam.front seam.gap seam.back)
    (hspot : Spot seam (.line depth) (Between seam) scope place otherScope other)
    (hplace : place.offset = seam.front.length) (hother : other = place) (hback : seam.back = [])
    (hempty : emptyLine.Misses seam.edit.edited otherScope other) (steps more : Nat) :
    seam.edit.Follows (fun _ _ => False) (line.run steps scope place)
      (line.run more otherScope other) := by
  have hsees := (Seam.sees_within hplace).1
  rw [hback] at hsees
  have hnext : Next [] [] := ⟨nofun, fun _ => rfl⟩
  have hend : place.Sees seam.edit.text (margin [] ++ []) := hsees
  have hlacks {words : List String} (hwords : words ⊆ keywords) : Lacks words [] :=
    lacks_of_note hwords nofun
  have hstatement (here : Position) (hhere : here.Sees seam.edit.text []) :
      statement.Misses seam.edit.text scope here :=
    statement_misses hspot.level.ready hhere nofun
  have hdeclines {pattern : Pattern} (hmisses : pattern.Misses seam.edit.text scope place)
      (hother : pattern.Misses seam.edit.edited otherScope other ∨
        ∃ diagnostic, seam.edit.fair diagnostic ∧
          pattern.Stops seam.edit.edited otherScope other (.diagnostic diagnostic))
      (steps more : Nat) : seam.edit.Follows (fun _ _ => False) (pattern.run steps scope place)
        (pattern.run more otherScope other) := by
    rcases hother with hdeclined | ⟨diagnostic, hfair, hrefused⟩
    · exact Edit.of_misses hmisses hdeclined steps more
    · exact Edit.of_refused hrefused hfair _ more
  have hotherPlace : other.offset = seam.front.length := hother ▸ hplace
  refine Edit.follows_choice line_form ?_
  simp only [List.forall_mem_cons, List.not_mem_nil, false_implies, implies_true, and_true]
  refine ⟨fun fewer _ further => ?_, fun fewer _ further => ?_, fun fewer _ further => ?_⟩
  · exact Edit.of_misses (hnext.emptyLine_misses hspot.level.ready hend) hempty fewer further
  · refine hdeclines (flow_misses hspot.level hend nofun (Nat.zero_le _) fun _ =>
      hlacks (by decide)) ?_ fewer further
    exact (clause_declines hline headedBy_headers (by decide) hspot.otherLevel hotherPlace).imp
      (fun hmisses => misses_of_row flow_form (rowMisses_of_first hmisses))
      fun ⟨diagnostic, hfair, hstops⟩ =>
        ⟨diagnostic, hfair, stops_of_row flow_form (rowHalts_of_first hstops)⟩
  · refine hdeclines (simpleLine_misses hspot.level hend nofun (Nat.zero_le _) fun _ =>
      hstatement _ hend.past) ?_ fewer further
    exact gap_declines hline simpleLine_form hspot.otherLevel hotherPlace fun hhere hrest =>
      statements_miss hspot.otherLevel (statement_misses hspot.otherLevel.ready hhere hrest)

end ScopedGrammar.Croco
