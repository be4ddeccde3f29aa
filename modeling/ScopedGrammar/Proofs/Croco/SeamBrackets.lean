/-
# Brackets at a seam

Everything that blanks may stand around takes the gap along, and so does what stands between
brackets, since newlines are blanks there. Only if a postfix operation comes next, nobody takes
it any more behind the gap. From there on the second match is lost: it takes neither a comma nor
an operator, and the closing bracket that it needs there is missing.
-/

import ScopedGrammar.Proofs.Croco.SeamBlanks
import ScopedGrammar.Proofs.Croco.SeamSeries
import ScopedGrammar.Proofs.Croco.SeamTokens

namespace ScopedGrammar.Croco

open Pattern

variable {seam : Seam} {setting : Setting} {scope otherScope : Scope} {place other : Position}
  {granted steps more : Nat} {pattern inner : Pattern} {kind : Char → Bool}
  {begins ends : Position → Position → Prop} {values : Value → Value → Prop}

/-- No postfix operation is next in front of the gap. -/
theorem postfixStep_misses_gap (hplace : place.offset = seam.front.length) :
    postfixStep.Misses seam.edit.edited scope place := by
  refine postfixStep_misses (Seam.sees_within hplace).2 fun c hc => ?_
  rw [seam.head?_gap_append] at hc
  obtain ⟨d, rest, hgap, hd⟩ := seam.head_gap
  rw [hgap] at hc
  cases hc
  have hother := (Seam.gapStarts_apart _ hd).2
  simp only [List.mem_cons, not_or] at hother
  exact ⟨hother.1, hother.2.1, hother.2.2.1⟩

theorem Resumes.enclosed (hresumes : Resumes seam.front seam.back) :
    Enclosed seam.front seam.gap seam.back := by
  refine seam.kind.resolve_right fun hline => ?_
  obtain ⟨⟨c, hc, hends⟩, -⟩ := hresumes
  cases hline.newline.symm.trans hc
  cases hends

/-- Between brackets, a postfix operation would go on across the seam. The second match has gone
over the beginning of the gap, where that operation does not begin. -/
structure Astray (seam : Seam) (setting : Setting) (passed : List Char) (scope : Scope)
    (place : Position) : Prop where
  resumes : Resumes seam.front seam.back
  opened : openBrackets seam.front = setting.opened
  level : Level true setting.depth scope
  offset_eq : place.offset = seam.front.length + passed.length

namespace Astray

variable {passed : List Char}

/-- Behind the gap, a postfix operation comes next. -/
theorem sees (hastray : Astray seam setting seam.gap scope place) :
    ∃ c rest, place.Sees seam.edit.edited (c :: rest) ∧ beginsSuffix c = true := by
  obtain ⟨-, c, hc, hbegins⟩ := hastray.resumes
  obtain ⟨rest, hback⟩ := List.head?_eq_some_iff.mp hc
  refine ⟨c, rest, ?_, hbegins⟩
  rw [← hback, Position.Sees, hastray.offset_eq, Seam.edit, String.toList_ofList, ← List.drop_drop,
    List.drop_left, List.drop_left]

theorem beginsSuffix_cases {c : Char} (hbegins : beginsSuffix c = true) :
    c = '.' ∨ c = '(' ∨ c = '[' := by
  simpa [beginsSuffix, or_assoc] using hbegins

/-- What begins no postfix operation is not taken behind the gap. -/
theorem literal_misses (hastray : Astray seam setting seam.gap scope place) {expected : String}
    {first : Char} (hexpected : expected.toList.head? = some first)
    (hfirst : beginsSuffix first = false) (scope : Scope) :
    (literal expected).Misses seam.edit.edited scope place := by
  obtain ⟨c, rest, hsees, hbegins⟩ := hastray.sees
  refine literal_misses_of_head hsees hexpected ?_
  rintro d ⟨⟩ rfl
  rw [hfirst] at hbegins
  cases hbegins

/-- No operator comes behind the gap. -/
theorem step_misses (hastray : Astray seam setting seam.gap scope place) (tier : Tier) :
    tier.step.Misses seam.edit.edited scope place := by
  have hwords : (choice (tier.operators.map Operator.spelling |>.map literal)).Misses
      seam.edit.edited scope place := by
    apply choice_misses
    simp only [List.forall_mem_map]
    intro operator _
    obtain ⟨first, hfirst, hother⟩ : ∃ first, operator.spelling.toList.head? = some first ∧
        beginsSuffix first = false := by
      cases operator <;> exact ⟨_, rfl, by decide⟩
    exact hastray.literal_misses hfirst hother scope
  exact sequence_misses (rowMisses_of_first (capture_misses (map_misses _ hwords)))

/-- Blanks go over the gap. -/
theorem spaces_match (hastray : Astray seam setting [] scope place) :
    ∃ value, (named "SPACES").Matches seam.edit.edited scope place
      ⟨value, place.past seam.gap, scope⟩ := by
  obtain ⟨-, -, c, hgap, hblank⟩ := hastray.resumes.enclosed
  have hsees := (Seam.sees_within hastray.offset_eq).2
  rw [hgap] at hsees ⊢
  obtain ⟨value, run, hrun, hmatches⟩ :=
    Croco.spaces_match hastray.level.ready (fun _ => seam.edited_fits) hsees
  have hback : skip true false seam.back = seam.back := by
    obtain ⟨-, d, hd, hbegins⟩ := hastray.resumes
    obtain ⟨rest, hback⟩ := List.head?_eq_some_iff.mp hd
    obtain ⟨hunblank, hbackslash, hmark⟩ : isBlankChar true d = false ∧ d ≠ '\\' ∧ d ≠ '#' := by
      rcases beginsSuffix_cases hbegins with rfl | rfl | rfl <;> decide
    rw [hback]
    refine skip_unspaced ⟨?_, ?_, ?_⟩
    · rintro _ ⟨⟩
      exact hunblank
    · exact fun hcontinued => hbackslash (List.cons_prefix_cons.mp hcontinued).1.symm
    · rintro - _ ⟨⟩
      exact hmark
  rw [List.singleton_append, skip_blank hblank, hback] at hrun
  obtain rfl : run = [c] := (List.append_cancel_right hrun).symm
  exact ⟨value, hmatches⟩

theorem past (hastray : Astray seam setting [] scope place) :
    Astray seam setting seam.gap scope (place.past seam.gap) := by
  refine ⟨hastray.resumes, hastray.opened, hastray.level, ?_⟩
  rw [Position.offset_past, hastray.offset_eq]
  rfl

theorem multiline (hastray : Astray seam setting passed scope place) : setting.multiline = true :=
  Setting.multiline_iff.mpr (hastray.opened ▸ hastray.resumes.enclosed.opened)

/-- The scope that was handed in is as good as that where the match ended. -/
theorem back (hastray : Astray seam setting passed scope place)
    (hlevel : Level setting.multiline setting.depth otherScope) :
    Astray seam setting passed otherScope place :=
  ⟨hastray.resumes, hastray.opened, hastray.multiline ▸ hlevel, hastray.offset_eq⟩

end Astray

/-- Where an expression may begin: between brackets at the seam as well, but not right after a
name or a number. -/
def Starts (seam : Seam) (setting : Setting) (place other : Position) : Prop :=
  seam.Faces (setting.multiline = true) place other ∧
    (setting.multiline = true → Fresh seam place)

/-- Only between brackets, something other than the end of a line leads to the seam. -/
theorem Spot.settle (hspot : Spot seam setting (seam.Faces (seam.Ended kind)) scope place otherScope
      other) (hkind : kind '\n' = false) :
    Spot seam setting (seam.Faces (setting.multiline = true)) scope place otherScope other := by
  refine hspot.mono fun hfaces => ?_
  by_cases hmultiline : setting.multiline = true
  · exact hfaces.mono fun _ => hmultiline
  · have hclosed : setting.opened = [] := not_not.mp (mt Setting.multiline_iff.mpr hmultiline)
    exact (hfaces.free (hclosed ▸ hspot.clear) hkind).mono False.elim

theorem spaces_arrive
    (hspot : Spot seam setting (seam.Faces (setting.multiline = true)) scope place otherScope
      other) :
    seam.edit.Follows
      (Arrives seam setting (fun here there => seam.Free here there ∧
        (Fresh seam place → Fresh seam here)) fun _ _ => True)
      ((named "SPACES").run steps scope place) ((named "SPACES").run more otherScope other) :=
  hspot.arrives (.inl (by decide)) (by decide) (spaces_land hspot)

/-- Blanks around a pattern take the gap along. -/
theorem spaced_paces (kind : Char → Bool) {around : Position → Position → Prop}
    (hinner : Paces seam setting granted inner begins
      (Arrives seam setting (seam.Faces (seam.Ended kind)) values)) (hkind : kind '\n' = false)
    (haround : ∀ place other, around place other →
      seam.Faces (setting.multiline = true) place other)
    (hbegins : ∀ place other here there, around place other → seam.Free here there →
      (Fresh seam place → Fresh seam here) → begins here there) :
    Paces seam setting granted (spaced inner) around (Arrives seam setting seam.Free values) := by
  intro scope place otherScope other hspot steps hsteps more
  refine Edit.follows_sequence (spaced_form inner) fun fewer hfewer further => ?_
  refine Edit.follows_row_cons (spaces_arrive (hspot.mono (haround _ _)))
    fun blanks otherBlanks hblanks => ?_
  have hbegun := hblanks.2.mono fun ⟨hfree, hfresh⟩ => hbegins _ _ _ _ hspot.faces hfree hfresh
  refine Edit.follows_row_cons (hinner hbegun fewer (hfewer.le.trans hsteps) further)
    fun middle otherMiddle hmiddle => ?_
  refine Edit.follows_row_cons (spaces_arrive (hmiddle.2.settle hkind)) fun _ _ hlast => ?_
  exact Edit.follows_row_nil ⟨_, _, rfl, rfl, hmiddle.1, hlast.2.mono And.left⟩

/-- The name of a rule for tokens is matched as the rule is, with any number of steps. -/
theorem token_paces {name : String} {rule : Pattern} (hname : name ∈ ruleNames)
    (hrule : grammar.scope.rule? name = some (rule.labelled name)) (hsound : Sound rule)
    (hexposed : rule.exposed ⊆ captures)
    (hlands : ∀ {scope place otherScope other},
      Spot seam setting begins scope place otherScope other → ∀ steps more,
        seam.edit.Follows (Lands ends values) (rule.run steps scope place)
          (rule.run more otherScope other)) (granted : Nat) :
    Paces seam setting granted (named name) begins (Arrives seam setting ends values) := by
  have hrun : Paces seam setting granted rule begins (Arrives seam setting ends values) :=
    fun _ _ _ _ hspot steps _ more => hspot.arrives hsound hexposed (hlands hspot steps more)
  exact (hrun.named hname hrule fun _ _ _ _ _ _ hspot harrives => harrives.back hspot).le
    (Nat.le_succ granted)

theorem identifier_paces (granted : Nat) :
    Paces seam setting granted (named "IDENTIFIER") seam.Free
      (Arrives seam setting (seam.Faces (seam.Ended isNameChar)) Value.Alike) :=
  token_paces (by decide) rfl (.inl (by decide +kernel)) (by decide)
    (fun hspot _ _ => identifier_lands hspot.faces) granted

theorem number_paces (granted : Nat) :
    Paces seam setting granted (named "NUMBER") (Begun seam setting)
      (Arrives seam setting (seam.Faces (seam.Ended isNumeral)) Value.Alike) :=
  token_paces (by decide) rfl (.inl (by decide +kernel)) (by decide)
    (fun hspot _ _ => number_lands hspot) granted

theorem string_paces (granted : Nat) :
    Paces seam setting granted (named "STRING") seam.Free
      (Arrives seam setting (seam.Faces (seam.Ended isQuote)) Value.Alike) :=
  token_paces (by decide) rfl (.inr (.inr rfl)) (by decide) (fun hspot _ _ => string_lands hspot)
    granted

section Brackets

variable {bracket : Bracket} {make : Value → Value} {line : Nat} {opened : List (Bracket × Nat)}

theorem ofTemplate_unclosed (bracket : Bracket) :
    Message.ofTemplate ("expected closing '" ++ inTemplate (String.ofList [bracket.closing]) ++
      "' for '" ++ inTemplate (String.ofList [bracket.opening]) ++
        "' opened on line \x7bbracket_opening.line\x7d") = bracket.unclosed := by
  apply eq_of_beq
  cases bracket <;> decide +kernel

theorem around_unclosed (bracket : Bracket) (body : Pattern) (make : Value → Value) :
    (bracket.around body make).form = .sequence
      [(literal (String.ofList [bracket.opening])).capture "bracket_opening", bracketBody body,
        ofForm (.demand (literal (String.ofList [bracket.closing])) bracket.unclosed)]
      (some [0, 1]) := by
  rw [← ofTemplate_unclosed]
  rfl

/-- The setting between brackets. -/
abbrev Setting.within (setting : Setting) (bracket : Bracket) (line : Nat) : Setting :=
  ⟨setting.depth, (bracket, line) :: setting.opened⟩

/-- Two matches have gone past an opening bracket. -/
structure Enters (seam : Seam) (setting : Setting) (bracket : Bracket) (scope : Scope)
    (place : Position) (otherScope : Scope) (other : Position) (success otherSuccess : Match) :
    Prop where
  values : success.value.Alike otherSuccess.value
  scope_eq : success.scope = scope.bind "bracket_opening" (.value (bracket.token place))
  otherScope_eq :
    otherSuccess.scope = otherScope.bind "bracket_opening" (.value (bracket.token other))
  clear : Clear seam.edit.text (setting.within bracket place.line).opened success.position
  faces : seam.Faces True success.position otherSuccess.position
  fresh : Fresh seam success.position
  later : other.offset < otherSuccess.position.offset

/-- What ends with neither a name nor a number leaves no name and no number before a place. -/
theorem fresh_of_literal {expected : String} {success : Match}
    (hmatches : (literal expected).Matches seam.edit.text scope place success)
    (hsome : expected.toList ≠ [])
    (hlast : ∀ c ∈ expected.toList.getLast?, isNameChar c = false ∧ c ≠ '.') :
    Fresh seam success.position := by
  have hsees : place.Sees seam.edit.text (seam.edit.text.toList.drop place.offset) := rfl
  obtain ⟨rest, hrest, rfl⟩ := (matches_literal_iff hsees).mp hmatches
  intro passed ahead hfront _ hoffset
  rw [Position.offset_past] at hoffset
  have htaken : passed = seam.edit.text.toList.take place.offset ++ expected.toList := by
    have htext : seam.edit.text.toList = passed ++ (ahead ++ seam.back) := by
      rw [Seam.edit, String.toList_ofList, hfront, List.append_assoc]
    calc passed = seam.edit.text.toList.take passed.length := by rw [htext, List.take_left]
      _ = seam.edit.text.toList.take (place.offset + expected.toList.length) := by rw [hoffset]
      _ = _ := by rw [List.take_add, hrest, List.take_left]
  rw [htaken, List.getLast?_append_of_ne_nil _ hsome]
  exact hlast

theorem character_taken {text : String} {c : Char} {success : Match}
    (hmatches : (literal (String.ofList [c])).Matches text scope place success) :
    ∃ rest, place.Sees text (c :: rest) ∧
      success = ⟨.token ⟨String.ofList [c], place, place.past [c]⟩, place.past [c], scope⟩ := by
  have hsees : place.Sees text (text.toList.drop place.offset) := rfl
  obtain ⟨rest, hrest, rfl⟩ := (matches_literal_iff hsees).mp hmatches
  rw [String.toList_ofList] at hrest ⊢
  exact ⟨rest, hrest, rfl⟩

theorem joined_character (c : Char) :
    joined (String.ofList [c]).toList = true ∧ (String.ofList [c]).toList ≠ [] := by
  rw [String.toList_ofList]
  exact ⟨rfl, List.cons_ne_nil _ _⟩

theorem opening_enters (hspot : Spot seam setting seam.Free scope place otherScope other) :
    seam.edit.Follows (Enters seam setting bracket scope place otherScope other)
      (((literal (String.ofList [bracket.opening])).capture "bracket_opening").run steps scope
        place)
      (((literal (String.ofList [bracket.opening])).capture "bracket_opening").run more otherScope
        other) := by
  obtain ⟨hjoined, hsome⟩ := joined_character bracket.opening
  refine Edit.follows_capture fun fewer _ further => ?_
  have hfirst := (literal_lands scope otherScope hjoined hsome hspot.faces nofun fewer
    further).promised _ fun success _ hrun => matches_of_run hrun
  have hboth := hfirst.promised_other _ fun success _ hrun => matches_of_run hrun
  refine hboth.mono fun success otherSuccess ⟨⟨hlands, hmatches⟩, hother⟩ => ?_
  have hfresh := fresh_of_literal hmatches hsome (by
    rw [String.toList_ofList]
    rintro c ⟨⟩
    cases bracket <;> decide)
  obtain ⟨rest, hsees, rfl⟩ := character_taken hmatches
  obtain ⟨_, _, rfl⟩ := character_taken hother
  refine ⟨hlands.1, rfl, rfl, hspot.clear.opening hsees, hlands.2.mono fun _ => trivial, hfresh, ?_⟩
  rw [Position.offset_past]
  exact Nat.lt_succ_self _

/-- What stands between brackets is matched where newlines are blanks. The scopes are handed
back. -/
theorem body_follows (inside : Setting) (hopened : inside.opened ≠ [])
    (hinner : Paces seam inside granted inner (Begun seam inside)
      (Reaches seam inside seam.Free values (Astray seam inside seam.gap)))
    {multiline : Bool} (hlevel : Level multiline inside.depth scope)
    (hotherLevel : Level multiline inside.depth otherScope)
    (hclear : Clear seam.edit.text inside.opened place) (hfaces : seam.Faces True place other)
    (hfresh : Fresh seam place) (hsteps : steps ≤ granted) (more : Nat) :
    seam.edit.Follows
      (fun success otherSuccess => success.scope = scope ∧ otherSuccess.scope = otherScope ∧
        (values success.value otherSuccess.value ∧
            Clear seam.edit.text inside.opened success.position ∧
            seam.Free success.position otherSuccess.position ∨
          ∃ within, Astray seam inside seam.gap within otherSuccess.position))
      ((bracketBody inner).run steps scope place)
      ((bracketBody inner).run more otherScope other) := by
  have hmultiline := Setting.multiline_iff.mpr hopened
  refine Edit.follows_overlay fun frame hframe => ?_
  cases hframe
  refine ⟨_, rfl, fun fewer hfewer further => ?_⟩
  have hspot : Spot seam inside (seam.Faces (inside.multiline = true))
      (scope.push [("SPACES", .rule (named "MULTILINE_SPACES"))]) place
      (otherScope.push [("SPACES", .rule (named "MULTILINE_SPACES"))]) other :=
    ⟨hmultiline ▸ hlevel.bracketed, hmultiline ▸ hotherLevel.bracketed, hclear,
      hfaces.mono fun _ => hmultiline⟩
  refine Edit.follows_sequence rfl fun few hfew far => ?_
  refine Edit.follows_row_cons (spaces_arrive hspot) fun blanks otherBlanks hblanks => ?_
  have hbegun : Spot seam inside (Begun seam inside) blanks.scope blanks.position
      otherBlanks.scope otherBlanks.position :=
    hblanks.2.mono fun ⟨hfree, hkept⟩ => ⟨hfree, fun _ => hkept hfresh⟩
  refine Edit.follows_row_cons (hinner hbegun few (by omega) far)
    fun result otherResult hresult => ?_
  refine Edit.follows_row_nil ⟨_, _, rfl, rfl, rfl, rfl, hresult.imp ?_ fun hastray => ⟨_, hastray⟩⟩
  exact fun harrives => ⟨harrives.1, harrives.2.clear, harrives.2.faces⟩

theorem closing_arrives (hlevel : Level setting.multiline setting.depth scope)
    (hotherLevel : Level setting.multiline setting.depth otherScope)
    (hclear : Clear seam.edit.text (setting.within bracket line).opened place)
    (hfree : seam.Free place other) :
    seam.edit.Follows
      (Arrives seam setting (seam.Faces (seam.Ended (· == bracket.closing))) fun _ _ => True)
      ((literal (String.ofList [bracket.closing])).run steps scope place)
      ((literal (String.ofList [bracket.closing])).run more otherScope other) := by
  obtain ⟨hjoined, hsome⟩ := joined_character bracket.closing
  have hfirst := (literal_lands scope otherScope hjoined hsome hfree nofun steps more).promised _
    fun success _ hrun => matches_of_run hrun
  have hboth := hfirst.promised_other _ fun success _ hrun => matches_of_run hrun
  refine hboth.mono fun success otherSuccess ⟨⟨hlands, hmatches⟩, hother⟩ => ?_
  obtain ⟨rest, hsees, rfl⟩ := character_taken hmatches
  obtain ⟨_, _, rfl⟩ := character_taken hother
  refine ⟨trivial, hlevel, hotherLevel, hclear.closing hsees, hlands.2.mono fun hended => ?_⟩
  refine hended.mono fun c hc => ?_
  rw [endsWith, String.toList_ofList] at hc
  exact beq_iff_eq.mpr (Option.some.inj (beq_iff_eq.mp hc)).symm

/-- The closing bracket is demanded, and the first match has it. -/
theorem closing_demanded (hlevel : Level setting.multiline setting.depth scope)
    (hotherLevel : Level setting.multiline setting.depth otherScope)
    (hclear : Clear seam.edit.text (setting.within bracket line).opened place)
    (hfree : seam.Free place other) :
    seam.edit.Follows
      (Arrives seam setting (seam.Faces (seam.Ended (· == bracket.closing))) fun _ _ => True)
      ((ofForm (.demand (literal (String.ofList [bracket.closing])) bracket.unclosed)).run steps
        scope place)
      ((ofForm (.demand (literal (String.ofList [bracket.closing])) bracket.unclosed)).run more
        otherScope other) := by
  rw [← ofTemplate_unclosed]
  exact Edit.follows_demand fun _ _ _ => closing_arrives hlevel hotherLevel hclear hfree

/-- Where the second match is lost, it reports that the bracket is not closed. -/
theorem closing_refused {within : Scope}
    (hastray : Astray seam (setting.within bracket line) seam.gap within other)
    {opening : Position} (hline : opening.line = line)
    (hbound : otherScope.find? "bracket_opening" = some (.value (bracket.token opening))) :
    ∃ diagnostic, seam.edit.fair diagnostic ∧
      (ofForm (.demand (literal (String.ofList [bracket.closing])) bracket.unclosed)).Stops
        seam.edit.edited otherScope other (.diagnostic diagnostic) := by
  have hmisses : (literal (String.ofList [bracket.closing])).Misses seam.edit.edited otherScope
      other :=
    hastray.literal_misses (by rw [String.toList_ofList]; rfl) (by cases bracket <;> decide) _
  refine ⟨_, .inl ⟨hastray.resumes.enclosed, hastray.resumes, ⟨⟨bracket, line, ?_, ?_⟩, ?_⟩⟩,
    stops_of_form (Form.demand_stops hmisses)⟩
  · rw [hastray.opened]
    rfl
  · rw [bracket.message_unclosed _ _ hbound, hline]
  · rw [position_complaint, hastray.offset_eq]

/-- A pattern between brackets is matched if the pattern is, and there is no other way to be
refused than for want of the closing bracket. -/
theorem around_paces (bracket : Bracket) (make : Value → Value) (values : Value → Value → Prop)
    (hinner : ∀ opened, opened ≠ [] →
      Paces seam ⟨setting.depth, opened⟩ granted inner (Begun seam ⟨setting.depth, opened⟩)
        (Reaches seam ⟨setting.depth, opened⟩ seam.Free values
          (Astray seam ⟨setting.depth, opened⟩ seam.gap)))
    (hmake : ∀ {token other value otherValue : Value}, token.Alike other →
      values value otherValue →
        (make (.list [token, value])).Alike (make (.list [other, otherValue]))) :
    Paces seam setting granted (bracket.around inner make) seam.Free
      (Arrives seam setting (seam.Faces (seam.Ended (· == bracket.closing))) Value.Alike) := by
  intro scope place otherScope other hspot steps hsteps more
  refine Edit.follows_sequence (around_unclosed bracket inner make) fun fewer hfewer further => ?_
  refine Edit.follows_row_cons (opening_enters hspot) fun opening otherOpening henters => ?_
  have hlevel : Level setting.multiline setting.depth opening.scope :=
    henters.scope_eq ▸ hspot.level.bind (by decide) _
  have hotherLevel : Level setting.multiline setting.depth otherOpening.scope :=
    henters.otherScope_eq ▸ hspot.otherLevel.bind (by decide) _
  have hbody := body_follows (setting.within bracket place.line) (List.cons_ne_nil _ _)
    (hinner _ (List.cons_ne_nil _ _)) hlevel hotherLevel henters.clear henters.faces henters.fresh
    (hfewer.le.trans hsteps) further
  have hforward := hbody.promised_other
    (fun success => otherOpening.position.offset ≤ success.position.offset)
    fun _ _ hrun => (matches_of_run hrun).leads.offset_le
  refine Edit.follows_row_cons hforward fun body otherBody ⟨⟨hscope, hother, hends⟩, hle⟩ => ?_
  rw [hscope, hother]
  rcases hends with ⟨hvalues, hclear, hfree⟩ | ⟨within, hastray⟩
  · refine Edit.follows_row_cons (closing_demanded hlevel hotherLevel hclear hfree)
      fun _ _ harrives => ?_
    exact Edit.follows_row_nil ⟨_, _, rfl, rfl, hmake henters.values hvalues, harrives.2⟩
  · -- Before the gap, the second match has met the same opening bracket.
    have hline : other.line = place.line := by
      rcases hspot.faces with ⟨-, -, -, rfl⟩ | ⟨⟨⟩, -, -⟩ | ⟨-, -, hoffset⟩
      · rfl
      · have hlater := henters.later
        rw [hastray.offset_eq] at hle
        omega
    have hbound : otherOpening.scope.find? "bracket_opening" =
        some (.value (bracket.token other)) := by
      rw [henters.otherScope_eq, Scope.find?_bind, if_pos rfl]
    obtain ⟨diagnostic, hfair, hstops⟩ := closing_refused hastray hline hbound
    exact Edit.follows_row_closed (Edit.of_refused hstops hfair _ _)

end Brackets

/-- Whether the characters of a word belong together, and neither a name nor a number nor a line
ends with them. -/
def isMark (word : String) : Bool :=
  joined word.toList && word.toList.all isNeutral &&
    word.toList.getLast?.any fun c => !(isNameChar c || c == '.' || c == '\n')

theorem Spot.bind (hspot : Spot seam setting begins scope place otherScope other) {name : String}
    (hname : name ∉ "SPACES" :: "indent" :: ruleNames) (value otherValue : Value) :
    Spot seam setting begins (scope.bind name (.value value)) place
      (otherScope.bind name (.value otherValue)) other :=
  ⟨hspot.level.bind hname _, hspot.otherLevel.bind hname _, hspot.clear, hspot.faces⟩

/-- After a mark, an expression may begin. -/
theorem mark_arrives (word : String) (hmark : isMark word = true)
    (hspot : Spot seam setting seam.Free scope place otherScope other) :
    seam.edit.Follows (Arrives seam setting (Starts seam setting) Value.Alike)
      ((literal word).run steps scope place) ((literal word).run more otherScope other) := by
  rw [isMark, Bool.and_eq_true, Bool.and_eq_true, Option.any_eq_true] at hmark
  obtain ⟨⟨hjoined, hneutral⟩, last, hlast, hother⟩ := hmark
  simp only [Bool.not_eq_true', Bool.or_eq_false_iff, beq_eq_false_iff_ne] at hother
  have hsome : word.toList ≠ [] := by
    intro hnone
    rw [hnone] at hlast
    cases hlast
  have hsound : Sound (literal word) := .inl hneutral
  have harrives := hspot.arrives hsound (List.nil_subset _)
    (literal_lands _ _ hjoined hsome hspot.faces nofun steps more)
  refine (follows_arrives_at harrives (Fresh seam) fun success hmatches =>
    fresh_of_literal hmatches hsome fun c hc => ?_).mono fun success otherSuccess hends => ?_
  · cases hlast.symm.trans hc
    exact hother.1
  · refine ⟨hends.1, hends.2.mono fun hfaces => ⟨?_, fun _ => hfaces.2⟩⟩
    refine ((hends.2.mono And.left).settle ?_).faces
    rw [endsWith, hlast, beq_eq_false_iff_ne]
    exact fun hsame => hother.2 (Option.some.inj hsame)

end ScopedGrammar.Croco
