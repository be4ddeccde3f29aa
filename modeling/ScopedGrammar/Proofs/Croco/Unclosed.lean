/-
# Brackets that are not closed

A bracket that is never closed is reported with its line, which is read from the scope. By then
other brackets may have bound the same name, and may have been closed again. But what stands
between brackets is matched in an overlay, which hands the scope back as it was, so the name
means the bracket that is to be closed; and whatever is matched between brackets leaves the
open brackets as they are, so this bracket is the innermost one that is open.

Most patterns of the grammar can be seen to leave the brackets as they are: a check of their
structure tells. It allows brackets only in pairs around an overlay, and messages that begin
like a report only with these. Comments and strings, which may take any brackets, are treated
by themselves.
-/

import ScopedGrammar.Proofs.Croco.Programs
import ScopedGrammar.Proofs.Croco.Reports
import ScopedGrammar.Proofs.Match.Invariants

namespace ScopedGrammar.Croco

open Pattern

variable {text : String} {scope : Scope} {place : Position} {granted : Nat}
  {opened : List (Bracket × Nat)} {bracket : Bracket} {pattern : Pattern} {rest : List Char}

/-- The names that always mean rules. -/
def boundNames : List String :=
  "SPACES" :: ruleNames

/-- Whether a pattern is a text, whose token is its value. -/
def isText (expected : String) : Pattern → Bool
  | .mk (.literal (.const (.text found))) none _ => found == expected
  | _ => false

/-- Whether a pattern is an opening bracket, bound to the name that reports read. -/
def isOpening (bracket : Bracket) : Pattern → Bool
  | .mk (.capture inner name) _ _ =>
      isText (String.ofList [bracket.opening]) inner && name == "bracket_opening"
  | _ => false

/-- Whether a pattern demands a closing bracket. -/
def isClosing (bracket : Bracket) : Pattern → Bool
  | .mk (.demand inner message) _ _ =>
      isText (String.ofList [bracket.closing]) inner && message == bracket.unclosed
  | _ => false

/-- Whether a pattern hands on the scope that it was given. -/
def isOverlay : Pattern → Bool
  | .mk (.overlay _ _) _ _ => true
  | _ => false

/-- Whether patterns in a row are brackets of one kind around an overlay. -/
def areBrackets : List Pattern → Bool
  | [opening, body, closing] =>
      isOverlay body && [Bracket.tuple, .list, .set].any fun bracket =>
        isOpening bracket opening && isClosing bracket closing
  | _ => false

mutual

/-- Whether a pattern leaves the open brackets as they are, by its structure. -/
def keepsBrackets : Pattern → Bool
  | .mk form _ _ => formKeepsBrackets form

/-- Whether a form does. -/
def formKeepsBrackets : Form → Bool
  | .literal (.const (.text expected)) => expected.toList.all isNeutral
  | .charClass members excluded => !excluded && members.all isNeutral
  | .choice options => allKeepBrackets options
  | .sequence parts _ => allKeepBrackets parts || areBrackets parts && bodyKeepsBrackets parts
  | .repetition part _ _ separator _ => keepsBrackets part && separatorKeepsBrackets separator
  | .absence inner width => keepsBrackets inner && width == 0
  | .demand inner message => keepsBrackets inner && isOther message
  | .capture inner name => keepsBrackets inner && !boundNames.contains name
  | .overlay inner bindings => keepsBrackets inner && bindingsKeepBrackets bindings
  | .reference (.name name) => boundNames.contains name
  | .finish => true
  | _ => false

/-- Whether all patterns do. -/
def allKeepBrackets : List Pattern → Bool
  | [] => true
  | first :: rest => keepsBrackets first && allKeepBrackets rest

/-- Whether the second of several patterns does. -/
def bodyKeepsBrackets : List Pattern → Bool
  | _ :: body :: _ => keepsBrackets body
  | _ => false

/-- Whether a separator does, if there is one. -/
def separatorKeepsBrackets : Option Pattern → Bool
  | none => true
  | some separator => keepsBrackets separator

/-- Whether the names that always mean rules are bound to rules that do. -/
def bindingsKeepBrackets : List (String × Term) → Bool
  | [] => true
  | first :: rest => bindingKeepsBrackets first && bindingsKeepBrackets rest

/-- Whether one binding is a rule that does, or is of another name. -/
def bindingKeepsBrackets : String × Term → Bool
  | (_, .rule rule) => keepsBrackets rule
  | (name, _) => !boundNames.contains name

end

theorem keepsBrackets_of_mem {parts : List Pattern} (hparts : allKeepBrackets parts = true) :
    ∀ part ∈ parts, keepsBrackets part = true := by
  induction parts with
  | nil => exact List.forall_mem_nil _
  | cons first rest ih =>
      rw [allKeepBrackets, Bool.and_eq_true] at hparts
      exact List.forall_mem_cons.mpr ⟨hparts.1, ih hparts.2⟩

theorem bindingKeepsBrackets_of_mem {bindings : List (String × Term)}
    (hbindings : bindingsKeepBrackets bindings = true) :
    ∀ binding ∈ bindings, bindingKeepsBrackets binding = true := by
  induction bindings with
  | nil => exact List.forall_mem_nil _
  | cons first rest ih =>
      rw [bindingsKeepBrackets, Bool.and_eq_true] at hbindings
      exact List.forall_mem_cons.mpr ⟨hbindings.1, ih hbindings.2⟩

theorem exists_brackets {parts : List Pattern} (hbrackets : areBrackets parts = true) :
    ∃ bracket opening body closing, parts = [opening, body, closing] ∧ isOverlay body = true ∧
      isOpening bracket opening = true ∧ isClosing bracket closing = true := by
  rcases parts with _ | ⟨opening, _ | ⟨body, _ | ⟨closing, _ | ⟨_, _⟩⟩⟩⟩
  case cons.cons.cons.nil =>
    rw [areBrackets, Bool.and_eq_true, List.any_eq_true] at hbrackets
    obtain ⟨hbody, bracket, -, hends⟩ := hbrackets
    obtain ⟨hopening, hclosing⟩ := Bool.and_eq_true_iff.mp hends
    exact ⟨bracket, opening, body, closing, rfl, hbody, hopening, hclosing⟩
  all_goals cases hbrackets

/-- Whether a rule leaves the open brackets as they are: by its structure, or as a comment or a
string. -/
def Sound (rule : Pattern) : Prop :=
  keepsBrackets rule = true ∨ rule.form = comment.form ∨ rule.form = string.form

/-- Whether all names that always mean rules mean rules that leave brackets as they are. -/
def Bound (scope : Scope) : Prop :=
  ∀ name ∈ boundNames, ∃ rule, scope.rule? name = some rule ∧ Sound rule

theorem bound_grammar : Bound grammar.scope := by
  have hchecked : ∀ name ∈ boundNames, name = "COMMENT" ∨ name = "STRING" ∨
      (grammar.scope.rule? name).any keepsBrackets = true := by
    decide +kernel
  intro name hname
  rcases hchecked name hname with rfl | rfl | hkept
  · exact ⟨_, rfl, .inr (.inl rfl)⟩
  · exact ⟨_, rfl, .inr (.inr rfl)⟩
  · cases hrule : grammar.scope.rule? name with
    | none =>
        rw [hrule] at hkept
        cases hkept
    | some rule =>
        rw [hrule] at hkept
        exact ⟨rule, rfl, .inl hkept⟩

namespace Bound

theorem bind (hbound : Bound scope) {captured : String} (hcaptured : captured ∉ boundNames)
    (content : Value) : Bound (scope.bind captured (.value content)) := by
  intro name hname
  have hother : captured ≠ name := fun hsame => hcaptured (hsame ▸ hname)
  rw [scope.rule?_bind_of_ne _ hother]
  exact hbound name hname

theorem push (hbound : Bound scope) {bindings : List (String × Term)} {frame : Frame}
    (hbindings : bindingsKeepBrackets bindings = true)
    (hframe : scope.resolveAll bindings = .ok frame) : Bound (scope.push frame) := by
  intro name hname
  cases hfound : Frame.find? name frame with
  | none =>
      obtain ⟨rule, hrule, hsound⟩ := hbound name hname
      refine ⟨rule, ?_, hsound⟩
      rw [Scope.rule?, Scope.find?_push, hfound, Option.none_or]
      exact hrule
  | some binding =>
      obtain ⟨term, hterm, hresolved⟩ := Scope.find?_of_resolveAll hframe hfound
      have hkept := bindingKeepsBrackets_of_mem hbindings _ hterm
      cases term with
      | rule rule =>
          cases hresolved
          refine ⟨rule, ?_, .inl hkept⟩
          rw [Scope.rule?_eq_some_iff, Scope.find?_push, hfound, Option.some_or]
      | _ => simp [bindingKeepsBrackets, hname] at hkept

end Bound

/-- The rules leave brackets as they are, and reports blame the innermost one that is open. -/
def balance (text : String) (opened : List (Bracket × Nat)) : Invariant where
  scopes := Bound
  places := Clear text opened
  fair := Blames text

theorem form_of_isText {expected : String} (htext : isText expected pattern = true) :
    pattern.form = .literal (.const (.text expected)) ∧ pattern.factory = none := by
  unfold isText at htext
  split at htext
  next => exact ⟨by rw [Pattern.form, beq_iff_eq.mp htext], rfl⟩
  next => cases htext

theorem form_of_isOpening (hopening : isOpening bracket pattern = true) :
    ∃ inner, pattern.form = .capture inner "bracket_opening" ∧
      isText (String.ofList [bracket.opening]) inner = true := by
  unfold isOpening at hopening
  split at hopening
  next inner name _ _ =>
    obtain ⟨hinner, hname⟩ := Bool.and_eq_true_iff.mp hopening
    exact ⟨inner, by rw [Pattern.form, beq_iff_eq.mp hname], hinner⟩
  next => cases hopening

theorem form_of_isClosing (hclosing : isClosing bracket pattern = true) :
    ∃ inner, pattern.form = .demand inner bracket.unclosed ∧
      isText (String.ofList [bracket.closing]) inner = true := by
  unfold isClosing at hclosing
  split at hclosing
  next inner message _ _ =>
    obtain ⟨hinner, hmessage⟩ := Bool.and_eq_true_iff.mp hclosing
    exact ⟨inner, by rw [Pattern.form, beq_iff_eq.mp hmessage], hinner⟩
  next => cases hclosing

theorem form_of_isOverlay (hoverlay : isOverlay pattern = true) :
    ∃ inner bindings, pattern.form = .overlay inner bindings := by
  unfold isOverlay at hoverlay
  split at hoverlay
  next => exact ⟨_, _, rfl⟩
  next => cases hoverlay

/-- A text raises no diagnostic. -/
theorem quiet_of_isText {expected : String} (htext : isText expected pattern = true)
    (granted : Nat) : pattern.Respects text .quiet granted := by
  refine .of_form (fun _ => ?_) granted
  rw [(form_of_isText htext).1]
  exact .literal fun _ _ _ _ => trivial

theorem matches_of_isText {expected : String} {success : Match}
    (htext : isText expected pattern = true) (hsees : place.Sees text rest)
    (hmatches : pattern.Matches text scope place success) :
    ∃ after, rest = expected.toList ++ after ∧
      success = ⟨.token ⟨expected, place, place.past expected.toList⟩,
        place.past expected.toList, scope⟩ := by
  obtain ⟨hform, hfactory⟩ := form_of_isText htext
  obtain ⟨raw, hraw, rfl⟩ := matches_iff.mp hmatches
  rw [hform] at hraw
  obtain ⟨after, hrest, rfl⟩ := (Form.matches_literal_iff hsees).mp hraw
  exact ⟨after, hrest, by rw [Pattern.finishValue, hfactory]⟩

section Brackets

variable {success : Match} {inner : Scope} {stop : Position}

/-- An opening bracket is open from then on, and is what the name for reports means. -/
theorem opening_upholds (hopening : isOpening bracket pattern = true)
    (hclear : Clear text opened place) :
    (pattern.run granted scope place).Upholds text (balance text opened).Excuses fun success =>
      success.scope = scope.bind "bracket_opening" (.value (bracket.token place)) ∧
        Clear text ((bracket, place.line) :: opened) success.position := by
  obtain ⟨inner, hform, htext⟩ := form_of_isOpening hopening
  have hquiet : pattern.Respects text .quiet granted := by
    refine .of_form (fun granted => ?_) granted
    rw [hform]
    exact .capture (quiet_of_isText htext granted) fun _ _ _ => trivial
  refine hquiet.upholds ⟨trivial, trivial⟩ nofun fun success hmatches => ?_
  obtain ⟨raw, hraw, rfl⟩ := matches_iff.mp hmatches
  rw [hform] at hraw
  obtain ⟨within, hwithin, rfl⟩ := Form.matches_capture_iff.mp hraw
  obtain ⟨after, hrest, rfl⟩ := matches_of_isText htext rfl hwithin
  rw [String.toList_ofList] at hrest
  refine ⟨?_, ?_⟩
  · rw [Bracket.token, String.toList_ofList]
  · rw [String.toList_ofList]
    exact hclear.opening hrest

/-- A closing bracket is demanded of the innermost open bracket. -/
theorem closing_upholds (hclosing : isClosing bracket pattern = true) (hbound : Bound inner)
    (hnamed : inner.find? "bracket_opening" = some (.value (bracket.token place)))
    (hclear : Clear text ((bracket, place.line) :: opened) stop) :
    (pattern.run granted inner stop).Upholds text (balance text opened).Excuses fun success =>
      (balance text opened).At success.scope success.position := by
  obtain ⟨closing, hform, htext⟩ := form_of_isClosing hclosing
  cases granted with
  | zero => exact .halt trivial
  | succ granted =>
      have hlast : (closing.run granted inner stop).Upholds text (balance text opened).Excuses
          fun success => (balance text opened).At success.scope success.position := by
        refine (quiet_of_isText htext granted).upholds ⟨trivial, trivial⟩ nofun ?_
        intro success hmatches
        obtain ⟨after, hrest, rfl⟩ := matches_of_isText htext rfl hmatches
        rw [String.toList_ofList] at hrest ⊢
        exact ⟨hbound, hclear.closing hrest⟩
      have hdemand := Form.Respects.demand_upholds hlast (blames_unclosed hclear hnamed)
      rw [← hform] at hdemand
      exact hdemand.bind fun _ hkept => .succeed hkept

/-- Brackets around an overlay are closed again, if what stands between them leaves brackets as
they are. -/
theorem brackets_respect {parts : List Pattern} {picks : Option (List Nat)}
    (hbrackets : areBrackets parts = true)
    (hbody : ∀ body ∈ parts[1]?, ∀ opened, body.Respects text (balance text opened) granted) :
    (Form.sequence parts picks).Respects text (balance text opened) granted := by
  obtain ⟨bracket, opening, body, closing, rfl, hoverlay, hopening, hclosing⟩ :=
    exists_brackets hbrackets
  refine .of_row fun scope place hhere => ?_
  refine Match.allOf_cons_upholds (opening_upholds hopening hhere.2) fun first hfirst => ?_
  obtain ⟨hscope, hopened⟩ := hfirst
  have hinside : Bound first.scope := by
    rw [hscope]
    exact hhere.1.bind (by decide) _
  have hnamed : first.scope.find? "bracket_opening" = some (.value (bracket.token place)) := by
    rw [hscope, Scope.find?_bind, if_pos rfl]
  -- The overlay hands the scope back, so the name still means the bracket that was opened.
  have hsame : ∀ success, body.Matches text first.scope first.position success →
      success.scope = first.scope := by
    intro success hmatches
    obtain ⟨inner, bindings, hform⟩ := form_of_isOverlay hoverlay
    obtain ⟨raw, hraw, rfl⟩ := matches_iff.mp hmatches
    rw [hform] at hraw
    obtain ⟨-, -, -, -, hback⟩ := Form.matches_overlay_iff.mp hraw
    exact hback
  have hmiddle := (hbody body rfl _ first.scope first.position ⟨hinside, hopened⟩).of_matched
    fun success hmatched hkept => And.intro (hsame success ⟨rfl, granted, hmatched⟩) hkept.2
  refine Match.allOf_cons_upholds hmiddle fun second hsecond => ?_
  obtain ⟨hback, hclear⟩ := hsecond
  refine Match.allOf_cons_upholds
    (closing_upholds hclosing (hback ▸ hinside) (hback ▸ hnamed) hclear) fun third hthird => ?_
  exact .succeed hthird

end Brackets

/-- A comment is taken up to the end of its line. -/
theorem comment_respects (hform : pattern.form = comment.form) :
    pattern.Respects text (balance text opened) granted := by
  have hparts : pattern.form = .sequence [literal "#", (literal "\n").exclude.many] none := hform
  have hliteral (expected : String) (granted : Nat) :
      (literal expected).Respects text .quiet granted :=
    .of_form (fun _ => .literal fun _ _ _ _ => trivial) granted
  have hexclude (granted : Nat) : (literal "\n").exclude.Respects text .quiet granted :=
    .of_form (fun granted => .exclude (fun _ => trivial) (hliteral "\n" granted)) granted
  have hmany (granted : Nat) : (literal "\n").exclude.many.Respects text .quiet granted :=
    .of_form (fun granted => .repetition (hexclude granted) (by simp)) granted
  have hquiet : pattern.Respects text .quiet granted := by
    refine .of_form (fun granted => ?_) granted
    rw [hparts]
    exact .sequence (by simpa using ⟨hliteral "#" granted, hmany granted⟩)
  intro scope place hhere
  refine hquiet.upholds ⟨trivial, trivial⟩ nofun fun success hmatches => ?_
  obtain ⟨values, raw, stop, inner, hrow, -, rfl⟩ := row_of_matches hparts hmatches
  obtain ⟨mark, others, hmark, hrest, -⟩ := rowMatches_cons_iff.mp hrow
  obtain ⟨value, hnote, -⟩ := rowMatches_singleton_iff.mp hrest
  obtain ⟨rest, hseen, rfl⟩ := (matches_literal_iff rfl).mp hmark
  have hsees : place.Sees text ("#".toList ++ rest) := hseen
  have hend : Marks text scope (literal "\n") '\n' := marks_literal text scope rfl
  obtain ⟨note, after, rfl, hnewline, hafter, hstop, hinner⟩ :=
    excluded_run_split hend hnote hsees.past
  dsimp only at hstop hinner
  subst hstop hinner
  have hwritten : place.Sees text ('#' :: (note ++ after)) := hsees
  have hclear := hhere.2.comment hwritten hnewline hafter
  rw [← List.singleton_append, Position.past_append] at hclear
  exact ⟨hhere.1, hclear⟩

theorem quote_cases {c : Char} (hclass : ("'\"".toList.contains c != false) = true) :
    c = '\'' ∨ c = '"' := by
  simpa using hclass

/-- An opening quote is bound for what follows. -/
theorem openingQuote_taken {success : Match}
    (hmatches : openingQuote.Matches text scope place success) :
    ∃ quote rest, (quote = '\'' ∨ quote = '"') ∧ place.Sees text (quote :: rest) ∧
      success = ⟨quoteToken place quote, place.step quote,
        scope.bind "quote" (.value (quoteToken place quote))⟩ := by
  obtain ⟨within, hwithin, rfl⟩ := matches_capture_iff.mp hmatches
  obtain ⟨quote, rest, hsees, hclass, rfl⟩ :=
    (Form.matches_charClass_iff rfl).mp (matches_ofForm_iff.mp hwithin)
  exact ⟨quote, rest, quote_cases hclass, hsees, rfl⟩

/-- Whether a quote is bound to the name that stands for it in a string. -/
def QuoteBound (scope : Scope) : Prop :=
  ∃ content, scope.find? "quote" = some (.value content)

/-- Reports blame the innermost bracket, whatever is taken. -/
def reports (text : String) (scopes : Scope → Prop) : Invariant :=
  .anywhere scopes (Blames text)

theorem openingQuote_upholds :
    (openingQuote.run granted scope place).Upholds text (reports text fun _ => True).Excuses
      fun success => QuoteBound success.scope := by
  have hquiet : openingQuote.Respects text .quiet granted :=
    .of_form (fun granted => .capture
      (.of_form (fun _ => .charClass fun _ _ _ _ _ _ => trivial) granted) fun _ _ _ => trivial)
      granted
  refine hquiet.upholds ⟨trivial, trivial⟩ nofun fun success hmatches => ?_
  obtain ⟨quote, _, -, -, rfl⟩ := openingQuote_taken hmatches
  exact ⟨quoteToken place quote, by rw [Scope.find?_bind, if_pos rfl]⟩

/-- In a string, nothing is reported but a missing quote. -/
theorem string_reports (hform : pattern.form = string.form) (granted : Nat) :
    pattern.Respects text (reports text fun _ => True) granted := by
  have hquote (granted : Nat) : (named "quote").Respects text (reports text QuoteBound) granted :=
    .of_form (fun _ => .boundValue (fun _ => trivial) fun _ hbound => hbound) granted
  have hexclude (granted : Nat) :
      (named "quote").exclude.Respects text (reports text QuoteBound) granted :=
    .of_form (fun granted => .exclude (fun _ => trivial) (hquote granted)) granted
  have hmany (granted : Nat) :
      (named "quote").exclude.many.Respects text (reports text QuoteBound) granted :=
    .of_form (fun granted => .repetition (hexclude granted) (by simp)) granted
  have hdemand (granted : Nat) :
      ((named "quote").demand "unclosed quote \x7bquote\x7d on line \x7bline\x7d").Respects text
        (reports text QuoteBound) granted :=
    .of_form (fun granted => .demand (hquote granted) fun scope place _ =>
      blames_of_other (by decide +kernel) scope place) granted
  refine .of_form (fun granted => ?_) granted
  rw [hform, string_form]
  refine .of_row fun scope place _ => Match.allOf_cons_upholds openingQuote_upholds ?_
  intro opening hbound
  have hrest : ∀ part ∈ [(named "quote").exclude.many,
      (named "quote").demand "unclosed quote \x7bquote\x7d on line \x7bline\x7d"],
      part.Respects text (reports text QuoteBound) granted := by
    simpa using ⟨hmany granted, hdemand granted⟩
  have hkept := Match.allOf_respects hrest (⟨hbound, trivial⟩ :
    (reports text QuoteBound).At opening.scope opening.position)
  exact hkept.mono fun _ _ => ⟨trivial, trivial⟩

/-- A string is taken up to the quote that it was opened with. -/
theorem string_respects (hform : pattern.form = string.form) :
    pattern.Respects text (balance text opened) granted := by
  intro scope place hhere
  refine (string_reports hform granted).upholds ⟨trivial, trivial⟩ (fun _ hfair => hfair) ?_
  intro success hmatches
  obtain ⟨values, raw, stop, inner, hrow, -, rfl⟩ :=
    row_of_matches (hform.trans string_form) hmatches
  obtain ⟨opening, others, hopening, hrest, -⟩ := rowMatches_cons_iff.mp hrow
  obtain ⟨middle, last, hmiddle, hlast, -⟩ := rowMatches_cons_iff.mp hrest
  obtain ⟨value, hclosing, -⟩ := rowMatches_singleton_iff.mp hlast
  obtain ⟨quote, rest, hquote, hsees, rfl⟩ := openingQuote_taken hopening
  have hbound : (scope.bind "quote" (.value (quoteToken place quote))).find? "quote" =
      some (.value (quoteToken place quote)) := by
    rw [Scope.find?_bind, if_pos rfl]
  have hmark : Marks text (scope.bind "quote" (.value (quoteToken place quote))) (named "quote")
      quote := marks_named hbound rfl String.toList_ofList
  have hseen : place.Sees text ([quote] ++ rest) := hsees
  obtain ⟨content, after, rfl, hcontent, -, hstop, hscope⟩ :=
    excluded_run_split hmark hmiddle hseen.past
  rw [hscope, hstop] at hclosing
  obtain ⟨further, rfl, hend⟩ := (matches_literal_iff hseen.past.past).mp
    ((matches_named_text_iff hbound rfl).mp (matches_demand_iff.mp hclosing))
  rw [String.toList_ofList] at hend hseen
  cases hend
  have hwritten : place.Sees text (quote :: (content ++ (quote :: further))) := hseen
  have hclear := hhere.2.string hquote hwritten hcontent
  rw [← List.singleton_append, Position.past_append, Position.past_append] at hclear
  exact ⟨hhere.1.bind (by decide) _, hclear⟩

/-- What the check says of the structure of a form holds of its matches. -/
theorem form_respects {shape : Form} (hkeeps : formKeepsBrackets shape = true)
    (hsound : ∀ pattern, Sound pattern → ∀ opened,
      pattern.Respects text (balance text opened) granted) :
    shape.Respects text (balance text opened) granted := by
  have hkept (pattern : Pattern) (hpattern : keepsBrackets pattern = true) :=
    hsound pattern (.inl hpattern)
  have hall {parts : List Pattern} (hparts : allKeepBrackets parts = true) :
      ∀ part ∈ parts, part.Respects text (balance text opened) granted :=
    fun part hpart => hkept part (keepsBrackets_of_mem hparts part hpart) opened
  unfold formKeepsBrackets at hkeeps
  split at hkeeps
  next expected =>
    refine .literal fun place rest hclear hsees => hclear.past hsees ?_
    exact List.all_eq_true.mp hkeeps
  next members excluded =>
    obtain ⟨hincluded, hmembers⟩ := Bool.and_eq_true_iff.mp hkeeps
    rw [Bool.not_eq_true'] at hincluded
    subst hincluded
    refine .charClass fun place c rest hclear hsees hclass => hclear.step hsees ?_
    exact List.all_eq_true.mp hmembers c (by simpa using hclass)
  next options => exact .choice (hall hkeeps)
  next parts picks =>
    rcases Bool.or_eq_true_iff.mp hkeeps with hparts | hbrackets
    · exact .sequence (hall hparts)
    · obtain ⟨hbrackets, hbody⟩ := Bool.and_eq_true_iff.mp hbrackets
      refine brackets_respect hbrackets fun body hmem => ?_
      obtain ⟨bracket, opening, middle, closing, rfl, -⟩ := exists_brackets hbrackets
      cases hmem
      exact hkept _ hbody
  next part least most separator keep =>
    obtain ⟨hpart, hseparator⟩ := Bool.and_eq_true_iff.mp hkeeps
    refine .repetition (hkept part hpart opened) fun between hbetween => ?_
    cases hbetween
    exact hkept between hseparator opened
  next inner width =>
    obtain ⟨hinner, hwidth⟩ := Bool.and_eq_true_iff.mp hkeeps
    cases beq_iff_eq.mp hwidth
    exact .ahead (hkept inner hinner opened)
  next inner message =>
    obtain ⟨hinner, hother⟩ := Bool.and_eq_true_iff.mp hkeeps
    exact .demand (hkept inner hinner opened) fun scope place _ =>
      blames_of_other hother scope place
  next inner name =>
    obtain ⟨hinner, hname⟩ := Bool.and_eq_true_iff.mp hkeeps
    refine .capture (hkept inner hinner opened) fun scope content hbound => ?_
    exact Bound.bind hbound (by simpa using hname) content
  next inner bindings =>
    obtain ⟨hinner, hbindings⟩ := Bool.and_eq_true_iff.mp hkeeps
    exact .overlay (hkept inner hinner opened) fun scope frame hbound hframe =>
      Bound.push hbound hbindings hframe
  next name =>
    refine .rule fun scope hbound => ?_
    obtain ⟨rule, hrule, hrulesound⟩ := hbound name (List.contains_iff_mem.mp hkeeps)
    exact ⟨rule, hrule, hsound rule hrulesound opened⟩
  next => exact .finish
  next => cases hkeeps

/-- Whatever brackets are open, a rule leaves them as they are, and reports blame the innermost
one. The induction is on the steps that are granted, since rules refer to one another. -/
theorem sound_respects (granted : Nat) (hsound : Sound pattern) (opened : List (Bracket × Nat)) :
    pattern.Respects text (balance text opened) granted := by
  induction granted generalizing pattern opened with
  | zero => exact .zero pattern
  | succ granted ih =>
      rcases hsound with hkeeps | hcomment | hstring
      · refine .succ (form_respects ?_ fun pattern hpattern opened => ih hpattern opened)
        obtain ⟨form, factory, label⟩ := pattern
        exact hkeeps
      · exact comment_respects hcomment
      · exact string_respects hstring

/-- Where a program is refused because a bracket is not closed, the report is about the
innermost bracket that is open there, with the line that it stands on. Strings and comments do
not count, and neither do brackets that have been closed. -/
theorem parse_unclosed {diagnostic : Diagnostic} {closing opening : Char} {line : Nat}
    (hparse : parse text = .error (.diagnostic diagnostic))
    (hmessage : diagnostic.message = unclosedReport closing opening line) :
    ∃ bracket : Bracket, bracket.opening = opening ∧ bracket.closing = closing ∧
      (openBrackets (text.toList.take diagnostic.position.offset)).head? =
        some (bracket, line) := by
  have hstart : Sound (((named "BLOCK").orElse
      (finish.map fun _ => .node "block" 1 [])).labelled "start") :=
    .inl (by decide +kernel)
  have hfair : Blames text diagnostic := by
    rcases Grammar.diagnostic_fair rule_start (sound_respects _ hstart [])
      ⟨bound_grammar, .start text⟩ hparse with hfair | ⟨place, rfl⟩
    · exact hfair
    · exact blames_unconsumed text place
  exact hfair closing opening line hmessage

/-- Whether a text is refused with a report. -/
def refusesWith (report : String) : Except Halt Value → Bool
  | .error (.diagnostic diagnostic) => diagnostic.message == report
  | _ => false

/-- A call that is not closed, around a collection that is, on the next line. -/
theorem parse_unclosed_around_closed :
    ∃ diagnostic, parse "a\nf(x,\n [')', 1] # (\n" = .error (.diagnostic diagnostic) ∧
      diagnostic.message = unclosedReport ')' '(' 2 ∧
      ∃ bracket : Bracket, bracket.opening = '(' ∧ bracket.closing = ')' ∧
        (openBrackets ("a\nf(x,\n [')', 1] # (\n".toList.take
          diagnostic.position.offset)).head? = some (bracket, 2) := by
  have hrefused : refusesWith (unclosedReport ')' '(' 2)
      (parse "a\nf(x,\n [')', 1] # (\n") = true := by
    decide +kernel
  unfold refusesWith at hrefused
  split at hrefused
  next diagnostic hparse =>
    have hmessage := beq_iff_eq.mp hrefused
    exact ⟨diagnostic, hparse, hmessage, parse_unclosed hparse hmessage⟩
  next => cases hrefused

end ScopedGrammar.Croco
