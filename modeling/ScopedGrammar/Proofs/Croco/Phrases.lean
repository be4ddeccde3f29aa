/-
# The beginnings and ends of expressions

An expression stands on one line, begins as expressions do, and ends where no operator and no
postfix operation goes on with it. A run of characters is taken by a rule if the rule matches
it wherever it stands like this, with any blanks around it. The leaves are taken in this way
by the rule for primaries, and whatever stands between brackets is taken with them.
-/

import ScopedGrammar.Proofs.Croco.Tokens
import ScopedGrammar.Proofs.Input.Counting

namespace ScopedGrammar.Croco

open Pattern

variable {text : String} {multiline : Bool} {scope inner : Scope} {place stop : Position}
  {run rest after lead trail : List Char} {expression : Expression}

theorem Blank.oneLine (hrun : Blank run) : '\n' ∉ run := by
  intro hnewline
  rcases hrun _ hnewline with hc | hc <;> exact absurd hc (by decide)

theorem Operator.oneLine (operator : Operator) : '\n' ∉ operator.text := by
  cases operator <;> decide

theorem oneLine_comma (gap : Gap) : '\n' ∉ gap.comma := by
  simp [Gap.comma, gap.blankBefore.oneLine, gap.blankAfter.oneLine]

theorem oneLine_enclosed {needed : Bool} (hrun : '\n' ∉ run) : '\n' ∉ enclosed needed run := by
  cases needed <;> simp [enclosed, hrun]

theorem oneLine_afterCommas {gaps : List Gap} {runs : List (List Char)}
    (hruns : ∀ run ∈ runs, '\n' ∉ run) : '\n' ∉ afterCommas gaps runs := by
  induction runs generalizing gaps with
  | nil => simp [afterCommas]
  | cons first rest ih =>
      rw [List.forall_mem_cons] at hruns
      simp [afterCommas, oneLine_comma, hruns.1, ih hruns.2]

theorem oneLine_separated {gaps : List Gap} {runs : List (List Char)}
    (hruns : ∀ run ∈ runs, '\n' ∉ run) : '\n' ∉ separated gaps runs := by
  cases runs with
  | nil => simp [separated]
  | cons first rest =>
      rw [List.forall_mem_cons] at hruns
      simp [separated, hruns.1, oneLine_afterCommas hruns.2]

theorem oneLine_lastComma (bracket : Bracket) (gaps : List Gap) (runs : List (List Char)) :
    '\n' ∉ lastComma bracket gaps runs := by
  unfold lastComma
  split
  · exact oneLine_comma _
  · exact List.not_mem_nil

theorem Name.oneLine (word : Name) : '\n' ∉ word.text := fun hnewline =>
  absurd (word.isNameChar_of_mem hnewline) (by decide)

theorem Numeral.oneLine (numeral : Numeral) : '\n' ∉ numeral.text := fun hnewline =>
  absurd (numeral.isDigit_of_mem hnewline) (by decide)

theorem Quoted.oneLine (quoted : Quoted) : '\n' ∉ quoted.text := by
  have hcontent : '\n' ∉ quoted.content := fun hnewline => (quoted.plain _ hnewline).2 rfl
  rcases quoted.isQuote with hquote | hquote <;> simp [Quoted.text, hquote, hcontent]

namespace Expression

mutual

/-- An expression is written on one line. -/
theorem oneLine : ∀ expression : Expression, '\n' ∉ expression.text
  | .name word => by simpa [text] using word.oneLine
  | .number numeral => by simpa [text] using numeral.oneLine
  | .string quoted => by simpa [text] using quoted.oneLine
  | .collection bracket members gaps => by
      cases bracket <;> simp [text, Bracket.opening, Bracket.closing,
        oneLine_separated (oneLine_texts members), oneLine_lastComma]
  | .attribute target word => by
      simp [text, oneLine_enclosed target.oneLine, word.oneLine]
  | .call callee arguments gaps => by
      simp [text, oneLine_enclosed callee.oneLine, oneLine_separated (oneLine_texts arguments)]
  | .index target position => by
      simp [text, oneLine_enclosed target.oneLine, position.oneLine]
  | .operation left gap operator right => by
      simp [text, oneLine_enclosed left.oneLine, oneLine_enclosed right.oneLine,
        gap.blankBefore.oneLine, gap.blankAfter.oneLine, operator.oneLine]

theorem oneLine_texts : ∀ members : List Expression, ∀ run ∈ texts members, '\n' ∉ run
  | [] => by simp [texts]
  | first :: rest => by
      rw [texts, List.forall_mem_cons]
      exact ⟨first.oneLine, oneLine_texts rest⟩

end

end Expression

/-- What is passed over on one line leaves the line. -/
theorem line_past_of_oneLine (place : Position) (hrun : '\n' ∉ run) :
    (place.past run).line = place.line := by
  rw [Position.line_past, List.count_eq_zero.mpr hrun, Nat.add_zero]

/-- Whether a character may begin an expression. -/
def opens (c : Char) : Bool :=
  isNameChar c || ['\'', '"', '(', '[', '\x7b'].contains c

/-- Whether a text goes on with an expression, as far as its beginning tells. -/
structure Opens (rest : List Char) : Prop where
  unreserved : Unreserved rest
  head : ∃ c more, rest = c :: more ∧ opens c = true

theorem opens_of_head {c : Char} (hc : opens c = true) (hstart : isNameStart c = false)
    (rest : List Char) : Opens (c :: rest) :=
  ⟨unreserved_of_head (by rintro d ⟨⟩; exact hstart), c, rest, rfl, hc⟩

theorem Opens.of_head (hopens : Opens rest) {c : Char} (hc : c ∈ rest.head?) :
    opens c = true := by
  obtain ⟨d, more, rfl, hd⟩ := hopens.head
  cases hc
  exact hd

theorem isNameStart_of_isDigit {c : Char} (hc : Decimal.isDigit c = true) :
    isNameStart c = false := by
  have hall : digits.toList.all (fun c => !isNameStart c) = true := by decide
  have hmem : c ∈ digits.toList := by
    rw [← inClass_digit] at hc
    rwa [inClass, Bool.bne_false, List.contains_iff_mem] at hc
  simpa using List.all_eq_true.mp hall c hmem

theorem isDigit_of_isNameChar {c : Char} (hc : isNameChar c = false) :
    Decimal.isDigit c = false :=
  (Bool.or_eq_false_iff.mp hc).2

/-- What begins a name begins no number and no string. -/
theorem head_of_isNameStart {c : Char} (hc : isNameStart c = true) :
    (Decimal.isDigit c = false ∧ c ≠ '.') ∧ c ≠ '\'' ∧ c ≠ '"' := by
  refine ⟨⟨?_, ?_⟩, ?_, ?_⟩
  · rw [Bool.eq_false_iff]
    intro hdigit
    rw [isNameStart_of_isDigit hdigit] at hc
    cases hc
  all_goals rintro rfl; exact absurd hc (by decide)

theorem endsWord_cons {c : Char} (hc : isNameChar c = false) (rest : List Char) :
    EndsWord (c :: rest) := by
  rintro d ⟨⟩
  exact hc

theorem Blank.endsWord_append (hrun : Blank run) (hafter : EndsWord after) :
    EndsWord (run ++ after) := by
  cases run with
  | nil => exact hafter
  | cons c more =>
      apply endsWord_cons
      rcases hrun c List.mem_cons_self with rfl | rfl <;> decide

theorem Operator.head_text (operator : Operator) :
    ∃ c more, operator.text = c :: more ∧ isNameChar c = false := by
  cases operator <;> exact ⟨_, _, rfl, by decide⟩

theorem Operator.endsWord (operator : Operator) (rest : List Char) :
    EndsWord (operator.text ++ rest) := by
  obtain ⟨c, more, htext, hc⟩ := operator.head_text
  rw [htext]
  exact endsWord_cons hc _

theorem opens_enclosed (needed : Bool) (hrun : Opens (run ++ after)) :
    Opens (enclosed needed run ++ after) := by
  cases needed with
  | false => exact hrun
  | true => exact opens_of_head (by decide) (by decide) _

namespace Expression

/-- Every expression begins as expressions do. -/
theorem opens_text : ∀ (expression : Expression) {after : List Char}, EndsWord after →
    Opens (expression.text ++ after)
  | .name word, after, hafter => by
      rw [text]
      exact ⟨word.unreserved hafter, word.first, _, rfl, by simp [opens, isNameChar, word.starts]⟩
  | .number numeral, after, _ => by
      obtain ⟨c, more, htext⟩ := List.exists_cons_of_ne_nil numeral.text_ne_nil
      have hdigit := numeral.isDigit_of_mem (htext ▸ List.mem_cons_self)
      rw [text, htext]
      exact opens_of_head (by simp [opens, isNameChar, hdigit]) (isNameStart_of_isDigit hdigit) _
  | .string quoted, after, _ => by
      rw [text, Quoted.text]
      rcases quoted.isQuote with hquote | hquote <;> rw [hquote] <;>
        exact opens_of_head (by decide) (by decide) _
  | .collection bracket members gaps, after, _ => by
      rw [text]
      cases bracket <;> exact opens_of_head (by decide) (by decide) _
  | .attribute target word, after, hafter => by
      rw [text, List.append_assoc]
      exact opens_enclosed _ (target.opens_text (endsWord_cons (by decide) _))
  | .call callee arguments gaps, after, hafter => by
      rw [text, List.append_assoc]
      exact opens_enclosed _ (callee.opens_text (endsWord_cons (by decide) _))
  | .index target position, after, hafter => by
      rw [text, List.append_assoc]
      exact opens_enclosed _ (target.opens_text (endsWord_cons (by decide) _))
  | .operation left gap operator right, after, hafter => by
      rw [text, List.append_assoc, List.append_assoc, List.append_assoc]
      exact opens_enclosed _
        (left.opens_text (gap.blankBefore.endsWord_append (operator.endsWord _)))

end Expression

/-- Whether an expression that binds at least so tightly ends before what follows: no
postfix operation and no operator that binds as tightly goes on with it. -/
structure Stops (rank : Nat) (after : List Char) : Prop where
  noPostfix : ∀ c ∈ after.head?, c ≠ '.' ∧ c ≠ '(' ∧ c ≠ '['
  noOperator : ∀ operator : Operator, rank ≤ operator.tier.rank → ¬ operator.text <+: after

theorem Stops.mono {rank tighter : Nat} (hstops : Stops rank after) (hle : rank ≤ tighter) :
    Stops tighter after :=
  ⟨hstops.noPostfix, fun operator htighter => hstops.noOperator operator (hle.trans htighter)⟩

/-- The characters that end an expression, whatever its operators. -/
def closers : List Char :=
  [',', ')', ']', '\x7d', ':', ';', '#', '\n']

theorem stops_of_closer (hafter : ∀ c ∈ after.head?, c ∈ closers) : Stops 0 after := by
  have hclear : ∀ c ∈ closers, c ≠ '.' ∧ c ≠ '(' ∧ c ≠ '[' := by decide
  have hoperators (operator : Operator) : ∀ c ∈ operator.text.head?, c ∉ closers := by
    cases operator <;> rintro c ⟨⟩ <;> decide
  refine ⟨fun c hc => hclear c (hafter c hc), fun operator _ hprefix => ?_⟩
  obtain ⟨c, more, htext, -⟩ := operator.head_text
  obtain ⟨further, rfl⟩ := hprefix
  rw [htext] at hafter
  exact hoperators operator c (htext ▸ rfl) (hafter c rfl)

theorem endsWord_of_closer (hafter : ∀ c ∈ after.head?, c ∈ closers) : EndsWord after := by
  have hall : ∀ c ∈ closers, isNameChar c = false := by decide
  exact fun c hc => hall c (hafter c hc)

theorem unblank_of_opens {c : Char} (hc : opens c = true) (rest : List Char)
    (multiline : Bool) : Unblank multiline (c :: rest) := by
  have hall : ∀ d ∈ blankStarts, opens d = false := by decide
  refine unblank_of_head ?_ multiline
  rintro d ⟨⟩ hblank
  rw [hall c hblank] at hc
  cases hc

theorem Opens.unblank (hopens : Opens rest) (multiline : Bool) : Unblank multiline rest := by
  obtain ⟨c, more, rfl, hc⟩ := hopens.head
  exact unblank_of_opens hc more multiline

/-- A run stands at a place of a text, with blanks around it. -/
structure Stands (text : String) (multiline : Bool) (scope : Scope) (place : Position)
    (lead run trail after : List Char) : Prop where
  fits : text.length < offsetBound
  ready : Ready multiline scope
  leads : Blank lead
  trails : Blank trail
  sees : place.Sees text (lead ++ (run ++ (trail ++ after)))
  unblank : Unblank multiline after
  ends : EndsWord (trail ++ after)

/-- A rule takes a run wherever it stands, with the blanks around it, as the tree of an
expression, unless what follows goes on with it. -/
def Taken (name : String) (stops : List Char → Prop) (run : List Char)
    (expression : Expression) : Prop :=
  ∀ ⦃text : String⦄ ⦃multiline : Bool⦄ ⦃scope : Scope⦄ ⦃place : Position⦄
    ⦃lead trail after : List Char⦄, Stands text multiline scope place lead run trail after →
    stops after →
    (named name).Matches text scope place
      ⟨expression.node place.line, place.past (lead ++ (run ++ trail)), scope⟩

/-- What needs no operator, without the blanks around it. -/
def primaryChoice : Pattern :=
  choice [named "NUMBER", named "STRING", named "IDENTIFIER", collection "(" ")" "tuple",
    collection "[" "]" "list", collection "\x7b" "\x7d" "set"]

theorem primary_isRule : IsRule "PRIMARY" primary :=
  ⟨by decide, rfl⟩

theorem primary_form :
    primary.form = .sequence [named "SPACES", primaryChoice, named "SPACES"] (some [1]) :=
  rfl

/-- Whether a point does not come next, which would go on with a number. -/
def Pointless (numeric : Bool) (after : List Char) : Prop :=
  numeric = true → ∀ c ∈ after.head?, c ≠ '.'

theorem Pointless.append {numeric : Bool} (hafter : Pointless numeric after)
    (htrail : Blank trail) : Pointless numeric (trail ++ after) := by
  intro hnumeric
  cases trail with
  | nil => exact hafter hnumeric
  | cons c more =>
      rintro d ⟨⟩
      rcases htrail c List.mem_cons_self with rfl | rfl <;> decide

/-- A run is matched as a primary wherever it is seen. -/
def Primary (numeric : Bool) (run : List Char) (expression : Expression) : Prop :=
  ∀ ⦃text : String⦄ ⦃multiline : Bool⦄ ⦃scope : Scope⦄ ⦃place : Position⦄
    ⦃after : List Char⦄, text.length < offsetBound → Ready multiline scope →
    place.Sees text (run ++ after) → EndsWord after → Pointless numeric after →
    ∃ inner, Ready multiline inner ∧
      primaryChoice.Matches text scope place
        ⟨expression.node place.line, place.past run, inner⟩

theorem Primary.taken {numeric : Bool} (hprimary : Primary numeric run expression)
    (hopens : ∀ after, EndsWord after → Opens (run ++ after)) :
    Taken "PRIMARY" (Pointless numeric) run expression := by
  intro text multiline scope place lead trail after hstands hstops
  obtain ⟨first, hfirst⟩ := blanks_match hstands.ready hstands.sees hstands.leads
    ((hopens _ hstands.ends).unblank multiline)
  have hseen := hstands.sees.past
  obtain ⟨inner, hready, hmiddle⟩ := hprimary hstands.fits hstands.ready hseen hstands.ends
    (hstops.append hstands.trails)
  obtain ⟨last, hlast⟩ := blanks_match hready hseen.past hstands.trails hstands.unblank
  rw [line_past_of_oneLine place hstands.leads.oneLine] at hmiddle
  rw [Position.past_append, Position.past_append]
  exact hstands.ready.matches_rule primary_isRule
    (matches_of_row primary_form (.cons hfirst (.cons hmiddle (.single hlast))) rfl)

theorem primary_number (numeral : Numeral) : Primary true numeral.text (.number numeral) := by
  intro text multiline scope place after hfits hready hsees hends hstops
  have hnumber : (named "NUMBER").Matches text scope place
      ⟨(Expression.number numeral).node place.line, place.past numeral.text, scope⟩ := by
    apply hready.matches_rule number_isRule
    apply number_matches scope numeral hsees
    exact fun c hc => ⟨isDigit_of_isNameChar (hends c hc), hstops rfl c hc⟩
  exact ⟨scope, hready, choice_matches (List.forall_mem_nil _) hnumber⟩

/-- Where no digit and no point is next, there is no number. -/
theorem named_number_misses (hready : Ready multiline scope) (hsees : place.Sees text rest)
    (hrest : ∀ c ∈ rest.head?, Decimal.isDigit c = false ∧ c ≠ '.') :
    (named "NUMBER").Misses text scope place :=
  hready.misses_rule number_isRule (number_misses hsees hrest)

theorem named_string_misses (hready : Ready multiline scope) (hsees : place.Sees text rest)
    (hrest : ∀ c ∈ rest.head?, c ≠ '\'' ∧ c ≠ '"') : (named "STRING").Misses text scope place :=
  hready.misses_rule string_isRule (string_misses hsees hrest)

theorem named_identifier_misses (hready : Ready multiline scope) (hsees : place.Sees text rest)
    (hrest : ∀ c ∈ rest.head?, isNameStart c = false) :
    (named "IDENTIFIER").Misses text scope place :=
  hready.misses_rule identifier_isRule (identifier_misses hsees hrest)

theorem primary_string (quoted : Quoted) : Primary false quoted.text (.string quoted) := by
  intro text multiline scope place after hfits hready hsees hends hstops
  have hnumber : (named "NUMBER").Misses text scope place := by
    apply named_number_misses hready hsees
    rintro c ⟨⟩
    rcases quoted.isQuote with hquote | hquote <;> rw [hquote] <;> decide
  have hbefore : ∀ option ∈ [named "NUMBER"], option.Misses text scope place := by
    simpa using hnumber
  obtain ⟨inner, hstring⟩ := string_matches scope quoted hfits hsees
  exact ⟨scope, hready, choice_matches hbefore (hready.matches_rule string_isRule hstring)⟩

theorem primary_name (word : Name) : Primary false word.text (.name word) := by
  intro text multiline scope place after hfits hready hsees hends hstops
  have hnumber : (named "NUMBER").Misses text scope place := by
    apply named_number_misses hready hsees
    rintro c ⟨⟩
    exact (head_of_isNameStart word.starts).1
  have hstring : (named "STRING").Misses text scope place := by
    apply named_string_misses hready hsees
    rintro c ⟨⟩
    exact (head_of_isNameStart word.starts).2
  have hbefore : ∀ option ∈ [named "NUMBER", named "STRING"],
      option.Misses text scope place := by
    simp [hnumber, hstring]
  have hname := hready.matches_rule identifier_isRule (identifier_matches scope word hsees hends)
  exact ⟨scope, hready, choice_matches hbefore hname⟩

section Brackets

variable {bracket : Bracket} {body : Pattern} {make : Value → Value}

/-- A pattern between the brackets of some kind. -/
def Bracket.around (bracket : Bracket) (body : Pattern) (make : Value → Value) : Pattern :=
  (bracketed body (String.ofList [bracket.opening]) (String.ofList [bracket.closing])).map make

/-- The pattern between brackets, where blanks go over several lines. -/
def bracketBody (body : Pattern) : Pattern :=
  ofForm (.overlay (ofForm (.sequence [named "SPACES", body] (some [1])))
    [("SPACES", .rule (named "MULTILINE_SPACES"))])

theorem around_form (bracket : Bracket) (body : Pattern) (make : Value → Value) :
    ∃ message, (bracket.around body make).form = .sequence
      [(literal (String.ofList [bracket.opening])).capture "bracket_opening", bracketBody body,
        (literal (String.ofList [bracket.closing])).demand message] (some [0, 1]) :=
  ⟨_, rfl⟩

/-- The token of an opening bracket. -/
def Bracket.token (bracket : Bracket) (place : Position) : Value :=
  .token ⟨String.ofList [bracket.opening], place, place.past [bracket.opening]⟩

theorem character_matches (scope : Scope) {c : Char} (hsees : place.Sees text (c :: rest)) :
    (literal (String.ofList [c])).Matches text scope place
      ⟨.token ⟨String.ofList [c], place, place.past [c]⟩, place.past [c], scope⟩ := by
  have hc : (String.ofList [c]).toList = [c] := String.toList_ofList
  refine (matches_literal_iff hsees).mpr ⟨rest, ?_, ?_⟩ <;> rw [hc]
  rfl

/-- What stands between brackets is matched with them. Its value depends on the scope, but
may have a property in all scopes. -/
theorem around_matches (bracket : Bracket) (make : Value → Value) {good : Value → Prop}
    (hready : Ready multiline scope)
    (hsees : place.Sees text (bracket.opening :: (run ++ (bracket.closing :: after))))
    (hunblank : Unblank true (run ++ (bracket.closing :: after)))
    (hbody : ∀ within here, Ready true within → here.line = place.line →
      here.Sees text (run ++ (bracket.closing :: after)) → ∃ value last, good value ∧
        body.Matches text within here ⟨value, here.past run, last⟩) :
    ∃ value last, good value ∧ Ready multiline last ∧
      (bracket.around body make).Matches text scope place
        ⟨make (.list [bracket.token place, value]),
          place.past (bracket.opening :: (run ++ [bracket.closing])), last⟩ := by
  have hsplit : place.Sees text
      ([bracket.opening] ++ (run ++ ([bracket.closing] ++ after))) := hsees
  have hcaptured : ((literal (String.ofList [bracket.opening])).capture "bracket_opening").Matches
      text scope place ⟨bracket.token place, place.past [bracket.opening],
        scope.bind "bracket_opening" (.value (bracket.token place))⟩ :=
    matches_capture_iff.mpr ⟨_, character_matches scope hsees, rfl⟩
  have hinner : Ready multiline
      (scope.bind "bracket_opening" (.value (bracket.token place))) :=
    hready.bind (by decide) _
  obtain ⟨blanks, hblanks⟩ := noBlanks_match hinner.bracketed hsplit.past hunblank
  have hline : (place.past [bracket.opening]).line = place.line :=
    line_past_of_oneLine place (by cases bracket <;> decide)
  obtain ⟨value, last, hgood, hlast⟩ := hbody _ _ hinner.bracketed hline hsplit.past
  have hmiddle : (bracketBody body).Matches text
      (scope.bind "bracket_opening" (.value (bracket.token place)))
      (place.past [bracket.opening]) ⟨value, (place.past [bracket.opening]).past run,
        scope.bind "bracket_opening" (.value (bracket.token place))⟩ :=
    matches_ofForm_iff.mpr (Form.matches_overlay_iff.mpr
      ⟨_, last, rfl, matches_of_row rfl (.cons hblanks (.single hlast)) rfl, rfl⟩)
  have hclosing := character_matches
    (scope.bind "bracket_opening" (.value (bracket.token place))) hsplit.past.past
  obtain ⟨message, hform⟩ := around_form bracket body make
  have hstop : place.past (bracket.opening :: (run ++ [bracket.closing])) =
      ((place.past [bracket.opening]).past run).past [bracket.closing] := by
    rw [← List.singleton_append, Position.past_append, Position.past_append]
  refine ⟨value, _, hgood, hinner, ?_⟩
  rw [hstop]
  exact matches_of_row hform
    (.cons hcaptured (.cons hmiddle (.single (matches_demand_iff.mpr hclosing)))) rfl

theorem around_misses (bracket : Bracket) (hsees : place.Sees text rest)
    (hrest : ∀ c ∈ rest.head?, c ≠ bracket.opening) :
    (bracket.around body make).Misses text scope place := by
  have hopening : (String.ofList [bracket.opening]).toList.head? = some bracket.opening := by
    rw [String.toList_ofList]
    rfl
  obtain ⟨message, hform⟩ := around_form bracket body make
  exact misses_of_row hform (rowMisses_of_first
    (capture_misses (literal_misses_of_head hsees hopening hrest)))

end Brackets

end ScopedGrammar.Croco
