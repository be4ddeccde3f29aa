/-
# Collections, calls and indexes

What stands between brackets. Members are taken one by one with the blanks around them, up to
a comma or a bracket. Where a closing bracket comes after a comma, no further member is
found, and the comma is taken by itself; this is how a tuple of one member is told from a
member in parentheses.
-/

import ScopedGrammar.Proofs.Croco.Levels

namespace ScopedGrammar.Croco

open Pattern

variable {text : String} {multiline : Bool} {scope inner : Scope} {place stop : Position}
  {run rest after lead trail : List Char} {expression : Expression}

/-- Whether an expression is taken as it is written. -/
def Whole (expression : Expression) : Prop :=
  Taken (ruleAt 0) (Stops 0) expression.text expression

/-- The characters before which a member of a collection ends. -/
def memberEnds : List Char :=
  [',', ')', ']', '\x7d']

/-- Whether a member of a collection ends before what follows. -/
def Ends (after : List Char) : Prop :=
  ∃ c more, after = c :: more ∧ c ∈ memberEnds

namespace Ends

theorem head (hafter : Ends after) : ∀ c ∈ after.head?, c ∈ memberEnds := by
  obtain ⟨c, more, rfl, hc⟩ := hafter
  rintro d ⟨⟩
  exact hc

theorem stops (hafter : Ends after) : Stops 0 after := by
  have hall : ∀ c ∈ memberEnds, c ∈ closers := by decide
  exact stops_of_closer fun c hc => hall c (hafter.head c hc)

theorem endsWord (hafter : Ends after) : EndsWord after := by
  have hall : ∀ c ∈ memberEnds, isNameChar c = false := by decide
  exact fun c hc => hall c (hafter.head c hc)

theorem unblank (hafter : Ends after) (multiline : Bool) : Unblank multiline after := by
  have hall : ∀ c ∈ memberEnds, c ∉ blankStarts := by decide
  exact unblank_of_head (fun c hc => hall c (hafter.head c hc)) multiline

theorem not_opens (hafter : Ends after) : ∀ c ∈ after.head?, opens c = false ∧ c ≠ '.' := by
  have hall : ∀ c ∈ memberEnds, opens c = false ∧ c ≠ '.' := by decide
  exact fun c hc => hall c (hafter.head c hc)

end Ends

/-- Expressions with commas between them. -/
def items : Pattern :=
  (named "EXPRESSION").separatedBy (literal ",")

/-- After some expressions and commas, no other expression comes. -/
def NoItem (text : String) (scope : Scope) (after : List Char) : Prop :=
  ∀ ⦃place : Position⦄ (count : Nat), place.Sees text after →
    RowMisses text (dueAfter (some (literal ",")) (count + 1) ++ [named "EXPRESSION"]) scope place

section Items

variable {members : List Expression}

/-- A member is taken with the blanks around it. -/
theorem Whole.matches_member (hwhole : Whole expression) (hfits : text.length < offsetBound)
    (hready : Ready multiline scope) (hlead : Blank lead) (htrail : Blank trail)
    (hafter : Ends after)
    (hsees : place.Sees text (lead ++ (expression.text ++ (trail ++ after)))) :
    (named "EXPRESSION").Matches text scope place
      ⟨expression.node place.line, place.past (lead ++ (expression.text ++ trail)), scope⟩ :=
  hwhole ⟨hfits, hready, hlead, htrail, hsees, hafter.unblank multiline,
    htrail.endsWord_append hafter.endsWord⟩ hafter.stops

theorem Expression.text_ne_nil (expression : Expression) : expression.text ≠ [] := by
  have hnothing : EndsWord [] := fun c hc => nomatch hc
  obtain ⟨c, more, htext, -⟩ := (expression.opens_text hnothing).head
  rw [List.append_nil] at htext
  rw [htext]
  exact List.cons_ne_nil c more

theorem Expression.unblank_append (expression : Expression) (multiline : Bool)
    (rest : List Char) : Unblank multiline (expression.text ++ rest) := by
  have hnothing : EndsWord [] := fun c hc => nomatch hc
  obtain ⟨c, more, htext, hc⟩ := (expression.opens_text hnothing).head
  rw [List.append_nil] at htext
  rw [htext]
  exact unblank_of_opens hc _ multiline

/-- Some gap is taken for the first comma. -/
theorem exists_gap (gaps : List Gap) :
    ∃ (gap : Gap) (further : List Gap), ∀ first rest,
      afterCommas gaps (first :: rest) = gap.comma ++ (first ++ afterCommas further rest) :=
  ⟨gaps.headD .tight, gaps.tail, fun _ _ => rfl⟩

/-- Members that come after commas are taken one by one. The blanks before the first comma
belong to the member before it. -/
theorem afterCommas_series (hfits : text.length < offsetBound) (hready : Ready true scope)
    (hmembers : ∀ member ∈ members, Whole member) (htrail : Blank trail) (hafter : Ends after)
    (hnone : NoItem text scope after) (gaps : List Gap) :
    ∃ blanks commas, afterCommas gaps (Expression.texts members) ++ trail = blanks ++ commas ∧
      Blank blanks ∧ Ends (commas ++ after) ∧
      ∀ ⦃place : Position⦄ (count : Nat), place.Sees text (commas ++ after) →
        Series text (named "EXPRESSION") (some (literal ",")) none (count + 1) scope place
          (Expression.nodes place.line members) (place.past commas) scope := by
  -- The blanks that the induction hands back stand before the next comma or bracket. The
  -- member before them takes them.
  induction members generalizing gaps with
  | nil =>
      refine ⟨trail, [], (List.append_nil _).symm, htrail, hafter, fun place count hsees => ?_⟩
      exact .missed not_fullAt_none (hnone count hsees)
  | cons first others ih =>
      rw [List.forall_mem_cons] at hmembers
      obtain ⟨gap, further, hgap⟩ := exists_gap gaps
      obtain ⟨blanks, commas, hsplit, hblanks, hends, hseries⟩ := ih hmembers.2 further
      refine ⟨gap.before, [','] ++ (gap.after ++ (first.text ++ blanks)) ++ commas, ?_,
        gap.blankBefore, ⟨',', _, rfl, by decide⟩, fun place count hsees => ?_⟩
      · simp [Expression.texts, hgap, Gap.comma, hsplit]
      have hcomma : place.Sees text
          ([','] ++ (gap.after ++ (first.text ++ (blanks ++ (commas ++ after))))) := by
        simpa only [List.append_assoc] using hsees
      obtain ⟨due, hdue⟩ := literal_matches scope (show place.Sees text (",".toList ++ _) from
        hcomma)
      have hfirst := hmembers.1.matches_member hfits hready gap.blankAfter hblanks hends
        hcomma.past
      rw [line_past_of_oneLine _ (by decide), ← Position.past_append] at hfirst
      have hseen : (place.past ([','] ++ (gap.after ++ (first.text ++ blanks)))).Sees text
          (commas ++ after) := by
        simpa only [Position.past_append] using hcomma.past.past.past.past
      have hlines : (place.past ([','] ++ (gap.after ++ (first.text ++ blanks)))).line =
          place.line := by
        apply line_past_of_oneLine
        simp [gap.blankAfter.oneLine, first.oneLine, hblanks.oneLine]
      have hrest := hseries (count + 1) hseen
      rw [hlines] at hrest
      rw [Position.past_append _ _ commas, Expression.nodes]
      exact .moved not_fullAt_none (rowMatches_later_iff.mpr ⟨_, hdue, rfl, hfirst⟩)
        (Position.offset_past_ne _ (List.cons_ne_nil _ _)) hrest

/-- Members and the commas between them are taken up to where no other member comes. -/
theorem items_match (hfits : text.length < offsetBound) (hready : Ready true scope)
    {first : Expression} (hmembers : ∀ member ∈ first :: members, Whole member)
    (htrail : Blank trail) (hafter : Ends after) (hnone : NoItem text scope after) {gaps : List Gap}
    (hsees : place.Sees text
      (separated gaps (Expression.texts (first :: members)) ++ (trail ++ after))) :
    items.Matches text scope place
      ⟨.list (Expression.nodes place.line (first :: members)),
        place.past (separated gaps (Expression.texts (first :: members)) ++ trail), scope⟩ := by
  rw [List.forall_mem_cons] at hmembers
  obtain ⟨blanks, commas, hsplit, hblanks, hends, hseries⟩ :=
    afterCommas_series hfits hready hmembers.2 htrail hafter hnone gaps
  have hwritten : separated gaps (Expression.texts (first :: members)) ++ trail =
      (first.text ++ blanks) ++ commas := by
    rw [Expression.texts, separated, List.append_assoc, hsplit, List.append_assoc]
  have hseen : place.Sees text ([] ++ (first.text ++ (blanks ++ (commas ++ after)))) := by
    rw [← List.append_assoc _ trail, hwritten] at hsees
    simpa only [List.append_assoc, List.nil_append] using hsees
  have hfirst := hmembers.1.matches_member hfits hready (List.forall_mem_nil _) hblanks hends
    hseen
  have hnext : (place.past (first.text ++ blanks)).Sees text (commas ++ after) := by
    rw [Position.past_append]
    exact hseen.past.past.past
  have hrest := hseries 0 hnext
  have hlines : (place.past (first.text ++ blanks)).line = place.line :=
    line_past_of_oneLine place (by simp [first.oneLine, hblanks.oneLine])
  rw [hlines] at hrest
  rw [hwritten, Position.past_append, Expression.nodes]
  refine (matches_atLeast_iff (Nat.zero_le _)).mpr
    ⟨_, .moved not_fullAt_none (rowMatches_first_iff.mpr ⟨rfl, hfirst⟩) ?_ hrest,
      Nat.zero_le _, rfl⟩
  exact Position.offset_past_ne _ (by simp [first.text_ne_nil])

theorem noItem_of_closing {c : Char} (hc : c ≠ ',') (scope : Scope) (more : List Char) :
    NoItem text scope (c :: more) := by
  intro place count hsees
  apply rowMisses_later_of_separator
  apply literal_misses_of_head hsees rfl
  rintro d ⟨⟩
  exact hc

/-- Where a closing bracket comes at once, there are no expressions. -/
theorem items_match_nothing (hready : Ready multiline scope) (hsees : place.Sees text after)
    (hafter : Ends after) : items.Matches text scope place ⟨.list [], place, scope⟩ := by
  have hmisses : (named "EXPRESSION").Misses text scope place :=
    expression_misses hready (show place.Sees text ([] ++ after) from hsees)
      (List.forall_mem_nil _) (hafter.unblank multiline) hafter.not_opens
  exact (matches_atLeast_iff (Nat.zero_le _)).mpr
    ⟨[], .missed not_fullAt_none (rowMisses_first_iff.mpr hmisses), Nat.zero_le _, rfl⟩

end Items

/-- The comma that may stand after the last member of a collection. -/
def trailingComma : Pattern :=
  ((literal ",").andThen (named "SPACES")).optional

/-- The pattern for a collection in brackets. -/
def Bracket.pattern (bracket : Bracket) : Pattern :=
  bracket.around (sequence [items, trailingComma]) (collectionValue bracket.kind)

/-- A comma with blanks around it, if it is there. -/
def commaIf : Option Gap → List Char
  | none => []
  | some gap => gap.comma

section Collections

variable {bracket : Bracket} {members : List Expression} {gaps : List Gap} {last : Option Gap}

theorem Bracket.ends (bracket : Bracket) (rest : List Char) : Ends (bracket.closing :: rest) := by
  cases bracket <;> exact ⟨_, rest, rfl, by decide⟩

theorem Bracket.closing_ne (bracket : Bracket) : bracket.closing ≠ ',' := by
  cases bracket <;> decide

/-- A comma after the last member is taken, with the blanks after it. -/
theorem trailingComma_matches (hready : Ready multiline scope) {gap : Gap}
    (hsees : place.Sees text (',' :: (gap.after ++ after))) (hafter : Ends after) :
    ∃ trailing : Value, trailing.isTruthy = true ∧
      trailingComma.Matches text scope place
        ⟨trailing, place.past (',' :: gap.after), scope⟩ := by
  have hcomma : place.Sees text (",".toList ++ (gap.after ++ after)) := hsees
  obtain ⟨due, hdue⟩ := literal_matches scope hcomma
  obtain ⟨blanks, hblanks⟩ := blanks_match hready hcomma.past gap.blankAfter
    (hafter.unblank multiline)
  have hrow : ((literal ",").andThen (named "SPACES")).Matches text scope place
      ⟨.list [due, blanks], (place.past ",".toList).past gap.after, scope⟩ :=
    matches_of_row rfl (.cons hdue (.single hblanks)) rfl
  exact ⟨.list [.list [due, blanks]], rfl, matches_optional_iff.mpr (.inl ⟨_, hrow, rfl⟩)⟩

theorem trailingComma_matches_nothing (scope : Scope) {c : Char} (hc : c ≠ ',')
    (hsees : place.Sees text (c :: rest)) :
    trailingComma.Matches text scope place ⟨.list [], place, scope⟩ := by
  refine matches_optional_iff.mpr (.inr ⟨?_, rfl⟩)
  refine misses_of_row rfl (rowMisses_of_first (literal_misses_of_head hsees rfl ?_))
  rintro d ⟨⟩
  exact hc

/-- No expression comes between a last comma and what follows it. -/
theorem noItem_of_comma (hready : Ready true scope) {gap : Gap} (hafter : Ends after) :
    NoItem text scope (',' :: (gap.after ++ after)) := by
  intro place count hsees
  have hcomma : place.Sees text (",".toList ++ (gap.after ++ after)) := hsees
  obtain ⟨due, hdue⟩ := literal_matches scope hcomma
  refine rowMisses_of_rest hdue (rowMisses_of_first ?_)
  exact expression_misses hready hcomma.past gap.blankAfter (hafter.unblank true)
    hafter.not_opens

/-- Members without a comma after them are taken up to the closing bracket. -/
theorem items_match_to_bracket (bracket : Bracket) (hfits : text.length < offsetBound)
    (hready : Ready true scope) (hmembers : ∀ member ∈ members, Whole member)
    (hsees : place.Sees text
      (separated gaps (Expression.texts members) ++ (bracket.closing :: after))) :
    items.Matches text scope place
      ⟨.list (Expression.nodes place.line members),
        place.past (separated gaps (Expression.texts members)), scope⟩ := by
  cases members with
  | nil => exact items_match_nothing hready hsees (bracket.ends after)
  | cons first others =>
      have hitems := items_match hfits hready hmembers (List.forall_mem_nil _)
        (bracket.ends after) (noItem_of_closing bracket.closing_ne scope after) hsees
      rwa [List.append_nil] at hitems

/-- What stands between the brackets of a collection is taken up to the closing one. -/
theorem members_match (hfits : text.length < offsetBound) (hready : Ready true scope)
    (hmembers : ∀ member ∈ members, Whole member) (hlast : members = [] → last = none)
    (hsees : place.Sees text (separated gaps (Expression.texts members) ++
      (commaIf last ++ (bracket.closing :: after)))) :
    ∃ trailing : Value, trailing.isTruthy = last.isSome ∧
      (sequence [items, trailingComma]).Matches text scope place
        ⟨.list [.list (Expression.nodes place.line members), trailing],
          place.past (separated gaps (Expression.texts members) ++ commaIf last), scope⟩ := by
  cases last with
  | none =>
      have hitems := items_match_to_bracket bracket hfits hready hmembers hsees
      have htrailing := trailingComma_matches_nothing scope bracket.closing_ne hsees.past
      rw [commaIf, List.append_nil]
      exact ⟨_, rfl, matches_of_row rfl (.cons hitems (.single htrailing)) rfl⟩
  | some gap =>
      cases members with
      | nil => cases hlast rfl
      | cons first others =>
          have hgap : place.Sees text (separated gaps (Expression.texts (first :: others)) ++
              (gap.before ++ (',' :: (gap.after ++ (bracket.closing :: after))))) := by
            simpa only [commaIf, Gap.comma, List.append_assoc, List.cons_append] using hsees
          have hitems := items_match hfits hready hmembers gap.blankBefore
            ⟨',', _, rfl, by decide⟩ (noItem_of_comma hready (bracket.ends after)) hgap
          have hseen := hgap.past.past
          rw [← Position.past_append] at hseen
          obtain ⟨trailing, htruthy, htrailing⟩ :=
            trailingComma_matches hready hseen (bracket.ends after)
          rw [← Position.past_append, List.append_assoc] at htrailing
          exact ⟨trailing, htruthy, matches_of_row rfl (.cons hitems (.single htrailing)) rfl⟩

/-- Where members and a closing bracket come next, no blanks do. -/
theorem unblank_members (hlast : members = [] → last = none) (multiline : Bool)
    (after : List Char) :
    Unblank multiline (separated gaps (Expression.texts members) ++
      (commaIf last ++ (bracket.closing :: after))) := by
  cases members with
  | nil =>
      cases hlast rfl
      exact (bracket.ends after).unblank multiline
  | cons first others =>
      rw [Expression.texts, separated, List.append_assoc]
      exact first.unblank_append multiline _

/-- A collection in brackets is taken as what its members come to. -/
theorem collection_matches (bracket : Bracket) (hfits : text.length < offsetBound)
    (hready : Ready multiline scope) (hmembers : ∀ member ∈ members, Whole member)
    (hlast : members = [] → last = none)
    (hsees : place.Sees text (bracket.opening :: (separated gaps (Expression.texts members) ++
      (commaIf last ++ [bracket.closing])) ++ after)) :
    ∃ trailing inner, trailing.isTruthy = last.isSome ∧ Ready multiline inner ∧
      bracket.pattern.Matches text scope place
        ⟨collectionValue bracket.kind (.list [bracket.token place,
            .list [.list (Expression.nodes place.line members), trailing]]),
          place.past (bracket.opening :: (separated gaps (Expression.texts members) ++
            (commaIf last ++ [bracket.closing]))), inner⟩ := by
  have hseen : place.Sees text (bracket.opening ::
      ((separated gaps (Expression.texts members) ++ commaIf last) ++
        (bracket.closing :: after))) := by
    simpa using hsees
  have hunblank : Unblank true ((separated gaps (Expression.texts members) ++ commaIf last) ++
      (bracket.closing :: after)) := by
    rw [List.append_assoc]
    exact unblank_members hlast true after
  have hbody (within : Scope) (here : Position) (hwithin : Ready true within)
      (hline : here.line = place.line)
      (hhere : here.Sees text ((separated gaps (Expression.texts members) ++ commaIf last) ++
        (bracket.closing :: after))) : ∃ value ended,
      (∃ trailing : Value, trailing.isTruthy = last.isSome ∧
        value = .list [.list (Expression.nodes place.line members), trailing]) ∧
      (sequence [items, trailingComma]).Matches text within here
        ⟨value, here.past (separated gaps (Expression.texts members) ++ commaIf last), ended⟩ := by
    rw [List.append_assoc] at hhere
    obtain ⟨trailing, htruthy, hmatched⟩ := members_match hfits hwithin hmembers hlast hhere
    rw [hline] at hmatched
    exact ⟨_, within, ⟨trailing, htruthy, rfl⟩, hmatched⟩
  obtain ⟨_, inner, ⟨trailing, htruthy, rfl⟩, hinner, hmatches⟩ :=
    around_matches bracket (collectionValue bracket.kind) hready hseen hunblank hbody
  rw [List.append_assoc] at hmatches
  exact ⟨trailing, inner, htruthy, hinner, hmatches⟩

/-- What is written before the closing bracket of a collection is the comma that tells a
tuple of one member from a member in parentheses. -/
theorem exists_lastComma (bracket : Bracket) (gaps : List Gap) (members : List Expression) :
    ∃ last : Option Gap, lastComma bracket gaps (Expression.texts members) = commaIf last ∧
      (members = [] → last = none) ∧
      (bracket = .tuple → members.length = 1 → last.isSome = true) := by
  rcases bracket with _ | _ | _ <;> rcases members with _ | ⟨first, _ | ⟨second, others⟩⟩
  case tuple.cons.nil => exact ⟨some (gaps.headD .tight), rfl, nofun, fun _ _ => rfl⟩
  all_goals exact ⟨none, rfl, fun _ => rfl, by simp⟩

theorem collectionValue_eq {trailing : Value} {line : Nat}
    (hkept : bracket = .tuple → members.length = 1 → trailing.isTruthy = true) :
    collectionValue bracket.kind (.list [bracket.token place,
        .list [.list (Expression.nodes line members), trailing]]) =
      .node bracket.kind place.line (Expression.nodes line members) := by
  rcases bracket with _ | _ | _ <;> rcases members with _ | ⟨first, _ | ⟨second, others⟩⟩
  case tuple.cons.nil =>
    have htruthy := hkept rfl rfl
    simp [collectionValue, Value.item, Value.items, final, beforeFinal, htruthy, Bracket.kind,
      Expression.nodes, nodeFrom, Value.lineOrZero, Value.line?, Value.lineOfList?, Bracket.token]
  all_goals
    simp [collectionValue, Value.item, Value.items, final, beforeFinal, Bracket.kind,
      Expression.nodes, nodeFrom, Value.lineOrZero, Value.line?, Value.lineOfList?, Bracket.token]

theorem collectionValue_single {trailing : Value} {line : Nat}
    (htrailing : trailing.isTruthy = false) :
    collectionValue Bracket.tuple.kind (.list [Bracket.tuple.token place,
        .list [.list (Expression.nodes line [expression]), trailing]]) =
      expression.node line := by
  simp [collectionValue, Value.item, Value.items, final, beforeFinal, htrailing, Bracket.kind,
    Expression.nodes]

/-- A bracket that opens a collection is met by the pattern for the collection. -/
theorem primaryChoice_matches_bracket {success : Match} (hready : Ready multiline scope)
    (hsees : place.Sees text (bracket.opening :: rest))
    (hmatches : bracket.pattern.Matches text scope place success) :
    primaryChoice.Matches text scope place success := by
  have hnumber := named_number_misses hready hsees (by
    rintro c ⟨⟩
    cases bracket <;> decide)
  have hstring := named_string_misses hready hsees (by
    rintro c ⟨⟩
    cases bracket <;> decide)
  have hname := named_identifier_misses hready hsees (by
    rintro c ⟨⟩
    cases bracket <;> decide)
  have hother (other : Bracket) (hne : bracket.opening ≠ other.opening) :
      other.pattern.Misses text scope place :=
    around_misses other hsees (by rintro c ⟨⟩; exact hne)
  have hleaves : ∀ option ∈ [named "NUMBER", named "STRING", named "IDENTIFIER"],
      option.Misses text scope place := by
    simp [hnumber, hstring, hname]
  cases bracket with
  | tuple => exact choice_matches hleaves hmatches
  | list =>
      have hfront : ∀ option ∈ [named "NUMBER", named "STRING", named "IDENTIFIER"] ++
          [Bracket.tuple.pattern], option.Misses text scope place := by
        simpa [hother .tuple (by decide)] using hleaves
      exact choice_matches hfront hmatches
  | set =>
      have hfront : ∀ option ∈ [named "NUMBER", named "STRING", named "IDENTIFIER"] ++
          [Bracket.tuple.pattern, Bracket.list.pattern], option.Misses text scope place := by
        simpa [hother .tuple (by decide), hother .list (by decide)] using hleaves
      exact choice_matches hfront hmatches

theorem primary_collection (hmembers : ∀ member ∈ members, Whole member) :
    Primary false (Expression.collection bracket members gaps).text
      (.collection bracket members gaps) := by
  intro text multiline scope place after hfits hready hsees _ _
  obtain ⟨last, hwritten, hnone, hkept⟩ := exists_lastComma bracket gaps members
  rw [Expression.text, hwritten] at hsees ⊢
  obtain ⟨trailing, inner, htruthy, hinner, hmatches⟩ :=
    collection_matches bracket hfits hready hmembers hnone hsees
  rw [← htruthy] at hkept
  rw [collectionValue_eq hkept] at hmatches
  exact ⟨inner, hinner, primaryChoice_matches_bracket hready hsees hmatches⟩

/-- An expression in parentheses is the expression. -/
theorem primary_enclosed (hwhole : Whole expression) :
    Primary false (enclosed true expression.text) expression := by
  intro text multiline scope place after hfits hready hsees _ _
  have hmembers : ∀ member ∈ [expression], Whole member := by simpa using hwhole
  have hwritten : enclosed true expression.text = Bracket.tuple.opening ::
      (separated [] (Expression.texts [expression]) ++
        (commaIf none ++ [Bracket.tuple.closing])) := by
    simp [enclosed, separated, Expression.texts, afterCommas, commaIf, Bracket.opening,
      Bracket.closing]
  rw [hwritten] at hsees ⊢
  obtain ⟨trailing, inner, htruthy, hinner, hmatches⟩ :=
    collection_matches .tuple hfits hready hmembers (fun _ => rfl) hsees
  rw [collectionValue_single htruthy] at hmatches
  exact ⟨inner, hinner, primaryChoice_matches_bracket hready hsees hmatches⟩

end Collections

section Suffixes

variable {bracket : Bracket} {body : Pattern} {make : Value → Value} {target result : Expression}

/-- What is taken in brackets is a postfix operation, if the brackets make it one. -/
theorem suffix_of_around (value : Nat → Value)
    (hopening : bracket = .tuple ∨ bracket = .list)
    (hstep : ∀ {text : String} {scope : Scope} {place : Position} {rest : List Char}
      {success : Match}, place.Sees text (bracket.opening :: rest) →
      (bracket.around body make).Matches text scope place success →
      postfixStep.Matches text scope place success)
    (hunblank : ∀ after, Unblank true (run ++ (bracket.closing :: after)))
    (hbody : ∀ {text : String} {scope : Scope} {place : Position} {after : List Char},
      text.length < offsetBound → Ready true scope →
      place.Sees text (run ++ (bracket.closing :: after)) →
      body.Matches text scope place ⟨value place.line, place.past run, scope⟩)
    (hvalue : ∀ place, applyPostfix (target.node place.line)
      (make (.list [bracket.token place, value place.line])) = result.node place.line) :
    Suffix (bracket.opening :: (run ++ [bracket.closing])) target result := by
  constructor
  · refine ⟨bracket.opening, _, rfl, .inr ?_⟩
    rcases hopening with rfl | rfl <;> simp [Bracket.opening]
  intro text multiline scope place trail after hstands
  have hsees : place.Sees text
      (bracket.opening :: (run ++ (bracket.closing :: (trail ++ after)))) := by
    simpa using hstands.sees
  have hwithin (within : Scope) (here : Position) (hwithin : Ready true within)
      (hline : here.line = place.line)
      (hhere : here.Sees text (run ++ (bracket.closing :: (trail ++ after)))) :
      ∃ content ended, content = value place.line ∧
        body.Matches text within here ⟨content, here.past run, ended⟩ :=
    ⟨_, within, rfl, hline ▸ hbody hstands.fits hwithin hhere⟩
  obtain ⟨_, inner, rfl, hinner, hmatches⟩ :=
    around_matches bracket make hstands.ready hsees (hunblank _) hwithin
  refine ⟨[], trail, _, inner, rfl, hinner, ?_, hvalue place⟩
  rw [List.append_nil]
  exact hstep hsees hmatches

/-- Where a bracket opens, no point is next. -/
theorem attributeAccess_misses (bracket : Bracket)
    (hsees : place.Sees text (bracket.opening :: rest)) :
    attributeAccess.Misses text scope place := by
  refine misses_of_row attributeAccess_form (rowMisses_of_first
    (literal_misses_of_head hsees rfl ?_))
  rintro c ⟨⟩
  cases bracket <;> decide

/-- Arguments in parentheses call what stands before them. -/
theorem suffix_call (callee : Expression) {arguments : List Expression}
    (harguments : ∀ argument ∈ arguments, Whole argument) (gaps : List Gap) :
    Suffix ('(' :: (separated gaps (Expression.texts arguments) ++ [')'])) callee
      (.call callee arguments gaps) := by
  have hstep {text : String} {scope : Scope} {place : Position} {rest : List Char}
      {success : Match} (hsees : place.Sees text (Bracket.tuple.opening :: rest))
      (hmatches : (Bracket.tuple.around items callValue).Matches text scope place success) :
      postfixStep.Matches text scope place success := by
    have hbefore : ∀ option ∈ [attributeAccess], option.Misses text scope place := by
      simpa using attributeAccess_misses .tuple hsees
    exact choice_matches hbefore hmatches
  have hunblank (after : List Char) : Unblank true
      (separated gaps (Expression.texts arguments) ++ (Bracket.tuple.closing :: after)) :=
    unblank_members (fun _ => rfl : arguments = [] → none = none) true after
  have hbody {text : String} {scope : Scope} {place : Position} {after : List Char}
      (hfits : text.length < offsetBound) (hready : Ready true scope)
      (hsees : place.Sees text (separated gaps (Expression.texts arguments) ++
        (Bracket.tuple.closing :: after))) :
      items.Matches text scope place ⟨.list (Expression.nodes place.line arguments),
        place.past (separated gaps (Expression.texts arguments)), scope⟩ :=
    items_match_to_bracket .tuple hfits hready harguments hsees
  exact suffix_of_around (fun line => .list (Expression.nodes line arguments)) (.inl rfl) hstep
    hunblank hbody fun place => rfl

/-- An expression in square brackets is an index of what stands before them. -/
theorem suffix_index (target : Expression) {position : Expression} (hposition : Whole position) :
    Suffix ('[' :: (position.text ++ [']'])) target (.index target position) := by
  have hstep {text : String} {scope : Scope} {place : Position} {rest : List Char}
      {success : Match} (hsees : place.Sees text (Bracket.list.opening :: rest))
      (hmatches : (Bracket.list.around ((named "EXPRESSION").demand
        "expected an index expression on line \x7bline\x7d") indexValue).Matches text scope place
          success) : postfixStep.Matches text scope place success := by
    have hcall : call.Misses text scope place :=
      around_misses .tuple hsees (by rintro c ⟨⟩; decide)
    have hbefore : ∀ option ∈ [attributeAccess, call], option.Misses text scope place := by
      simpa using ⟨attributeAccess_misses .list hsees, hcall⟩
    exact choice_matches hbefore hmatches
  have hbody {text : String} {scope : Scope} {place : Position} {after : List Char}
      (hfits : text.length < offsetBound) (hready : Ready true scope)
      (hsees : place.Sees text (position.text ++ (Bracket.list.closing :: after))) :
      ((named "EXPRESSION").demand
        "expected an index expression on line \x7bline\x7d").Matches text scope place
        ⟨position.node place.line, place.past position.text, scope⟩ := by
    have hmatched := hposition.matches_member hfits hready (List.forall_mem_nil _)
      (List.forall_mem_nil _) (Bracket.list.ends after)
      (show place.Sees text ([] ++ (position.text ++ ([] ++ _))) from hsees)
    rw [List.nil_append, List.append_nil] at hmatched
    exact matches_demand_iff.mpr hmatched
  exact suffix_of_around (fun line => position.node line) (.inr rfl) hstep
    (fun after => position.unblank_append true _) hbody fun place => rfl

end Suffixes

end ScopedGrammar.Croco
