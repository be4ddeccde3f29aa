/-
# Produced texts are matched

Whatever the language produces is matched where it stands, if what comes after it cannot
continue it. The induction is on the production, and blanks need care there. A production may
put them in front of the first element of an array, where the parser takes them together with
those after the bracket. So an element is split into blanks and a core, and what is proved of
it is that the rule takes the core with any blanks in front.
-/

import ScopedGrammar.Proofs.Json.Soundness

namespace ScopedGrammar.Json

open Pattern

variable {text : String} {scope : Scope} {place : Position} {run rest after : List Char}
  {value : Value}

/-- Whether a run begins, and with a character that is not blank. -/
def Begins (run : List Char) : Prop :=
  ∃ c more, run = c :: more ∧ ¬ (c = ' ' ∨ c = '\t' ∨ c = '\r' ∨ c = '\n')

/-- Whether an element may end before the next character, if there is one. -/
def Follows (after : List Char) : Prop :=
  ∀ c ∈ after.head?, c = ',' ∨ c = ']' ∨ c = '\x7d'

/-- Whether a run of elements or members may end before the next character. -/
def Closes (after : List Char) : Prop :=
  ∀ c ∈ after.head?, c = ']' ∨ c = '\x7d'

theorem Begins.unblank (hrun : Begins run) (after : List Char) : Unblank (run ++ after) := by
  obtain ⟨first, more, rfl, hfirst⟩ := hrun
  intro c hc
  cases hc
  exact hfirst

theorem Begins.append (hrun : Begins run) (after : List Char) : Begins (run ++ after) := by
  obtain ⟨first, more, rfl, hfirst⟩ := hrun
  exact ⟨first, more ++ after, rfl, hfirst⟩

theorem Begins.ne_nil (hrun : Begins run) : run ≠ [] := by
  obtain ⟨first, more, rfl, -⟩ := hrun
  exact List.cons_ne_nil _ _

theorem Closes.follows (hafter : Closes after) : Follows after :=
  fun c hc => .inr (hafter c hc)

theorem Follows.unblank (hafter : Follows after) : Unblank after := by
  intro c hc
  rcases hafter c hc with rfl | rfl | rfl <;> decide

/-- A number ends before blanks, and before whatever an element ends before. -/
theorem Follows.endsNumeral {gap : List Char} (hafter : Follows after) (hgap : Blank gap) :
    EndsNumeral (gap ++ after) := by
  intro c hc
  cases gap with
  | nil => rcases hafter c hc with rfl | rfl | rfl <;> decide
  | cons first more =>
      cases hc
      rcases hgap c List.mem_cons_self with rfl | rfl | rfl | rfl <;> decide

/-- The first character of a number. -/
theorem Numeral.head (hrun : Numeral run) :
    ∃ c more, run = c :: more ∧ (Decimal.isDigit c = true ∨ c = '-') := by
  obtain ⟨hsign, ⟨hnonempty, hdigits⟩, -, -⟩ := hrun
  rename_i sign whole fraction exponent
  obtain ⟨first, more, rfl⟩ := List.exists_cons_of_ne_nil hnonempty
  rcases hsign with rfl | rfl
  · exact ⟨first, _, rfl, .inl (hdigits first List.mem_cons_self)⟩
  · exact ⟨'-', _, rfl, .inr rfl⟩

/-- Neither digits nor the sign of a number are any of the other characters that values begin
with, nor blank. -/
theorem head_of_numeral {c : Char} (hc : Decimal.isDigit c = true ∨ c = '-') :
    c ∉ ['\x7b', '[', '"', ' ', '\t', '\r', '\n'] := by
  intro hmem
  have hall : ['\x7b', '[', '"', ' ', '\t', '\r', '\n'].all
      (fun c => !Decimal.isDigit c && c != '-') = true := by decide
  have hother := List.all_eq_true.mp hall c hmem
  rcases hc with hdigit | rfl
  · simp [hdigit] at hother
  · exact absurd hother (by decide)

section Containers

variable {pattern item : Pattern} {opening closing : String} {gap : List Char}
  {values : List Value}

theorem container_misses
    (hcontainer : IsContainer pattern item opening closing)
    {c : Char} (hopening : opening.toList.head? = some c) (hsees : place.Sees text rest)
    (hrest : ∀ d ∈ rest.head?, d ≠ c) : pattern.Misses text scope place := by
  obtain ⟨template, hform⟩ := hcontainer
  exact misses_of_row hform (rowMisses_of_first (literal_misses_of_head hsees hopening hrest))

/-- A container is matched if its items are. -/
theorem container_complete
    (hcontainer : IsContainer pattern item opening closing)
    (hsees : place.Sees text (opening.toList ++ (gap ++ (run ++ (closing.toList ++ after)))))
    (hgap : Blank gap) (hrun : Unblank (run ++ (closing.toList ++ after)))
    (hitems : Series text item (some (literal ",")) none 0 scope
      ((place.past opening.toList).past gap) values
      (((place.past opening.toList).past gap).past run) scope) :
    pattern.Matches text scope place
      ⟨pattern.finishValue (.list values),
        place.past (opening.toList ++ (gap ++ (run ++ closing.toList))), scope⟩ := by
  obtain ⟨start, hstart⟩ := literal_matches scope hsees
  obtain ⟨blank, hblank⟩ := blanks_matches scope hsees.past hgap hrun
  obtain ⟨final, hfinal⟩ := literal_matches scope hsees.past.past.past
  have hmiddle : (commaSeparated item).Matches text scope
      ((place.past opening.toList).past gap)
      ⟨.list values, ((place.past opening.toList).past gap).past run, scope⟩ :=
    (matches_atLeast_iff (Nat.zero_le _)).mpr ⟨values, hitems, Nat.zero_le _, rfl⟩
  obtain ⟨template, hform⟩ := hcontainer
  rw [Position.past_append, Position.past_append, Position.past_append]
  exact matches_of_row hform (.cons hstart (.cons hblank (.cons hmiddle
    (.single (matches_demand_iff.mpr hfinal))))) rfl

/-- A container without items is matched if none can begin at its closing bracket. -/
theorem empty_complete
    (hcontainer : IsContainer pattern item opening closing)
    (hsees : place.Sees text (opening.toList ++ (gap ++ (closing.toList ++ after))))
    (hgap : Blank gap) (hclosing : Begins closing.toList)
    (hitem : item.Misses text scope ((place.past opening.toList).past gap)) :
    pattern.Matches text scope place
      ⟨pattern.finishValue (.list []),
        place.past (opening.toList ++ (gap ++ closing.toList)), scope⟩ := by
  have hnone : Series text item (some (literal ",")) none 0 scope
      ((place.past opening.toList).past gap) []
      (((place.past opening.toList).past gap).past []) scope :=
    .missed not_fullAt_none (rowMisses_first_iff.mpr hitem)
  exact container_complete hcontainer hsees hgap (hclosing.unblank after) hnone

end Containers

/-- Neither brackets nor braces are what a text goes on with. -/
theorem brackets_miss (scope : Scope) (hsees : place.Sees text rest)
    (hrest : ∀ c ∈ rest.head?, c ≠ '\x7b' ∧ c ≠ '[') :
    object.Misses text scope place ∧ array.Misses text scope place :=
  ⟨container_misses object_container rfl hsees fun c hc => (hrest c hc).1,
    container_misses array_container rfl hsees fun c hc => (hrest c hc).2⟩

theorem string_misses (hsees : place.Sees text rest) (hrest : ∀ c ∈ rest.head?, c ≠ '"') :
    (named "STRING").Misses text grammar.scope place :=
  named_misses rule_string (labelled_misses _ (stringRule_misses hsees hrest))

/-- Where neither a bracket nor a brace comes next, a value is a string, a number or a
constant. -/
theorem value_of_others {success : Match} (hsees : place.Sees text rest)
    (hrest : ∀ c ∈ rest.head?, c ≠ '\x7b' ∧ c ≠ '[')
    (hothers : (Form.choice [named "STRING", number, constant]).Matches text scope place
      success) : valueRule.Matches text scope place success := by
  obtain ⟨hobject, harray⟩ := brackets_miss scope hsees hrest
  exact matches_ofForm_iff.mpr (Form.matches_choice_cons_iff.mpr (.inr ⟨hobject,
    Form.matches_choice_cons_iff.mpr (.inr ⟨harray, hothers⟩)⟩))

theorem string_value {content : List Char} (hbody : Body run content)
    (hsees : place.Sees text ('"' :: (run ++ ('"' :: after)))) :
    (named "STRING").Matches text grammar.scope place
      ⟨.text (String.ofList content), place.past ('"' :: (run ++ ['"'])), grammar.scope⟩ :=
  (matches_rule_iff rule_string).mpr ⟨grammar.scope, stringRule_complete hbody hsees, rfl⟩

theorem number_value (hnumeral : Numeral run) (hsees : place.Sees text (run ++ after))
    (hafter : EndsNumeral after) :
    valueRule.Matches text grammar.scope place
      ⟨numberValue run, place.past run, grammar.scope⟩ := by
  obtain ⟨c, more, rfl, hc⟩ := hnumeral.head
  have hother := head_of_numeral hc
  have hhead : ∀ d ∈ ((c :: more) ++ after).head?, d = c := fun d hd => by cases hd; rfl
  apply value_of_others hsees
  · intro d hd
    cases hhead d hd
    constructor <;> rintro rfl <;> exact hother (by decide)
  · refine Form.matches_choice_cons_iff.mpr (.inr ⟨string_misses hsees ?_, ?_⟩)
    · intro d hd
      cases hhead d hd
      rintro rfl
      exact hother (by decide)
    · exact Form.matches_choice_cons_iff.mpr (.inl (number_complete hsees hnumeral hafter))

section Constants

variable {word : String} {c : Char}

theorem word_complete (value : Value) (hsees : place.Sees text (word.toList ++ after)) :
    ((literal word).map fun _ => value).Matches text scope place
      ⟨value, place.past word.toList, scope⟩ :=
  matches_iff.mpr ⟨_, (Form.matches_literal_iff hsees).mpr ⟨after, rfl, rfl⟩, rfl⟩

theorem word_misses (value : Value) (hsees : place.Sees text rest)
    (hword : word.toList.head? = some c) (hrest : ∀ d ∈ rest.head?, d ≠ c) :
    ((literal word).map fun _ => value).Misses text scope place :=
  misses_of_form (Form.literal_misses hsees (not_prefix_of_head hword hrest))

/-- Where the letter of a constant comes next, nothing else than a constant is matched. -/
theorem constant_value {success : Match} (hsees : place.Sees text (c :: rest))
    (hc : c = 't' ∨ c = 'f' ∨ c = 'n')
    (hconstant : constant.Matches text grammar.scope place success) :
    valueRule.Matches text grammar.scope place success := by
  have hletter : (c ≠ '\x7b' ∧ c ≠ '[') ∧ c ≠ '"' ∧ Decimal.isDigit c = false ∧ c ≠ '-' := by
    rcases hc with rfl | rfl | rfl <;> decide
  obtain ⟨hbracket, hquote, hnumeral⟩ := hletter
  apply value_of_others hsees
  · rintro d ⟨⟩
    exact hbracket
  refine Form.matches_choice_cons_iff.mpr (.inr ⟨string_misses hsees ?_, ?_⟩)
  · rintro d ⟨⟩
    exact hquote
  refine Form.matches_choice_cons_iff.mpr (.inr ⟨number_misses hsees ?_, ?_⟩)
  · rintro d ⟨⟩
    exact hnumeral
  exact Form.matches_choice_cons_iff.mpr (.inl hconstant)

theorem true_value (hsees : place.Sees text ("true".toList ++ after)) :
    valueRule.Matches text grammar.scope place
      ⟨.bool true, place.past "true".toList, grammar.scope⟩ := by
  refine constant_value hsees (.inl rfl) (matches_ofForm_iff.mpr ?_)
  exact Form.matches_choice_cons_iff.mpr (.inl (word_complete _ hsees))

theorem false_value (hsees : place.Sees text ("false".toList ++ after)) :
    valueRule.Matches text grammar.scope place
      ⟨.bool false, place.past "false".toList, grammar.scope⟩ := by
  refine constant_value hsees (.inr (.inl rfl)) (matches_ofForm_iff.mpr ?_)
  refine Form.matches_choice_cons_iff.mpr (.inr ⟨word_misses _ hsees rfl ?_, ?_⟩)
  · rintro d ⟨⟩
    decide
  exact Form.matches_choice_cons_iff.mpr (.inl (word_complete _ hsees))

theorem null_value (hsees : place.Sees text ("null".toList ++ after)) :
    valueRule.Matches text grammar.scope place
      ⟨.empty, place.past "null".toList, grammar.scope⟩ := by
  refine constant_value hsees (.inr (.inr rfl)) (matches_ofForm_iff.mpr ?_)
  refine Form.matches_choice_cons_iff.mpr (.inr ⟨word_misses _ hsees rfl ?_, ?_⟩)
  · rintro d ⟨⟩
    decide
  refine Form.matches_choice_cons_iff.mpr (.inr ⟨word_misses _ hsees rfl ?_, ?_⟩)
  · rintro d ⟨⟩
    decide
  exact Form.matches_choice_cons_iff.mpr (.inl (word_complete _ hsees))

end Constants

/-- No value begins with a closing bracket. -/
theorem value_misses (hsees : place.Sees text (']' :: rest)) :
    valueRule.Misses text grammar.scope place := by
  obtain ⟨hobject, harray⟩ := brackets_miss grammar.scope hsees (by
    rintro c ⟨⟩
    decide)
  have hstring : (named "STRING").Misses text grammar.scope place := by
    apply string_misses hsees
    rintro c ⟨⟩
    decide
  have hnumber : number.Misses text grammar.scope place := by
    apply number_misses hsees
    rintro c ⟨⟩
    decide
  have hword (word : String) (value : Value) (c : Char) (hword : word.toList.head? = some c)
      (hc : ']' ≠ c) : ((literal word).map fun _ => value).Misses text grammar.scope place := by
    apply word_misses value hsees hword
    rintro d ⟨⟩
    exact hc
  have hconstant : constant.Misses text grammar.scope place :=
    misses_of_form (Form.choice_cons_misses (hword _ _ 't' rfl (by decide))
      (Form.choice_cons_misses (hword _ _ 'f' rfl (by decide))
        (Form.choice_cons_misses (hword _ _ 'n' rfl (by decide)) Form.choice_nil_misses)))
  exact misses_of_form (Form.choice_cons_misses hobject (Form.choice_cons_misses harray
    (Form.choice_cons_misses hstring (Form.choice_cons_misses hnumber
      (Form.choice_cons_misses hconstant Form.choice_nil_misses)))))

theorem element_misses (hsees : place.Sees text (']' :: rest)) :
    (named "ELEMENT").Misses text grammar.scope place := by
  have hnext : place.Sees text ([] ++ ']' :: rest) := hsees
  obtain ⟨blank, hblank⟩ := blanks_matches grammar.scope hnext (List.forall_mem_nil _) (by
    rintro c ⟨⟩
    decide)
  apply named_misses rule_element
  apply labelled_misses
  refine misses_of_row element_form (rowMisses_of_rest hblank (rowMisses_of_first ?_))
  exact named_misses rule_value (labelled_misses _ (value_misses hsees))

theorem member_misses (hsees : place.Sees text ('\x7d' :: rest)) :
    (named "MEMBER").Misses text grammar.scope place := by
  have hnext : place.Sees text ([] ++ '\x7d' :: rest) := hsees
  obtain ⟨blank, hblank⟩ := blanks_matches grammar.scope hnext (List.forall_mem_nil _) (by
    rintro c ⟨⟩
    decide)
  apply named_misses rule_member
  apply labelled_misses
  refine misses_of_row member_form (rowMisses_of_rest hblank (rowMisses_of_first ?_))
  apply string_misses hsees
  rintro c ⟨⟩
  decide

section Items

variable {item : Pattern} {front : List Value} {values : List Value} {count : Nat}

/-- An item is taken with any blanks in front of its core, if it may end before what comes
next. -/
def ItemAt (text : String) (item : Pattern) (value : Value) (run : List Char) : Prop :=
  ∃ before core, run = before ++ core ∧ Blank before ∧ Begins core ∧
    ∀ lead after place, Blank lead → Follows after →
      place.Sees text (lead ++ (core ++ after)) →
      item.Matches text grammar.scope place
        ⟨value, place.past (lead ++ core), grammar.scope⟩

/-- Items are taken one after the other with any blanks in front of the first. -/
def ItemsAt (text : String) (item : Pattern) (values : List Value) (run : List Char) : Prop :=
  ∃ before core, run = before ++ core ∧ Blank before ∧ Begins core ∧
    ∀ count lead after place, Blank lead → Closes after →
      place.Sees text (dueComma count ++ (lead ++ (core ++ after))) →
      Series text item (some (literal ",")) none count grammar.scope place values
        (place.past (dueComma count ++ (lead ++ core))) grammar.scope

theorem row_complete (hsees : place.Sees text (dueComma count ++ after))
    (hitem : item.Matches text grammar.scope (place.past (dueComma count))
      ⟨value, (place.past (dueComma count)).past run, grammar.scope⟩) :
    ∃ front, RowMatches text (dueAfter (some (literal ",")) count ++ [item]) grammar.scope place
      (front ++ [value]) (place.past (dueComma count ++ run)) grammar.scope := by
  rw [Position.past_append]
  cases count with
  | zero => exact ⟨[], rowMatches_first_iff.mpr ⟨rfl, hitem⟩⟩
  | succ count =>
      have hcomma : place.Sees text (",".toList ++ after) := hsees
      obtain ⟨due, hdue⟩ := literal_matches grammar.scope hcomma
      exact ⟨[due], rowMatches_later_iff.mpr ⟨_, hdue, rfl, hitem⟩⟩

/-- No further item comes where the items end. -/
theorem series_closes (hsees : place.Sees text after) (hafter : Closes after) :
    Series text item (some (literal ",")) none (count + 1) scope place [] place scope := by
  refine .missed not_fullAt_none (rowMisses_later_of_separator ?_)
  have hcomma : ",".toList.head? = some ',' := rfl
  refine literal_misses_of_head hsees hcomma fun c hc => ?_
  rcases hafter c hc with rfl | rfl <;> decide

theorem offset_past_ne {core : List Char} (hcore : Begins core) (gap lead : List Char) :
    (place.past (gap ++ (lead ++ core))).offset ≠ place.offset :=
  Position.offset_past_ne place (by simp [hcore.ne_nil])

theorem items_one (hitem : ItemAt text item value run) : ItemsAt text item [value] run := by
  obtain ⟨before, core, rfl, hbefore, hcore, htaken⟩ := hitem
  refine ⟨before, core, rfl, hbefore, hcore, ?_⟩
  intro count lead after place hlead hafter hsees
  obtain ⟨front, hrow⟩ := row_complete hsees (htaken _ _ _ hlead hafter.follows hsees.past)
  refine .moved not_fullAt_none hrow (offset_past_ne hcore _ _) (series_closes ?_ hafter)
  rw [Position.past_append]
  rw [← List.append_assoc lead] at hsees
  exact hsees.past.past

theorem items_more {further : List Char} (hitem : ItemAt text item value run)
    (hitems : ItemsAt text item values further) :
    ItemsAt text item (value :: values) (run ++ (',' :: further)) := by
  obtain ⟨before, core, rfl, hbefore, hcore, htaken⟩ := hitem
  obtain ⟨gap, others, rfl, hgap, -, hothers⟩ := hitems
  refine ⟨before, core ++ (',' :: (gap ++ others)), List.append_assoc _ _ _, hbefore,
    hcore.append _, ?_⟩
  intro count lead after place hlead hafter hsees
  have hseen : place.Sees text (dueComma count ++
      (lead ++ (core ++ (dueComma (count + 1) ++ (gap ++ (others ++ after)))))) := by
    simpa [dueComma] using hsees
  have hcomma : Follows (dueComma (count + 1) ++ (gap ++ (others ++ after))) := by
    rintro c ⟨⟩
    exact .inl rfl
  obtain ⟨front, hrow⟩ := row_complete hseen (htaken _ _ _ hlead hcomma hseen.past)
  have hrest := hothers (count + 1) gap after (place.past (dueComma count ++ (lead ++ core)))
    hgap hafter (by
      rw [Position.past_append, Position.past_append]
      exact hseen.past.past.past)
  refine .moved not_fullAt_none hrow (offset_past_ne hcore _ _) ?_
  rw [← Position.past_append] at hrest
  have hrun : dueComma count ++ (lead ++ core) ++ (dueComma (count + 1) ++ (gap ++ others)) =
      dueComma count ++ (lead ++ (core ++ (',' :: (gap ++ others)))) := by
    simp [dueComma]
  rwa [hrun] at hrest

end Items

/-- A value is taken where it stands, if no numeral goes on after it. -/
def ValueAt (text : String) (value : Value) (run : List Char) : Prop :=
  Begins run ∧ ∀ after place, EndsNumeral after → place.Sees text (run ++ after) →
    valueRule.Matches text grammar.scope place ⟨value, place.past run, grammar.scope⟩

/-- What is matched where a phrase stands. -/
def PhraseAt (text : String) : Phrase → List Char → Prop
  | .value value => ValueAt text value
  | .element value => ItemAt text (named "ELEMENT") value
  | .elements values => ItemsAt text (named "ELEMENT") values
  | .member key value => ItemAt text (named "MEMBER") (.list [.text key, value])
  | .members entries => fun run =>
      ∃ members, members.map memberEntry = entries ∧ ItemsAt text (named "MEMBER") members run

theorem element_complete {before run after : List Char} (hbefore : Blank before)
    (hvalue : ValueAt text value run) (hafter : Blank after) :
    ItemAt text (named "ELEMENT") value (before ++ (run ++ after)) := by
  obtain ⟨hrun, htaken⟩ := hvalue
  refine ⟨before, run ++ after, rfl, hbefore, hrun.append after, ?_⟩
  intro lead rest place hlead hrest hsees
  rw [List.append_assoc] at hsees
  obtain ⟨first, hfirst⟩ := blanks_matches grammar.scope hsees hlead (hrun.unblank _)
  have hmiddle : (named "VALUE").Matches text grammar.scope (place.past lead)
      ⟨value, (place.past lead).past run, grammar.scope⟩ :=
    (matches_rule_iff rule_value).mpr
      ⟨grammar.scope, htaken _ _ (hrest.endsNumeral hafter) hsees.past, rfl⟩
  obtain ⟨final, hfinal⟩ := blanks_matches grammar.scope hsees.past.past hafter hrest.unblank
  refine (matches_rule_iff rule_element).mpr ⟨grammar.scope, ?_, rfl⟩
  rw [Position.past_append, Position.past_append]
  exact matches_of_row element_form (.cons hfirst (.cons hmiddle (.single hfinal))) rfl

theorem member_complete {before key between content : List Char} (hbefore : Blank before)
    (hkey : Body key content) (hbetween : Blank between)
    (helement : ItemAt text (named "ELEMENT") value run) :
    ItemAt text (named "MEMBER") (.list [.text (String.ofList content), value])
      (before ++ ('"' :: (key ++ ('"' :: (between ++ (':' :: run)))))) := by
  obtain ⟨gap, core, rfl, hgap, -, htaken⟩ := helement
  have hquote : Begins ('"' :: (key ++ ('"' :: (between ++ (':' :: (gap ++ core)))))) :=
    ⟨'"', _, rfl, by decide⟩
  refine ⟨before, _, rfl, hbefore, hquote, ?_⟩
  intro lead rest place hlead hrest hsees
  have hcore : lead ++ ('"' :: (key ++ ('"' :: (between ++ (':' :: (gap ++ core)))))) =
      lead ++ (('"' :: (key ++ ['"'])) ++ (between ++ (":".toList ++ (gap ++ core)))) := by
    simp
  have hseen : place.Sees text (lead ++ (('"' :: (key ++ ['"'])) ++ (between ++ (":".toList ++
      (gap ++ (core ++ rest)))))) := by
    simpa using hsees
  obtain ⟨first, hfirst⟩ := blanks_matches grammar.scope hsees hlead (hquote.unblank _)
  have hopened : (place.past lead).Sees text ('"' :: (key ++ ('"' :: (between ++
      (":".toList ++ (gap ++ (core ++ rest))))))) := by
    simpa using hseen.past
  have hname := string_value hkey hopened
  obtain ⟨middle, hmiddle⟩ := blanks_matches grammar.scope hseen.past.past hbetween (by
    rintro c ⟨⟩
    decide)
  obtain ⟨colon, hcolon⟩ := literal_matches grammar.scope hseen.past.past.past
  have hfinal := htaken gap rest _ hgap hrest hseen.past.past.past.past
  refine (matches_rule_iff rule_member).mpr ⟨grammar.scope, ?_, rfl⟩
  rw [hcore, Position.past_append, Position.past_append, Position.past_append,
    Position.past_append]
  exact matches_of_row member_form (.cons hfirst (.cons hname (.cons hmiddle
    (.cons (matches_demand_iff.mpr hcolon) (.single (matches_demand_iff.mpr hfinal)))))) rfl

section Brackets

variable {gap : List Char} {values : List Value}

theorem array_value {success : Match} (hsees : place.Sees text ('[' :: rest))
    (harray : array.Matches text scope place success) :
    valueRule.Matches text scope place success := by
  have hobject : object.Misses text scope place := by
    apply container_misses object_container rfl hsees
    rintro c ⟨⟩
    decide
  exact matches_ofForm_iff.mpr (Form.matches_choice_cons_iff.mpr (.inr ⟨hobject,
    Form.matches_choice_cons_iff.mpr (.inl harray)⟩))

theorem object_value {success : Match} (hobject : object.Matches text scope place success) :
    valueRule.Matches text scope place success :=
  matches_ofForm_iff.mpr (Form.matches_choice_cons_iff.mpr (.inl hobject))

theorem begins_bracket (rest : List Char) : Begins ('[' :: rest) :=
  ⟨'[', rest, rfl, by decide⟩

theorem begins_brace (rest : List Char) : Begins ('\x7b' :: rest) :=
  ⟨'\x7b', rest, rfl, by decide⟩

/-- The blanks that the first item begins with are taken by the container. -/
theorem items_complete {pattern item : Pattern} {opening closing : String}
    (hcontainer : IsContainer pattern item opening closing)
    (hitems : ItemsAt text item values run)
    (hsees : place.Sees text (opening.toList ++ (gap ++ (run ++ (closing.toList ++ after)))))
    (hgap : Blank gap) (hclosing : Closes (closing.toList ++ after)) :
    pattern.Matches text grammar.scope place
      ⟨pattern.finishValue (.list values),
        place.past (opening.toList ++ (gap ++ (run ++ closing.toList))), grammar.scope⟩ := by
  obtain ⟨before, core, rfl, hbefore, hcore, htaken⟩ := hitems
  have hblank : Blank (gap ++ before) := fun c hc =>
    (List.mem_append.mp hc).elim (hgap c) (hbefore c)
  have hregroup (last : List Char) :
      gap ++ (before ++ core ++ last) = gap ++ before ++ (core ++ last) := by
    simp only [List.append_assoc]
  rw [hregroup] at hsees ⊢
  have hseries := htaken 0 [] _ _ (List.forall_mem_nil _) hclosing hsees.past.past
  exact container_complete hcontainer hsees hblank (hcore.unblank _) hseries

theorem emptyArray_complete (hgap : Blank gap) :
    ValueAt text (.list []) ('[' :: (gap ++ [']'])) := by
  refine ⟨begins_bracket _, fun after place _ hsees => array_value hsees ?_⟩
  have hseen : place.Sees text ("[".toList ++ (gap ++ ("]".toList ++ after))) := by
    simpa using hsees
  exact empty_complete array_container hseen hgap ⟨']', [], rfl, by decide⟩
    (element_misses hseen.past.past)

theorem array_complete (hgap : Blank gap) (hitems : ItemsAt text (named "ELEMENT") values run) :
    ValueAt text (.list values) ('[' :: (gap ++ (run ++ [']']))) := by
  refine ⟨begins_bracket _, fun after place _ hsees => array_value hsees ?_⟩
  have hseen : place.Sees text ("[".toList ++ (gap ++ (run ++ ("]".toList ++ after)))) := by
    simpa using hsees
  exact items_complete array_container hitems hseen hgap (by
    rintro c ⟨⟩
    exact .inl rfl)

theorem emptyObject_complete (hgap : Blank gap) :
    ValueAt text (.map []) ('\x7b' :: (gap ++ ['\x7d'])) := by
  refine ⟨begins_brace _, fun after place _ hsees => object_value ?_⟩
  have hseen : place.Sees text ("\x7b".toList ++ (gap ++ ("\x7d".toList ++ after))) := by
    simpa using hsees
  exact empty_complete object_container hseen hgap ⟨'\x7d', [], rfl, by decide⟩
    (member_misses hseen.past.past)

theorem object_complete (hgap : Blank gap) (hitems : ItemsAt text (named "MEMBER") values run) :
    ValueAt text (.map (values.map memberEntry)) ('\x7b' :: (gap ++ (run ++ ['\x7d']))) := by
  refine ⟨begins_brace _, fun after place _ hsees => object_value ?_⟩
  have hseen : place.Sees text ("\x7b".toList ++ (gap ++ (run ++ ("\x7d".toList ++ after)))) := by
    simpa using hsees
  exact items_complete object_container hitems hseen hgap (by
    rintro c ⟨⟩
    exact .inr rfl)

end Brackets

theorem numeral_complete (hnumeral : Numeral run) : ValueAt text (numberValue run) run := by
  obtain ⟨c, more, rfl, hc⟩ := hnumeral.head
  refine ⟨⟨c, more, rfl, ?_⟩, fun after place hafter hsees => number_value hnumeral hsees hafter⟩
  rintro (rfl | rfl | rfl | rfl) <;> exact head_of_numeral hc (by decide)

theorem string_complete {content : List Char} (hbody : Body run content) :
    ValueAt text (.text (String.ofList content)) ('"' :: (run ++ ['"'])) := by
  refine ⟨⟨'"', _, rfl, by decide⟩, fun after place _ hsees => ?_⟩
  have hseen : place.Sees text ('"' :: (run ++ ('"' :: after))) := by
    simpa using hsees
  apply value_of_others hsees
  · rintro c ⟨⟩
    decide
  · exact Form.matches_choice_cons_iff.mpr (.inl (string_value hbody hseen))

/-- Whatever the grammar produces is matched where it stands. -/
theorem produces_complete {phrase : Phrase} (hproduces : Produces phrase run) :
    PhraseAt text phrase run := by
  induction hproduces with
  | null => exact ⟨⟨'n', _, rfl, by decide⟩, fun _ _ _ hsees => null_value hsees⟩
  | true => exact ⟨⟨'t', _, rfl, by decide⟩, fun _ _ _ hsees => true_value hsees⟩
  | false => exact ⟨⟨'f', _, rfl, by decide⟩, fun _ _ _ hsees => false_value hsees⟩
  | number hnumeral => exact numeral_complete hnumeral
  | string hbody => exact string_complete hbody
  | emptyArray hgap => exact emptyArray_complete hgap
  | array hgap helements ih => exact array_complete hgap ih
  | emptyObject hgap => exact emptyObject_complete hgap
  | object hgap hmembers ih =>
      obtain ⟨members, rfl, hitems⟩ := ih
      exact object_complete hgap hitems
  | element hbefore hvalue hafter ih => exact element_complete hbefore ih hafter
  | oneElement honly ih => exact items_one ih
  | moreElements hfirst hrest ihFirst ihRest => exact items_more ihFirst ihRest
  | member hbefore hkey hbetween helement ih => exact member_complete hbefore hkey hbetween ih
  | @oneMember _ key value honly ih => exact ⟨[.list [.text key, value]], rfl, items_one ih⟩
  | @moreMembers _ _ key value _ hfirst hrest ihFirst ihRest =>
      obtain ⟨members, rfl, hitems⟩ := ihRest
      exact ⟨.list [.text key, value] :: members, rfl, items_more ihFirst hitems⟩

end ScopedGrammar.Json
