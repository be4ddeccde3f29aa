/-
# Blanks, names, numbers and strings

What the rules for blanks and for the leaves of expressions match. The rules are met in many
scopes: captures bind further names, and between brackets blanks are what they are on
several lines. In all of these scopes the other names mean what they mean in the grammar,
and that is all that is asked of a scope here.

A leaf is matched as a whole wherever what follows does not go on with it, and what its
match yields is its tree on the line where it stands.
-/

import ScopedGrammar.Proofs.Croco.Expressions
import ScopedGrammar.Proofs.Decimal.Integers
import ScopedGrammar.Proofs.Match.Copying
import ScopedGrammar.Proofs.Scope.Counters
import Mathlib

namespace ScopedGrammar.Croco

open Pattern

variable {text : String} {multiline : Bool} {scope inner : Scope} {place : Position}
  {success : Match} {run rest after : List Char} {name : String} {rule : Pattern}

/-- The names of the rules that expressions are made of, apart from blanks. -/
def expressionNames : List String :=
  ["MULTILINE_SPACES", "COMMENT", "NUMBER", "STRING", "IDENTIFIER", "PRIMARY", "POSTFIX",
    "EXPONENT", "MULTIPLICATION", "ADDITION", "EXPRESSION"]

/-- What blanks are, on one line or between brackets. -/
def blanksRule (multiline : Bool) : Pattern :=
  if multiline then named "MULTILINE_SPACES" else spaces.labelled "SPACES"

/-- Whether expressions mean in a scope what they mean in the grammar. -/
structure Ready (multiline : Bool) (scope : Scope) : Prop where
  rules : ∀ name ∈ expressionNames, scope.rule? name = grammar.scope.rule? name
  blanks : scope.rule? "SPACES" = some (blanksRule multiline)

/-- Whether a name means a rule that expressions are made of. -/
def IsRule (name : String) (rule : Pattern) : Prop :=
  name ∈ expressionNames ∧ grammar.scope.rule? name = some (rule.labelled name)

namespace Ready

theorem rule?_eq (hready : Ready multiline scope) (hrule : IsRule name rule) :
    scope.rule? name = some (rule.labelled name) :=
  (hready.rules name hrule.1).trans hrule.2

/-- A rule is matched under its name, and leaves the scope. -/
theorem matches_rule {value : Value} {stop : Position} (hready : Ready multiline scope)
    (hrule : IsRule name rule) (hmatches : rule.Matches text scope place ⟨value, stop, inner⟩) :
    (named name).Matches text scope place ⟨value, stop, scope⟩ :=
  (matches_named_iff (hready.rule?_eq hrule)).mpr
    ⟨inner, (matches_labelled_iff name).mpr hmatches, rfl⟩

theorem misses_rule (hready : Ready multiline scope) (hrule : IsRule name rule)
    (hmisses : rule.Misses text scope place) : (named name).Misses text scope place :=
  named_misses (hready.rule?_eq hrule) (labelled_misses name hmisses)

/-- A capture under a name of its own leaves expressions what they are. -/
theorem bind (hready : Ready multiline scope) {captured : String}
    (hcaptured : captured ∉ "SPACES" :: expressionNames) (content : Value) :
    Ready multiline (scope.bind captured (.value content)) := by
  rw [List.mem_cons, not_or] at hcaptured
  constructor
  · intro name hname
    have hother : captured ≠ name := fun hsame => hcaptured.2 (hsame ▸ hname)
    exact (scope.rule?_bind_of_ne _ hother).trans (hready.rules name hname)
  · exact (scope.rule?_bind_of_ne _ hcaptured.1).trans hready.blanks

/-- Between brackets, blanks go over several lines. -/
theorem bracketed (hready : Ready multiline scope) :
    Ready true (scope.push [("SPACES", .rule (named "MULTILINE_SPACES"))]) := by
  constructor
  · intro name hname
    have hother : "SPACES" ≠ name := fun hsame => absurd (hsame ▸ hname) (by decide)
    exact (scope.rule?_bind_of_ne _ hother).trans (hready.rules name hname)
  · rfl

end Ready

/-- Whether blanks end before the next character, if there is one. -/
def Unblank (multiline : Bool) (after : List Char) : Prop :=
  ∀ c ∈ after.head?, c ≠ ' ' ∧ c ≠ '\t' ∧ c ≠ '\\' ∧
    (multiline = true → c ≠ '\r' ∧ c ≠ '\n' ∧ c ≠ '#')

/-- The characters that blanks of some kind begin with. -/
def blankStarts : List Char :=
  [' ', '\t', '\\', '\r', '\n', '#']

theorem unblank_of_head (hafter : ∀ c ∈ after.head?, c ∉ blankStarts) (multiline : Bool) :
    Unblank multiline after := by
  intro c hc
  have hnone := hafter c hc
  simp only [blankStarts, List.mem_cons, List.not_mem_nil, or_false, not_or] at hnone
  exact ⟨hnone.1, hnone.2.1, hnone.2.2.1, fun _ => hnone.2.2.2⟩

theorem multilineSpaces_isRule : IsRule "MULTILINE_SPACES" multilineSpaces :=
  ⟨by decide, rfl⟩

theorem comment_isRule : IsRule "COMMENT" comment :=
  ⟨by decide, rfl⟩

theorem comment_misses (hsees : place.Sees text rest) (hrest : ∀ c ∈ rest.head?, c ≠ '#') :
    comment.Misses text scope place :=
  sequence_misses (rowMisses_of_first (literal_misses_of_head hsees rfl hrest))

/-- Where a repeated choice begins with a class that has the blanks, it passes over them, if
no option goes on after them. -/
theorem blankChoice_matches {members : String} {others : List Pattern}
    (hmembers : ∀ c, c = ' ' ∨ c = '\t' → inClass members.toList false c = true)
    (hsees : place.Sees text (run ++ after)) (hrun : Blank run)
    (hclass : ∀ c ∈ after.head?, inClass members.toList false c = false)
    (hothers : ∀ other ∈ others, other.Misses text scope (place.past run)) :
    ∃ taken, (choice (oneOf members :: others)).many.Matches text scope place
      ⟨taken, place.past run, scope⟩ := by
  obtain ⟨taken, -, hmatched⟩ :
      (choice (oneOf members :: others)).many.CopiesAt text scope place run := by
    apply copiesAt_many hsees
    · intro c hc here rest hhere
      obtain ⟨value, hvalue, hmatched⟩ : (oneOf members).CopiesAt text scope here [c] :=
        copiesAt_class hhere (hmembers c (hrun c hc))
      exact ⟨value, hvalue, matches_ofForm_iff.mpr
        (Form.matches_choice_cons_iff.mpr (.inl hmatched))⟩
    · apply misses_of_form
      exact Form.choice_cons_misses (class_misses hsees.past hclass) (Form.choice_misses hothers)
  exact ⟨taken, hmatched⟩

/-- Blanks are passed over, in every scope that is ready for expressions. -/
theorem blanks_match (hready : Ready multiline scope) (hsees : place.Sees text (run ++ after))
    (hrun : Blank run) (hafter : Unblank multiline after) :
    ∃ taken, (named "SPACES").Matches text scope place ⟨taken, place.past run, scope⟩ := by
  have hnext : place.past run |>.Sees text after := hsees.past
  have hcontinued : (literal "\\\n").Misses text scope (place.past run) :=
    literal_misses_of_head hnext rfl fun c hc => (hafter c hc).2.2.1
  have hblanks := hready.blanks
  cases multiline with
  | false =>
      have htaken : ∃ taken, spaces.Matches text scope place ⟨taken, place.past run, scope⟩ :=
        blankChoice_matches (by simp [inClass]) hsees hrun
          (fun c hc => by simp [inClass, hafter c hc]) (by simpa using hcontinued)
      obtain ⟨taken, hmatched⟩ := htaken
      exact ⟨taken, (matches_named_iff hblanks).mpr
        ⟨scope, (matches_labelled_iff "SPACES").mpr hmatched, rfl⟩⟩
  | true =>
      have hcomment : (named "COMMENT").Misses text scope (place.past run) :=
        hready.misses_rule comment_isRule
          (comment_misses hnext fun c hc => ((hafter c hc).2.2.2 rfl).2.2)
      have htaken : ∃ taken,
          multilineSpaces.Matches text scope place ⟨taken, place.past run, scope⟩ :=
        blankChoice_matches (by rintro c (rfl | rfl) <;> decide) hsees hrun
          (fun c hc => by simp [inClass, hafter c hc]) (by simpa using ⟨hcontinued, hcomment⟩)
      obtain ⟨taken, hmatched⟩ := htaken
      exact ⟨taken, (matches_named_iff hblanks).mpr
        ⟨scope, hready.matches_rule multilineSpaces_isRule hmatched, rfl⟩⟩

/-- Where no blanks are next, none are taken. -/
theorem noBlanks_match (hready : Ready multiline scope) (hsees : place.Sees text after)
    (hafter : Unblank multiline after) :
    ∃ taken, (named "SPACES").Matches text scope place ⟨taken, place, scope⟩ := by
  have hnone : place.Sees text ([] ++ after) := hsees
  exact blanks_match hready hnone (List.forall_mem_nil _) hafter

/-- Whether no name and no number goes on with the next character, if there is one. -/
def EndsWord (after : List Char) : Prop :=
  ∀ c ∈ after.head?, isNameChar c = false

/-- The class of the characters that begin names. -/
theorem inClass_nameStart (c : Char) : inClass nameStart.toList false c = isNameStart c := by
  have hall : nameStart.toList.all isNameStart = true := by decide
  have hletters : ∀ n < 128, isNameStart (Char.ofNat n) = true →
      Char.ofNat n ∈ nameStart.toList := by decide
  rw [Bool.eq_iff_iff]
  simp only [inClass, Bool.bne_false, List.contains_iff_mem]
  refine ⟨List.all_eq_true.mp hall c, fun hc => ?_⟩
  have hsmall : c.toNat < 128 := by
    simp only [isNameStart, Char.isAlpha, Char.isUpper, Char.isLower, Bool.or_eq_true,
      Bool.and_eq_true, decide_eq_true_eq, beq_iff_eq, UInt32.le_iff_toNat_le] at hc
    rcases hc with (⟨-, hc⟩ | ⟨-, hc⟩) | rfl
    · exact Nat.lt_of_le_of_lt hc (by decide)
    · exact Nat.lt_of_le_of_lt hc (by decide)
    · decide
  rw [← Char.ofNat_toNat c] at hc ⊢
  exact hletters _ hsmall hc

/-- The class of the characters that names go on with. -/
theorem inClass_nameChar (c : Char) :
    inClass (nameStart ++ digits).toList false c = isNameChar c := by
  rw [isNameChar, ← inClass_nameStart, ← inClass_digit]
  simp [inClass, digits]

/-- Whether the text goes on with none of some words. -/
def Lacks (words : List String) (rest : List Char) : Prop :=
  ∀ word ∈ words, ∀ after, rest = word.toList ++ after → ∃ c ∈ after.head?, isNameChar c = true

/-- No word is next where another character is than it begins with. -/
theorem lacks_of_head {words : List String} {c : Char} (hrest : c ∈ rest.head?)
    (hwords : ∀ word ∈ words, ∃ d ∈ word.toList.head?, d ≠ c) : Lacks words rest := by
  rintro word hword after rfl
  obtain ⟨d, hd, hother⟩ := hwords word hword
  rw [List.head?_append, hd] at hrest
  cases hrest
  exact absurd rfl hother

theorem Lacks.mono {words fewer : List String} (hrest : Lacks words rest)
    (hfewer : fewer ⊆ words) : Lacks fewer rest :=
  fun word hword => hrest word (hfewer hword)

/-- Whether the text goes on with no reserved word. -/
def Unreserved (rest : List Char) : Prop :=
  Lacks keywords rest

theorem isNameChar_of_mem_keyword {word : String} (hword : word ∈ keywords) :
    ∀ c ∈ word.toList, isNameChar c = true := by
  have hall : (keywords.all fun word => word.toList.all isNameChar) = true := by decide
  exact List.all_eq_true.mp (List.all_eq_true.mp hall word hword)

theorem exists_head_of_keyword {word : String} (hword : word ∈ keywords) :
    ∃ c ∈ word.toList.head?, isNameStart c = true := by
  have hall : (keywords.all fun word => word.toList.head?.any isNameStart) = true := by decide
  exact Option.any_eq_true _ _ |>.mp (List.all_eq_true.mp hall word hword)

/-- A reserved word begins with a letter. -/
theorem unreserved_of_head (hrest : ∀ c ∈ rest.head?, isNameStart c = false) :
    Unreserved rest := by
  rintro word hword after rfl
  obtain ⟨c, hc, hstart⟩ := exists_head_of_keyword hword
  rw [List.head?_append, hc] at hrest
  rw [hrest c rfl] at hstart
  cases hstart

theorem Name.isNameChar_of_mem (word : Name) {c : Char} (hc : c ∈ word.text) :
    isNameChar c = true := by
  rcases List.mem_cons.mp hc with rfl | hmore
  · rw [isNameChar, word.starts, Bool.true_or]
  · exact word.goesOn c hmore

/-- A name is no reserved word, and begins none if it ends where it ends. -/
theorem Name.unreserved (word : Name) (hafter : EndsWord after) :
    Unreserved (word.text ++ after) := by
  intro reserved hreserved further hsplit
  have hother : word.text ≠ reserved.toList := by
    intro hsame
    apply word.free
    rw [show word.first :: word.more = reserved.toList from hsame, String.ofList_toList]
    exact hreserved
  rcases List.append_eq_append_iff.mp hsplit with ⟨more, hmore, rfl⟩ | ⟨more, hmore, rfl⟩
  · cases more with
    | nil => exact absurd (hmore.trans (List.append_nil _)).symm hother
    | cons c more =>
        have hc := isNameChar_of_mem_keyword hreserved c (by simp [hmore])
        rw [hafter c rfl] at hc
        cases hc
  · cases more with
    | nil => exact absurd (hmore.trans (List.append_nil _)) hother
    | cons c more => exact ⟨c, rfl, word.isNameChar_of_mem (by simp [hmore])⟩

theorem keyword_form (word : String) :
    (keyword word).form = .sequence [literal word, nameChar.notAhead] (some [0]) :=
  rfl

/-- A reserved word is matched where no name goes on with it. -/
theorem keyword_matches (scope : Scope) {word : String}
    (hsees : place.Sees text (word.toList ++ after)) (hafter : EndsWord after) :
    (keyword word).Matches text scope place
      ⟨.token ⟨word, place, place.past word.toList⟩, place.past word.toList, scope⟩ := by
  have hword : (literal word).Matches text scope place
      ⟨.token ⟨word, place, place.past word.toList⟩, place.past word.toList, scope⟩ :=
    (matches_literal_iff hsees).mpr ⟨after, rfl, rfl⟩
  have hends : nameChar.Misses text scope (place.past word.toList) :=
    class_misses hsees.past fun c hc => (inClass_nameChar c).trans (hafter c hc)
  exact matches_of_row (keyword_form word) (.cons hword (.single (notAhead_matches hends))) rfl

/-- A reserved word is missed where a name goes on after it. -/
theorem keyword_misses {word : String} (hsees : place.Sees text rest)
    (hrest : ∀ after, rest = word.toList ++ after → ∃ c ∈ after.head?, isNameChar c = true) :
    (keyword word).Misses text scope place := by
  apply misses_of_row (keyword_form word)
  by_cases hprefix : word.toList <+: rest
  · obtain ⟨after, rfl⟩ := hprefix
    obtain ⟨c, hc, hname⟩ := hrest after rfl
    obtain ⟨taken, htaken⟩ := literal_matches scope hsees
    obtain ⟨further, rfl⟩ : ∃ further, after = c :: further := List.head?_eq_some_iff.mp hc
    obtain ⟨piece, -, hpiece⟩ : nameChar.CopiesAt text scope (place.past word.toList) [c] :=
      copiesAt_class hsees.past ((inClass_nameChar c).trans hname)
    exact rowMisses_of_rest htaken (rowMisses_of_first (notAhead_misses hpiece))
  · exact rowMisses_of_first (literal_misses hsees hprefix)

theorem Unreserved.keywords_miss (hsees : place.Sees text rest) (hrest : Unreserved rest) :
    ∀ option ∈ keywords.map keyword, option.Misses text scope place := by
  rw [List.forall_mem_map]
  exact fun word hword => keyword_misses hsees (hrest word hword)

theorem identifier_isRule : IsRule "IDENTIFIER" identifier :=
  ⟨by decide, rfl⟩

theorem identifier_form :
    identifier.form = .sequence
      [(choice (keywords.map keyword)).notAhead, oneOf nameStart, nameChar.many]
      (some [1, 2]) :=
  rfl

theorem identifier_finishValue (raw : Value) : identifier.finishValue raw = nameValue raw :=
  rfl

/-- Where no reserved word is next, nothing is taken to see that. -/
theorem noKeyword_matches (scope : Scope) (hsees : place.Sees text rest)
    (hrest : Unreserved rest) :
    (choice (keywords.map keyword)).notAhead.Matches text scope place
      ⟨.token (Token.nothingAt place), place, scope⟩ :=
  notAhead_matches (choice_misses (hrest.keywords_miss hsees))

/-- A list tells the line of the token that it begins with. -/
theorem lineOrZero_list_token (piece : Token) (others : List Value) :
    (Value.list (.token piece :: others)).lineOrZero = piece.start.line := by
  simp [Value.lineOrZero, Value.line?, Value.lineOfList?]

/-- What the characters of a name are taken to be is the node of the name. -/
theorem identifier_finishValue_charTokens (place : Position) (c : Char) (run : List Char) :
    identifier.finishValue (.list [.token ⟨String.ofList [c], place, place.step c⟩,
        .list (charTokens (place.past [c]) run)]) =
      .node "name" place.line [.text (String.ofList (c :: run))] := by
  have hspelled : (Value.list [.token ⟨String.ofList [c], place, place.step c⟩,
      .list (charTokens (place.past [c]) run)]).spelling = String.ofList (c :: run) := by
    rw [← String.toList_inj, Value.toList_spelling_list]
    simp [Value.toList_spelling_token, spelling_charTokens]
  rw [identifier_finishValue, nameValue, nodeFrom, lineOrZero_list_token, hspelled]

theorem identifier_matches (scope : Scope) (word : Name)
    (hsees : place.Sees text (word.text ++ after)) (hafter : EndsWord after) :
    identifier.Matches text scope place
      ⟨(Expression.name word).node place.line, place.past word.text, scope⟩ := by
  have hfirst : (oneOf nameStart).Matches text scope place
      ⟨.token ⟨String.ofList [word.first], place, place.step word.first⟩,
        place.step word.first, scope⟩ :=
    matches_ofForm_iff.mpr ((Form.matches_charClass_iff hsees).mpr ⟨word.first, _, rfl,
      (inClass_nameStart word.first).trans word.starts, rfl⟩)
  have hseen : place.Sees text ([word.first] ++ (word.more ++ after)) := hsees
  have hmore : nameChar.many.Matches text scope (place.past [word.first])
      ⟨.list (charTokens (place.past [word.first]) word.more),
        (place.past [word.first]).past word.more, scope⟩ := by
    apply run_matches hseen.past (Match.resolveBounds_none (Nat.zero_le _)) _ _ (Nat.zero_le _)
    · exact fun c hc => (inClass_nameChar c).trans (word.goesOn c hc)
    · exact fun c hc => (inClass_nameChar c).trans (hafter c hc)
  have hmatches := matches_of_row identifier_form
    (.cons (noKeyword_matches scope hsees (word.unreserved hafter))
      (.cons hfirst (.single hmore))) rfl
  have hvalue := identifier_finishValue_charTokens place word.first word.more
  rw [Expression.node, Name.text, ← hvalue]
  exact hmatches

theorem identifier_misses (hsees : place.Sees text rest)
    (hrest : ∀ c ∈ rest.head?, isNameStart c = false) :
    identifier.Misses text scope place := by
  apply misses_of_row identifier_form
  apply rowMisses_of_rest (noKeyword_matches scope hsees (unreserved_of_head hrest))
  apply rowMisses_of_first
  exact class_misses hsees fun c hc => (inClass_nameStart c).trans (hrest c hc)

theorem number_isRule : IsRule "NUMBER" (float.orElse int) :=
  ⟨by decide, rfl⟩

theorem float_form :
    float.form = .choice
      [sequence [(oneOf digits).atLeast 1, literal ".", (oneOf digits).many],
        sequence [literal ".", (oneOf digits).atLeast 1]] :=
  rfl

theorem Numeral.text_eq (numeral : Numeral) :
    numeral.text = Nat.toDigits 10 numeral.number.toInt.toNat := by
  rw [text, Value.showInt, Decimal.toList_toString, if_pos numeral.unsigned]

theorem Numeral.isDigit_of_mem (numeral : Numeral) {c : Char} (hc : c ∈ numeral.text) :
    Decimal.isDigit c = true :=
  Decimal.isDigit_of_mem_toDigits (numeral.text_eq ▸ hc)

theorem Numeral.text_ne_nil (numeral : Numeral) : numeral.text ≠ [] := by
  rw [numeral.text_eq]
  exact Nat.toDigits_ne_nil

theorem Numeral.readWord?_text (numeral : Numeral) :
    Decimal.readWord? numeral.text = some numeral.number := by
  rw [text, Value.showInt, Decimal.readWord?_toString (Int64.le_toInt _)
    (Int.le_of_lt_add_one (Int64.toInt_lt _)), Int64.ofInt_toInt]

theorem digits_match (scope : Scope) (hrun : ∀ c ∈ run, Decimal.isDigit c = true)
    (hsome : run ≠ []) (hsees : place.Sees text (run ++ after))
    (hafter : ∀ c ∈ after.head?, Decimal.isDigit c = false) :
    ((oneOf digits).atLeast 1).Matches text scope place
      ⟨.list (charTokens place run), place.past run, scope⟩ := by
  apply run_matches hsees (Match.resolveBounds_none (by decide)) _ _
    (List.length_pos_iff.mpr hsome)
  · exact fun c hc => (inClass_digit c).trans (hrun c hc)
  · exact fun c hc => (inClass_digit c).trans (hafter c hc)

theorem digits_miss (hsees : place.Sees text rest)
    (hrest : ∀ c ∈ rest.head?, Decimal.isDigit c = false) :
    ((oneOf digits).atLeast 1).Misses text scope place := by
  apply run_misses_of_head hsees (Match.resolveBounds_none (by decide)) Nat.one_pos
  exact fun c hc => (inClass_digit c).trans (hrest c hc)

theorem float_misses_of_point (hsees : place.Sees text rest)
    (hrest : ∀ c ∈ rest.head?, c ≠ '.')
    (hfirst : RowMisses text [(oneOf digits).atLeast 1, literal ".", (oneOf digits).many]
      scope place) : float.Misses text scope place := by
  apply misses_of_form
  rw [float_form]
  exact Form.choice_cons_misses (sequence_misses hfirst) (Form.choice_cons_misses
    (sequence_misses (rowMisses_of_first (literal_misses_of_head hsees rfl hrest)))
    Form.choice_nil_misses)

/-- Digits are a whole number where neither digits nor a point go on after them. -/
theorem int_matches (scope : Scope) (hrun : ∀ c ∈ run, Decimal.isDigit c = true)
    (hsome : run ≠ []) (hsees : place.Sees text (run ++ after))
    (hafter : ∀ c ∈ after.head?, Decimal.isDigit c = false ∧ c ≠ '.') :
    (float.orElse int).Matches text scope place
      ⟨intValue (.list (charTokens place run)), place.past run, scope⟩ := by
  have hdigits := digits_match scope hrun hsome hsees fun c hc => (hafter c hc).1
  have hfloat : float.Misses text scope place := by
    apply float_misses_of_point hsees
    · obtain ⟨first, more, rfl⟩ := List.exists_cons_of_ne_nil hsome
      rintro c ⟨⟩ rfl
      exact absurd (hrun '.' List.mem_cons_self) (by decide)
    · apply rowMisses_of_rest hdigits
      exact rowMisses_of_first
        (literal_misses_of_head hsees.past rfl fun c hc => (hafter c hc).2)
  have hint : int.Matches text scope place
      ⟨intValue (.list (charTokens place run)), place.past run, scope⟩ :=
    matches_iff.mpr ⟨_, matches_ofForm_iff.mp hdigits, rfl⟩
  have hbefore : ∀ option ∈ [float], option.Misses text scope place := by
    simpa using hfloat
  exact choice_matches hbefore hint

/-- A whole number is matched where neither digits nor a point go on after it. -/
theorem number_matches (scope : Scope) (numeral : Numeral)
    (hsees : place.Sees text (numeral.text ++ after))
    (hafter : ∀ c ∈ after.head?, Decimal.isDigit c = false ∧ c ≠ '.') :
    (float.orElse int).Matches text scope place
      ⟨(Expression.number numeral).node place.line, place.past numeral.text, scope⟩ := by
  obtain ⟨first, more, htext⟩ := List.exists_cons_of_ne_nil numeral.text_ne_nil
  have hvalue : intValue (.list (charTokens place numeral.text)) =
      (Expression.number numeral).node place.line := by
    rw [intValue, spelling_charTokens, numeral.readWord?_text, nodeFrom, htext, charTokens,
      lineOrZero_list_token, Expression.node]
  rw [← hvalue]
  exact int_matches scope (fun c hc => numeral.isDigit_of_mem hc) numeral.text_ne_nil hsees hafter

/-- Where no digits come next, and none behind a point that does, there is no number. -/
theorem number_misses_of_point (hsees : place.Sees text rest)
    (hrest : ∀ c ∈ rest.head?, Decimal.isDigit c = false)
    (hpoint : ∀ more, rest = '.' :: more → ∀ c ∈ more.head?, Decimal.isDigit c = false) :
    (float.orElse int).Misses text scope place := by
  have hdigits : ((oneOf digits).atLeast 1).Misses text scope place := digits_miss hsees hrest
  have hlong : RowMisses text [(oneOf digits).atLeast 1, literal ".", (oneOf digits).many] scope
      place := rowMisses_of_first hdigits
  have hshort : RowMisses text [literal ".", (oneOf digits).atLeast 1] scope place := by
    by_cases hnext : ['.'] <+: rest
    · obtain ⟨more, rfl⟩ := hnext
      have hseen : place.Sees text (".".toList ++ more) := hsees
      obtain ⟨point, htaken⟩ := literal_matches scope hseen
      exact rowMisses_of_rest htaken
        (rowMisses_of_first (digits_miss hseen.past (hpoint more rfl)))
    · exact rowMisses_of_first (literal_misses hsees hnext)
  have hfloat : float.Misses text scope place := by
    apply misses_of_form
    rw [float_form]
    exact Form.choice_cons_misses (sequence_misses hlong)
      (Form.choice_cons_misses (sequence_misses hshort) Form.choice_nil_misses)
  have hint : int.Misses text scope place := map_misses intValue hdigits
  exact misses_of_form (Form.choice_cons_misses hfloat
    (Form.choice_cons_misses hint Form.choice_nil_misses))

theorem number_misses (hsees : place.Sees text rest)
    (hrest : ∀ c ∈ rest.head?, Decimal.isDigit c = false ∧ c ≠ '.') :
    (float.orElse int).Misses text scope place := by
  refine number_misses_of_point hsees (fun c hc => (hrest c hc).1) ?_
  rintro more rfl
  exact absurd rfl (hrest '.' rfl).2

theorem string_isRule : IsRule "STRING" string :=
  ⟨by decide, rfl⟩

/-- The quote before a string. -/
def openingQuote : Pattern :=
  (oneOf "'\"").capture "quote"

theorem string_form :
    string.form = .sequence
      [openingQuote, (named "quote").exclude.many,
        (named "quote").demand "unclosed quote \x7bquote\x7d on line \x7bline\x7d"] none :=
  rfl

theorem string_finishValue (raw : Value) : string.finishValue raw = stringValue raw :=
  rfl

section Strings

variable {quote : Char} {content : List Char}

/-- The quote that a string was opened with. -/
def quoteToken (place : Position) (quote : Char) : Value :=
  .token ⟨String.ofList [quote], place, place.step quote⟩

theorem openingQuote_matches (scope : Scope) (hquote : quote = '\'' ∨ quote = '"')
    (hsees : place.Sees text (quote :: rest)) :
    openingQuote.Matches text scope place
      ⟨quoteToken place quote, place.past [quote],
        scope.bind "quote" (.value (quoteToken place quote))⟩ := by
  have hclass : inClass "'\"".toList false quote = true := by
    rcases hquote with rfl | rfl <;> decide
  have hchar : (oneOf "'\"").Matches text scope place
      ⟨quoteToken place quote, place.past [quote], scope⟩ :=
    matches_ofForm_iff.mpr ((Form.matches_charClass_iff hsees).mpr ⟨_, _, rfl, hclass, rfl⟩)
  exact matches_capture_iff.mpr ⟨_, hchar, rfl⟩

/-- A string takes all characters but the quote that it was opened with. -/
theorem content_copiesAt {start : Position} (hcontent : quote ∉ content)
    (hfits : text.length < offsetBound)
    (hbound : scope.find? "quote" = some (.value (quoteToken start quote)))
    (hsees : place.Sees text (content ++ after))
    (hstop : (named "quote").exclude.Misses text scope (place.past content)) :
    (named "quote").exclude.many.CopiesAt text scope place content := by
  refine copiesAt_many hsees (fun c hc here rest hhere => ?_) hstop
  have hmisses : (literal (String.ofList [quote])).Misses text scope here := by
    have hquote : (String.ofList [quote]).toList.head? = some quote := by
      rw [String.toList_ofList]
      rfl
    apply literal_misses_of_head hhere hquote
    rintro d ⟨⟩ rfl
    exact hcontent hc
  have hword : here.offset + 1 < offsetBound := by
    have hlength := congrArg List.length hhere
    rw [List.length_drop, List.length_cons, String.length_toList] at hlength
    omega
  refine ⟨_, ?_, matches_ofForm_iff.mpr (Form.absence_one_matches
    (named_text_misses hbound rfl hmisses) hhere hword)⟩
  rw [Value.toList_spelling_token, String.toList_ofList]

/-- A string is matched with its quotes, whatever follows. -/
theorem quoted_matches (scope : Scope) (hquote : quote = '\'' ∨ quote = '"')
    (hcontent : quote ∉ content) (hfits : text.length < offsetBound)
    (hsees : place.Sees text (quote :: (content ++ [quote]) ++ after)) :
    string.Matches text scope place
      ⟨.node "string" place.line [.text (String.ofList content)],
        place.past (quote :: (content ++ [quote])),
        scope.bind "quote" (.value (quoteToken place quote))⟩ := by
  have hseen : place.Sees text ([quote] ++ (content ++ ([quote] ++ after))) := by
    simpa using hsees
  have hopening := openingQuote_matches scope hquote hseen
  have hbound : (scope.bind "quote" (.value (quoteToken place quote))).find? "quote" =
      some (.value (quoteToken place quote)) := by
    rw [Scope.find?_bind, if_pos rfl]
  have hlast : ((place.past [quote]).past content).Sees text
      ((String.ofList [quote]).toList ++ after) := by
    rw [String.toList_ofList]
    exact hseen.past.past
  obtain ⟨closing, hliteral⟩ := literal_matches
    (scope.bind "quote" (.value (quoteToken place quote))) hlast
  have hclosing := (matches_named_text_iff hbound rfl).mpr hliteral
  obtain ⟨taken, hspelled, htaken⟩ := content_copiesAt hcontent hfits hbound hseen.past
    (misses_of_form (Form.absence_misses hclosing))
  have hmatches := matches_of_row string_form (.cons hopening (.cons htaken
    (.single (matches_demand_iff.mpr hclosing)))) rfl
  have hvalue : string.finishValue (.list [quoteToken place quote, taken, closing]) =
      .node "string" place.line [.text (String.ofList content)] := by
    have hspelling : taken.spelling = String.ofList content := by
      rw [← String.toList_inj, hspelled, String.toList_ofList]
    rw [string_finishValue, stringValue, nodeFrom, quoteToken, lineOrZero_list_token,
      ← hspelling]
    rfl
  have hstop : place.past (quote :: (content ++ [quote])) =
      ((place.past [quote]).past content).past [quote] := by
    rw [← List.singleton_append, Position.past_append, Position.past_append]
  rw [String.toList_ofList] at hmatches
  rw [← hvalue, hstop]
  exact hmatches

end Strings

theorem string_matches (scope : Scope) (quoted : Quoted) (hfits : text.length < offsetBound)
    (hsees : place.Sees text (quoted.text ++ after)) :
    ∃ inner, string.Matches text scope place
      ⟨(Expression.string quoted).node place.line, place.past quoted.text, inner⟩ := by
  have hcontent : quoted.quote ∉ quoted.content := fun hmem => (quoted.plain _ hmem).1 rfl
  exact ⟨_, quoted_matches scope quoted.isQuote hcontent hfits hsees⟩

theorem string_misses (hsees : place.Sees text rest)
    (hrest : ∀ c ∈ rest.head?, c ≠ '\'' ∧ c ≠ '"') : string.Misses text scope place := by
  apply misses_of_row string_form
  apply rowMisses_of_first
  apply capture_misses
  apply class_misses hsees
  intro c hc
  simp [inClass, hrest c hc]

end ScopedGrammar.Croco
