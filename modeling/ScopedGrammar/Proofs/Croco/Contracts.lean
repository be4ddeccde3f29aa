/-
# Every tree has its shape

The rules of the grammar keep contracts: each yields trees of its shape, and none is ever at
fault, since the scope of every rule has what the rule needs. The other rules mean what they
mean in the grammar, the quote that a string is opened with is bound where it is looked for,
and the depth of a block is a count that is never more than the number of characters before
it.
-/

import ScopedGrammar.Proofs.Croco.Programs
import ScopedGrammar.Proofs.Croco.Scopes
import ScopedGrammar.Proofs.Croco.Shapes

namespace ScopedGrammar.Croco

open Pattern

variable {text : String} {steps : Nat} {scope : Scope} {place : Position} {success : Match}
  {good : Value → Prop}

/-- A name that is matched is no reserved word, since it goes on as far as it can. -/
theorem identifier_sound (hmatches : identifier.Matches text scope place success) :
    IsName success.value := by
  have hsees : place.Sees text (text.toList.drop place.offset) := rfl
  obtain ⟨values, raw, stop, inner, hrow, hpicked, rfl⟩ := row_of_matches identifier_form hmatches
  obtain ⟨ahead, others, hahead, hword, rfl⟩ := rowMatches_cons_iff.mp hrow
  obtain ⟨hmissed, rfl⟩ := Form.matches_absence_zero_iff.mp (matches_ofForm_iff.mp hahead)
  obtain ⟨first, more, hfirst, hmore, rfl⟩ := rowMatches_cons_iff.mp hword
  obtain ⟨c, rest, hrest, hstart, rfl⟩ :=
    (Form.matches_charClass_iff hsees).mp (matches_ofForm_iff.mp hfirst)
  rw [hrest] at hsees
  obtain ⟨tail, htail, rfl⟩ := rowMatches_singleton_iff.mp hmore
  have hseen : place.Sees text ([c] ++ rest) := hsees
  obtain ⟨run, after, rfl, hrun, hafter, -, hlast⟩ :=
    run_split hseen.past (Match.resolveBounds_none (Nat.zero_le _)) htail
  cases hlast
  cases hpicked
  have hfree : String.ofList (c :: run) ∉ keywords := by
    intro hreserved
    have hprefix : place.Sees text ((String.ofList (c :: run)).toList ++ after) := by
      rw [String.toList_ofList]
      exact hsees
    have hends : EndsWord after := fun d hd => (inClass_nameChar d).symm.trans (hafter d hd)
    exact (keyword_matches scope hprefix hends).not_misses
      (Form.option_misses (misses_iff.mp hmissed) _ (List.mem_map_of_mem hreserved))
  have hgoesOn : ∀ d ∈ run, isNameChar d = true := fun d hd =>
    (inClass_nameChar d).symm.trans (hrun d hd)
  exact ⟨place.line, ⟨c, run, (inClass_nameStart c).symm.trans hstart, hgoesOn, hfree⟩,
    identifier_finishValue_charTokens place c run⟩

/-- Digits with a point in them are a number. -/
theorem isExpression_floatValue {raw : Value} {front back : List Char}
    (hraw : raw.spelling.toList = front ++ '.' :: back)
    (hfront : ∀ c ∈ front, Decimal.isDigit c = true)
    (hback : ∀ c ∈ back, Decimal.isDigit c = true) (hsome : front ++ back ≠ []) :
    IsExpression (floatValue raw) := by
  obtain ⟨number, hnumber⟩ := Decimal.exists_readFloat? hfront hback hsome
  refine .number ?_
  rw [hraw, hnumber]
  exact .float number

/-- Digits are a number. -/
theorem isExpression_intValue {raw : Value} (hsome : raw.spelling.toList ≠ [])
    (hdigits : ∀ c ∈ raw.spelling.toList, Decimal.isDigit c = true) :
    IsExpression (intValue raw) := by
  refine .number ?_
  split
  next number hnumber => exact .int (Decimal.readWord?_unsigned hdigits hnumber)
  next =>
    rw [← String.ofList_toList (s := raw.spelling)]
    exact .digits hsome hdigits

theorem digits_copies {least : Nat} (hleast : least ≤ 0x7FFFFFFFFFFFFFFF) :
    ((oneOf digits).atLeast least).Copies text scope fun run =>
      (∀ c ∈ run, Decimal.isDigit c = true) ∧ least ≤ run.length :=
  (copies_run (Match.resolveBounds_none hleast)).mono fun _ hrun =>
    ⟨fun c hc => (inClass_digit c).symm.trans (hrun.1 c hc), hrun.2⟩

theorem float_sound (hmatches : float.Matches text scope place success) :
    IsExpression success.value := by
  have hsees : place.Sees text (text.toList.drop place.offset) := rfl
  obtain ⟨raw, hraw, rfl⟩ := matches_iff.mp hmatches
  rw [float_form] at hraw
  have hone : ((oneOf digits).atLeast 1).Copies text scope _ := digits_copies (by decide)
  have hmany : (oneOf digits).many.Copies text scope _ := digits_copies (Nat.zero_le _)
  have hpoint := copies_literal text scope "."
  rcases Form.matches_choice_cons_iff.mp hraw with hlong | ⟨-, hshort⟩
  · obtain ⟨_, _, value, -, ⟨front, _, rfl, hfront, _, _, rfl, rfl, back, _, rfl, hback, rfl⟩,
      hvalue, rfl⟩ :=
      copies_sequence (.cons hone (.cons hpoint (.cons hmany .nil))) _ _ _ hsees hlong
    rw [List.append_nil] at hvalue
    exact isExpression_floatValue hvalue hfront.1 hback.1
      (List.append_ne_nil_of_left_ne_nil (List.ne_nil_of_length_pos hfront.2) back)
  · rcases Form.matches_choice_cons_iff.mp hshort with hshort | ⟨-, hnone⟩
    · obtain ⟨_, _, value, -, ⟨_, _, rfl, rfl, back, _, rfl, hback, rfl⟩, hvalue, rfl⟩ :=
        copies_sequence (.cons hpoint (.cons hone .nil)) _ _ _ hsees hshort
      rw [List.append_nil] at hvalue
      have hnothing : value.spelling.toList = [] ++ '.' :: back := hvalue
      exact isExpression_floatValue hnothing (List.forall_mem_nil _) hback.1
        (List.ne_nil_of_length_pos hback.2)
    · exact absurd hnone Form.not_matches_choice_nil

theorem int_sound (hmatches : int.Matches text scope place success) :
    IsExpression success.value := by
  have hsees : place.Sees text (text.toList.drop place.offset) := rfl
  obtain ⟨raw, hraw, rfl⟩ := matches_iff.mp hmatches
  obtain ⟨run, _, value, -, hrun, hvalue, rfl⟩ :=
    digits_copies (by decide) _ _ _ hsees (matches_ofForm_iff.mpr hraw)
  rw [← hvalue] at hrun
  exact isExpression_intValue (List.ne_nil_of_length_pos hrun.2) hrun.1

/-- Where a block at some depth may stand: at least as many characters are before it. -/
def Aligned : Condition :=
  fun scope place => ∃ multiline depth, Level multiline depth scope ∧ depth ≤ place.offset

/-- Where a deeper block may stand. -/
def Opened : Condition :=
  fun scope place => ∃ multiline depth, Level multiline depth scope ∧ depth < place.offset

/-- Where a string goes on, the quote that it was opened with is bound. -/
def Quoting : Condition :=
  fun scope place => Aligned scope place ∧ ∃ content expected,
    scope.find? "quote" = some (.value content) ∧ content.asText? = some expected

theorem aligned_lasts : Aligned.Lasts :=
  fun _ _ _ ⟨multiline, depth, hlevel, hdepth⟩ hleads =>
    ⟨multiline, depth, hlevel, hdepth.trans hleads⟩

theorem opened_lasts : Opened.Lasts :=
  fun _ _ _ ⟨multiline, depth, hlevel, hdepth⟩ hleads =>
    ⟨multiline, depth, hlevel, Nat.lt_of_lt_of_le hdepth hleads⟩

theorem quoting_lasts : Quoting.Lasts :=
  fun _ _ _ hquoting hleads => ⟨aligned_lasts _ _ _ hquoting.1 hleads, hquoting.2⟩

theorem aligned_start : Aligned grammar.scope Position.start :=
  ⟨false, 0, level_grammar, Nat.le_refl 0⟩

theorem Opened.aligned (hopened : Opened scope place) : Aligned scope place := by
  obtain ⟨multiline, depth, hlevel, hdepth⟩ := hopened
  exact ⟨multiline, depth, hlevel, hdepth.le⟩

theorem Aligned.bind (haligned : Aligned scope place) {captured : String}
    (hcaptured : captured ∉ "SPACES" :: "indent" :: ruleNames) (content : Value) :
    Aligned (scope.bind captured (.value content)) place := by
  obtain ⟨multiline, depth, hlevel, hdepth⟩ := haligned
  exact ⟨multiline, depth, hlevel.bind hcaptured content, hdepth⟩

/-- Between brackets, blanks may be bound to go over several lines. -/
theorem aligned_brackets : ∀ scope place, place.offset ≤ text.length → Aligned scope place →
    Defect.Keeps text (fun frame => Aligned (scope.push frame) place)
      (scope.resolveAll [("SPACES", .rule (named "MULTILINE_SPACES"))]) :=
  fun _ _ _ ⟨_, depth, hlevel, hdepth⟩ => ⟨true, depth, hlevel.bracketed, hdepth⟩

/-- Past some characters more, a deeper block may stand. -/
theorem Aligned.opened (haligned : Aligned scope place) {run : List Char} (hrun : run ≠ []) :
    Opened scope (place.past run) := by
  obtain ⟨multiline, depth, hlevel, hdepth⟩ := haligned
  refine ⟨multiline, depth, hlevel, ?_⟩
  rw [Position.offset_past]
  exact Nat.lt_of_le_of_lt hdepth
    (Nat.lt_add_of_pos_right (List.length_pos_iff.mpr hrun))

/-- A pattern yields values of a kind, wherever rules may stand, and leaves it at that. -/
abbrev Yields (text : String) (steps : Nat) (pattern : Pattern) (good : Value → Prop) : Prop :=
  pattern.Keeps text steps Aligned good Aligned

/-- The contracts of the rules. -/
structure RulesKeep (text : String) (steps : Nat) : Prop where
  spaces : Yields text steps (named "SPACES") Anything
  multilineSpaces : Yields text steps (named "MULTILINE_SPACES") Anything
  comment : Yields text steps (named "COMMENT") Anything
  number : Yields text steps (named "NUMBER") IsExpression
  string : Yields text steps (named "STRING") IsExpression
  identifier : Yields text steps (named "IDENTIFIER") IsName
  primary : Yields text steps (named "PRIMARY") IsExpression
  operand : ∀ rank, Yields text steps (named (ruleAt rank)) IsExpression
  statement : Yields text steps (named "STATEMENT") IsStatement
  indentation : Yields text steps (named "INDENT") Anything
  block : Yields text steps (named "BLOCK") IsBlock

theorem RulesKeep.zero : RulesKeep text 0 :=
  ⟨.zero, .zero, .zero, .zero, .zero, .zero, .zero, fun _ => .zero, .zero, .zero, .zero⟩

theorem literal_keeps (word : String) : Yields text steps (literal word) Anything :=
  (Keeps.literal word aligned_lasts).weaken fun _ _ => trivial

theorem oneOf_keeps (members : String) : Yields text steps (oneOf members) Anything :=
  (Keeps.oneOf members aligned_lasts).weaken fun _ _ => trivial

theorem finish_keeps : Yields text steps finish Anything :=
  Keeps.finish.weaken fun _ _ => trivial

theorem keyword_keeps (word : String) : Yields text steps (keyword word) Anything :=
  .row (keyword_form word)
    (.cons (literal_keeps word) (.cons (.notAhead aligned_lasts (oneOf_keeps _)) .nil))
    fun | _, .cons _ (.cons _ .nil) => ⟨_, rfl, trivial⟩

namespace RulesKeep

theorem many_keeps {part : Pattern} (hpart : Yields text steps part Anything) :
    Yields text steps part.many Anything :=
  hpart.many.weaken fun _ _ => trivial

theorem spaces_keeps : Yields text steps Croco.spaces Anything :=
  many_keeps (.choice (by simpa using ⟨oneOf_keeps " \t", literal_keeps "\\\n"⟩))

theorem multilineSpaces_keeps (hrules : RulesKeep text steps) :
    Yields text steps Croco.multilineSpaces Anything :=
  many_keeps (.choice (by
    simpa using ⟨oneOf_keeps " \t\r\n", literal_keeps "\\\n", hrules.comment⟩))

theorem comment_keeps : Yields text steps Croco.comment Anything :=
  .row rfl (.cons (literal_keeps "#")
    (.cons (many_keeps (.exclude aligned_lasts (literal_keeps "\n"))) .nil))
    fun values _ => ⟨.list values, rfl, trivial⟩

/-- Digits and a point are met without fault, whatever they come to. -/
theorem number_keeps : Yields text steps (float.orElse int) IsExpression := by
  have hdigit : Yields text steps (oneOf digits) Anything := oneOf_keeps digits
  have hdigits : Yields text steps ((oneOf digits).atLeast 1) Anything :=
    (hdigit.atLeast (by decide)).weaken fun _ _ => trivial
  have hlong : Yields text steps
      (sequence [(oneOf digits).atLeast 1, literal ".", (oneOf digits).many]) Anything :=
    .row rfl (.cons hdigits (.cons (literal_keeps ".") (.cons (many_keeps hdigit) .nil)))
      fun values _ => ⟨.list values, rfl, trivial⟩
  have hshort : Yields text steps (sequence [literal ".", (oneOf digits).atLeast 1]) Anything :=
    .row rfl (.cons (literal_keeps ".") (.cons hdigits .nil))
      fun values _ => ⟨.list values, rfl, trivial⟩
  have hfloat : Yields text steps float Anything :=
    .of_form (.choice (by simpa using ⟨hlong, hshort⟩))
  have hint : Yields text steps int Anything := .map hdigits fun _ _ => trivial
  have hnumbers : ∀ option ∈ [float, int], Yields text steps option IsExpression := by
    simpa using ⟨hfloat.of_matches fun _ _ _ _ _ => float_sound,
      hint.of_matches fun _ _ _ _ _ => int_sound⟩
  exact .choice hnumbers

theorem identifier_keeps : Yields text steps Croco.identifier IsName := by
  have hkeywords : ∀ option ∈ keywords.map keyword, Yields text steps option Anything := by
    rw [List.forall_mem_map]
    exact fun word _ => keyword_keeps word
  have hidentifier : Yields text steps Croco.identifier Anything :=
    .row identifier_form (.cons (.notAhead aligned_lasts (.choice hkeywords))
      (.cons (oneOf_keeps nameStart) (.cons (many_keeps (oneOf_keeps _)) .nil)))
      fun | _, .cons _ (.cons _ (.cons _ .nil)) => ⟨_, rfl, trivial⟩
  exact hidentifier.of_matches fun _ _ _ _ _ => identifier_sound

theorem openingQuote_keeps : openingQuote.Keeps text steps Aligned Anything Quoting := by
  have hquote : openingQuote.Keeps text steps Aligned _ Quoting :=
    .capture (.oneOf "'\"" aligned_lasts) fun scope place value haligned hvalue => by
      obtain ⟨piece, rfl⟩ := hvalue
      exact ⟨haligned.bind (by decide) _, _, piece.text,
        (Scope.find?_bind scope _ _ _).trans (if_pos rfl), rfl⟩
  exact hquote.weaken fun _ _ => trivial

theorem string_keeps : Croco.string.Keeps text steps Aligned IsExpression Quoting := by
  have hquote : (named "quote").Keeps text steps Quoting Anything Quoting :=
    .namedText quoting_lasts fun _ _ hquoting => hquoting.2
  exact .row string_form (.cons openingQuote_keeps
    (.cons (Keeps.exclude quoting_lasts hquote).many (.cons (.demand hquote) .nil)))
    fun values _ => ⟨.list values, rfl, .string _⟩

section Expressions

variable {inner : Pattern} {fine : Value → Prop}

theorem spaced_keeps (hrules : RulesKeep text steps) (hinner : Yields text steps inner good) :
    Yields text steps (spaced inner) good :=
  .row rfl (.cons hrules.spaces (.cons hinner (.cons hrules.spaces .nil)))
    fun | _, .cons _ (.cons hvalue (.cons _ .nil)) => ⟨_, rfl, hvalue⟩

/-- What stands between brackets is taken where newlines are blanks. -/
theorem around_keeps (hrules : RulesKeep text steps) (bracket : Bracket) {make : Value → Value}
    (hinner : Yields text steps inner good)
    (hmake : ∀ opening value, good value → fine (make (.list [opening, value]))) :
    Yields text steps (bracket.around inner make) fine := by
  obtain ⟨message, hform⟩ := around_form bracket inner make
  have hopening : Yields text steps ((literal (String.ofList [bracket.opening])).capture
      "bracket_opening") Anything :=
    .capture (literal_keeps _) fun _ _ value haligned _ => haligned.bind (by decide) value
  have hinside : Yields text steps (ofForm (.sequence [named "SPACES", inner] (some [1]))) good :=
    .row rfl (.cons hrules.spaces (.cons hinner .nil))
      fun | _, .cons _ (.cons hvalue .nil) => ⟨_, rfl, hvalue⟩
  have hbody : Yields text steps (bracketBody inner) good :=
    .ofForm (.overlay aligned_lasts aligned_brackets hinside)
  exact .row hform (.cons hopening (.cons hbody (.cons (.demand (literal_keeps _)) .nil)))
    fun | _, .cons _ (.cons hvalue (.cons _ .nil)) => ⟨_, rfl, hmake _ _ hvalue⟩

theorem expression (hrules : RulesKeep text steps) :
    Yields text steps (named "EXPRESSION") IsExpression :=
  hrules.operand 0

theorem items_keep (hrules : RulesKeep text steps) :
    Yields text steps items (ListOf IsExpression) :=
  .repeated hrules.expression (by simpa using literal_keeps ",") (Nat.zero_le _)

theorem collection_keeps (hrules : RulesKeep text steps) (bracket : Bracket) :
    Yields text steps bracket.pattern IsExpression := by
  have hcomma : Yields text steps ((literal ",").andThen (named "SPACES")) Anything :=
    .row rfl (.cons (literal_keeps ",") (.cons hrules.spaces .nil))
      fun values _ => ⟨.list values, rfl, trivial⟩
  have hmembers : Yields text steps (sequence [items, trailingComma]) fun value =>
      ∃ members trailing, (∀ member ∈ members, IsExpression member) ∧
        value = .list [.list members, trailing] :=
    .row rfl (.cons hrules.items_keep (.cons hcomma.optional .nil)) fun
      | _, .cons ⟨members, rfl, hmembers⟩ (.cons _ .nil) =>
        ⟨_, rfl, members, _, hmembers, rfl⟩
  refine hrules.around_keeps bracket hmembers ?_
  rintro opening _ ⟨members, trailing, hmembers, rfl⟩
  exact isExpression_collectionValue bracket hmembers

theorem primary_keeps (hrules : RulesKeep text steps) :
    Yields text steps Croco.primary IsExpression := by
  have hname := hrules.identifier.weaken fun _ => IsName.isExpression
  have hchoice : Yields text steps primaryChoice IsExpression :=
    .choice (by simpa using ⟨hrules.number, hrules.string, hname,
      hrules.collection_keeps .tuple, hrules.collection_keeps .list,
      hrules.collection_keeps .set⟩)
  exact hrules.spaced_keeps hchoice

theorem postfixStep_keeps (hrules : RulesKeep text steps) :
    Yields text steps postfixStep IsSuffix := by
  have hattribute : Yields text steps attributeAccess IsSuffix :=
    .row attributeAccess_form
      (.cons (literal_keeps ".") (.cons (.demand (hrules.spaced_keeps hrules.identifier)) .nil))
      fun | _, .cons _ (.cons hname .nil) => ⟨_, rfl, isSuffix_attributeValue hname⟩
  have hcall : Yields text steps call IsSuffix := by
    refine hrules.around_keeps .tuple hrules.items_keep ?_
    rintro opening _ ⟨arguments, rfl, harguments⟩
    exact isSuffix_callValue harguments
  have hindex : Yields text steps index IsSuffix :=
    hrules.around_keeps .list (.demand hrules.expression) fun _ _ => isSuffix_indexValue
  exact .choice (by simpa using ⟨hattribute, hcall, hindex⟩)

theorem postfixed_keeps (hrules : RulesKeep text steps) :
    Yields text steps postfixed IsExpression :=
  .row postfixed_form
    (.cons hrules.primary (.cons hrules.postfixStep_keeps.many (.cons hrules.spaces .nil)))
    fun
    | _, .cons hfirst (.cons hlist (.cons _ .nil)) => by
        obtain ⟨_, rfl, hsuffixes⟩ := hlist
        exact ⟨_, rfl, isExpression_foldPostfix hfirst hsuffixes⟩

theorem step_keeps (hrules : RulesKeep text steps) (tier : Tier) :
    Yields text steps tier.step (IsStep tier) := by
  have hwords : ∀ option ∈ (tier.operators.map Operator.spelling).map literal,
      Yields text steps option fun value =>
        ∃ operator ∈ tier.operators, value.spelling = operator.spelling := by
    simp only [List.forall_mem_map]
    exact fun operator hoperator => (Keeps.literal _ aligned_lasts).weaken
      fun _ hspelled => ⟨operator, hoperator, hspelled⟩
  have hoperator : Yields text steps ((choice ((tier.operators.map Operator.spelling).map
      literal)).map fun raw => .text raw.spelling) fun value =>
        ∃ operator ∈ tier.operators, value = .text operator.spelling :=
    .map (.choice hwords) fun _ ⟨operator, hoperator, hspelled⟩ =>
      ⟨operator, hoperator, congrArg Value.text hspelled⟩
  have hcaptured : Yields text steps (((choice ((tier.operators.map Operator.spelling).map
      literal)).map fun raw => .text raw.spelling).capture "last_op") _ :=
    .capture hoperator fun _ _ value haligned _ => haligned.bind (by decide) value
  exact .row rfl (.cons hcaptured (.cons (.demand (hrules.operand _)) .nil)) fun
    | _, .cons ⟨operator, hoperator, rfl⟩ (.cons hright .nil) =>
      ⟨_, rfl, operator, hoperator, _, hright, rfl⟩

theorem tier_keeps (hrules : RulesKeep text steps) (tier : Tier) :
    Yields text steps tier.rule IsExpression :=
  .row tier.rule_form (.cons (hrules.operand _) (.cons (hrules.step_keeps tier).many .nil)) fun
    | _, .cons hfirst (.cons hlist .nil) => by
        obtain ⟨_, rfl, hsteps⟩ := hlist
        exact ⟨_, rfl, isExpression_foldOperators hfirst hsteps⟩

end Expressions

theorem assignment_keeps (hrules : RulesKeep text steps) :
    Yields text steps assignment IsStatement := by
  obtain ⟨message, hform⟩ := assignment_form
  have hwords : ∀ option ∈ inPlaceOperators.map literal,
      Yields text steps option (·.spelling ∈ inPlaceOperators) := by
    rw [List.forall_mem_map]
    exact fun word hword => (Keeps.literal word aligned_lasts).weaken
      fun _ hspelled => hspelled ▸ hword
  exact .row hform (.cons (hrules.operand postfixRank) (.cons (Keeps.choice hwords).optional
    (.cons (literal_keeps "=") (.cons (.notAhead aligned_lasts (literal_keeps "="))
      (.cons (.demand hrules.expression) .nil)))))
    fun
    | _, .cons htarget (.cons hsign (.cons _ (.cons _ (.cons hvalue .nil)))) =>
      ⟨_, rfl, isStatement_assignmentValue htarget hsign hvalue _⟩

theorem statement_keeps (hrules : RulesKeep text steps) :
    Yields text steps Croco.statement IsStatement := by
  have hwords : Yields text steps keywordStatement IsStatement := by
    apply Keeps.choice
    rw [List.forall_mem_map]
    exact fun word hword => .map (keyword_keeps word) fun _ _ => .keyword hword
  have hexpression := hrules.expression.weaken fun _ => IsStatement.expression
  exact .choice (by
    simpa using ⟨hrules.spaced_keeps hwords, hrules.assignment_keeps, hexpression⟩)

theorem statements_keep (hrules : RulesKeep text steps) :
    Yields text steps statements (ListOf IsStatement) :=
  .repeated hrules.statement (by simpa using literal_keeps ";") (by decide)

theorem indentation_keeps : Yields text steps Croco.indentation Anything := by
  have hlevel : Yields text steps ((literal "    ").orElse (literal "\t")) Anything :=
    .choice (by simpa using ⟨literal_keeps "    ", literal_keeps "\t"⟩)
  have hlevels : Yields text steps
      (((literal "    ").orElse (literal "\t")).times (.name "indent")) _ :=
    .times hlevel fun _ _ ⟨_, depth, hlevel, _⟩ => ⟨depth, hlevel.counts⟩
  exact .row rfl
    (.cons hlevels (.cons (.demand (.notAhead aligned_lasts (oneOf_keeps " \t"))) .nil))
    fun values _ => ⟨.list values, rfl, trivial⟩

theorem lineEnd_keeps : Yields text steps lineEnd Anything :=
  .demand (.choice (by simpa using ⟨literal_keeps "\n", finish_keeps⟩))

theorem comment_optional_keeps (hrules : RulesKeep text steps) :
    Yields text steps (named "COMMENT").optional Anything :=
  hrules.comment.optional.weaken fun _ _ => trivial

theorem emptyLine_keeps (hrules : RulesKeep text steps) : Yields text steps emptyLine IsPart := by
  have hblanks : Yields text steps ((oneOf " \t").atLeast 1) Anything :=
    ((oneOf_keeps " \t").atLeast (by decide)).weaken fun _ _ => trivial
  have hfirst : Yields text steps
      (sequence [(oneOf " \t").many, (named "COMMENT").optional, literal "\n"]) Anything :=
    .row rfl (.cons (many_keeps (oneOf_keeps " \t"))
      (.cons hrules.comment_optional_keeps (.cons (literal_keeps "\n") .nil)))
      fun values _ => ⟨.list values, rfl, trivial⟩
  have hsecond : Yields text steps (sequence [(oneOf " \t").atLeast 1, finish]) Anything :=
    .row rfl (.cons hblanks (.cons finish_keeps .nil))
      fun values _ => ⟨.list values, rfl, trivial⟩
  exact .map (.choice (by simpa using ⟨hfirst, hsecond⟩)) fun _ _ => isPart_empty

theorem simpleLine_keeps (hrules : RulesKeep text steps) :
    Yields text steps simpleLine IsPart :=
  .row rfl (.cons hrules.indentation (.cons hrules.statements_keep
    (.cons hrules.comment_optional_keeps (.cons lineEnd_keeps .nil)))) fun
    | _, .cons _ (.cons hlist (.cons _ (.cons _ .nil))) => by
        obtain ⟨_, rfl, hstatements⟩ := hlist
        exact ⟨_, rfl, isPart_list hstatements⟩

theorem condition_keeps (hrules : RulesKeep text steps) (word : String) :
    Yields text steps (condition word) fun value => ∃ line condition, IsExpression condition ∧
      value = .node (if word = "while" then "while" else "if") line [condition] :=
  .row rfl (.cons (keyword_keeps word) (.cons (.demand hrules.expression) .nil))
    fun | _, .cons _ (.cons hcondition .nil) => ⟨_, rfl, _, _, hcondition, rfl⟩

theorem forHeader_keeps (hrules : RulesKeep text steps) : Yields text steps forHeader IsHeader :=
  .row rfl (.cons (keyword_keeps "for") (.cons (.demand (hrules.operand postfixRank))
    (.cons (.demand (keyword_keeps "in")) (.cons (.demand hrules.expression) .nil))))
    fun
    | _, .cons _ (.cons htarget (.cons _ (.cons hiterable .nil))) =>
      ⟨_, rfl, .loop htarget hiterable⟩

theorem header_keeps (hrules : RulesKeep text steps) :
    Yields text steps (choice [condition "if", condition "while", forHeader]) IsHeader := by
  have hif : Yields text steps (condition "if") IsHeader := by
    refine (hrules.condition_keeps "if").weaken ?_
    rintro _ ⟨line, condition, hcondition, rfl⟩
    exact .condition (by decide) hcondition
  have hwhile : Yields text steps (condition "while") IsHeader := by
    refine (hrules.condition_keeps "while").weaken ?_
    rintro _ ⟨line, condition, hcondition, rfl⟩
    exact .condition (by decide) hcondition
  exact .choice (by simpa using ⟨hif, hwhile, hrules.forHeader_keeps⟩)

theorem elseHeader_keeps : Yields text steps elseHeader IsElse :=
  .map (keyword_keeps "else") fun _ _ => ⟨_, rfl⟩

theorem inlineBody_keeps (hrules : RulesKeep text steps) :
    Yields text steps inlineBody IsBlock :=
  .row rfl (.cons hrules.statements_keep
    (.cons hrules.comment_optional_keeps (.cons lineEnd_keeps .nil))) fun
    | _, .cons hlist (.cons _ (.cons _ .nil)) => by
        obtain ⟨_, rfl, hstatements⟩ := hlist
        exact ⟨_, rfl, isBlock_blockValue fun statement hmem =>
          (hstatements statement hmem).isPart⟩

/-- After a newline, there is a character for one level more. -/
theorem nestedBody_keeps (hrules : RulesKeep text steps) :
    Yields text steps nestedBody IsBlock := by
  have hnewline : (literal "\n").Keeps text steps Aligned Anything Opened :=
    (Keeps.ofForm (.literal fun _ _ haligned => haligned.opened (by decide))).weaken
      fun _ _ => trivial
  have hdeeper : (ofForm (.overlay ((named "BLOCK").demand
      "expected an indented block on line \x7bline\x7d") (nextCount "indent"))).Keeps text steps
      Opened IsBlock Opened := by
    refine .ofForm (.overlay_next opened_lasts (fun scope place hopened => ?_)
      (.demand hrules.block))
    obtain ⟨multiline, depth, hlevel, hdepth⟩ := hopened
    exact ⟨depth, hlevel.counts, hdepth, fun next hnext =>
      ⟨multiline, depth + 1, hlevel.nested hnext, hdepth⟩⟩
  have hlast := hdeeper.mono (fun _ _ => id) (fun _ => id) fun _ _ => Opened.aligned
  exact .row rfl (.cons hrules.spaces (.cons hnewline (.cons hlast .nil)))
    fun | _, .cons _ (.cons _ (.cons hblock .nil)) => ⟨_, rfl, hblock⟩

theorem clause_keeps (hrules : RulesKeep text steps) {header : Pattern}
    {isHeader : Value → Prop} (hheader : Yields text steps header isHeader)
    (hnode : ∀ value, isHeader value → ∃ kind line children, value = .node kind line children) :
    Yields text steps (clause header) (IsClause isHeader) := by
  have hcolon : Yields text steps colon Anything :=
    .row rfl (.cons hrules.spaces (.cons (.demand (literal_keeps ":")) .nil))
      fun | _, .cons _ (.cons _ .nil) => ⟨_, rfl, trivial⟩
  have hbody : Yields text steps (choice [inlineBody, nestedBody]) IsBlock :=
    .choice (by simpa using ⟨hrules.inlineBody_keeps, hrules.nestedBody_keeps⟩)
  exact .row rfl (.cons hrules.indentation (.cons hheader (.cons hcolon (.cons hbody .nil))))
    fun
    | _, .cons _ (.cons hheader (.cons _ (.cons hbody .nil))) =>
      ⟨_, rfl, isClause_clauseValue hheader (hnode _ hheader) hbody⟩

theorem flow_keeps (hrules : RulesKeep text steps) : Yields text steps flow IsStatement := by
  have hfirst := hrules.clause_keeps hrules.header_keeps fun _ hheader => by
    cases hheader <;> exact ⟨_, _, _, rfl⟩
  have hfurther : Yields text steps (clause (condition "elif")) (IsClause IsFurther) :=
    hrules.clause_keeps (hrules.condition_keeps "elif") fun _ ⟨_, _, _, hvalue⟩ =>
      ⟨_, _, _, hvalue⟩
  have hlast : Yields text steps (clause elseHeader) (IsClause IsElse) :=
    hrules.clause_keeps elseHeader_keeps fun _ ⟨_, hvalue⟩ => ⟨_, _, _, hvalue⟩
  exact .row rfl (.cons hfirst (.cons hfurther.many (.cons hlast.optional .nil))) fun
    | _, .cons hclause (.cons hlist (.cons hlast .nil)) => by
        obtain ⟨_, rfl, hfurther⟩ := hlist
        exact ⟨_, rfl, isStatement_flowValue hclause hfurther hlast⟩

theorem block_keeps (hrules : RulesKeep text steps) : Yields text steps Croco.block IsBlock := by
  have hflow := hrules.flow_keeps.weaken fun _ => IsStatement.isPart
  have hline : Yields text steps (choice [emptyLine, flow, simpleLine]) IsPart :=
    .choice (by simpa using ⟨hrules.emptyLine_keeps, hflow, hrules.simpleLine_keeps⟩)
  refine .map (hline.atLeast (by decide)) ?_
  rintro _ ⟨parts, rfl, hparts⟩
  exact isBlock_blockValue hparts

/-- A name keeps with one step more what its rule in the grammar keeps. -/
theorem rule_keeps {name : String} {rule : Pattern} {after : Condition}
    (hname : name ∈ ruleNames) (hrule : grammar.scope.rule? name = some (rule.labelled name))
    (hkeeps : rule.Keeps text steps Aligned good after) :
    Yields text (steps + 1) (named name) good :=
  .named aligned_lasts fun _ _ ⟨_, _, hlevel, _⟩ =>
    ⟨_, after, hlevel.rule?_eq hname hrule, hkeeps.labelled name⟩

/-- What blanks mean depends on the brackets around them. -/
theorem blanks_keep (hrules : RulesKeep text steps) :
    Yields text (steps + 1) (named "SPACES") Anything := by
  refine .named aligned_lasts fun _ _ ⟨multiline, _, hlevel, _⟩ =>
    ⟨_, Aligned, hlevel.blanks, ?_⟩
  cases multiline with
  | false => exact spaces_keeps.labelled "SPACES"
  | true => exact hrules.multilineSpaces

theorem succ (hrules : RulesKeep text steps) : RulesKeep text (steps + 1) where
  spaces := hrules.blanks_keep
  multilineSpaces := rule_keeps (by decide) rfl hrules.multilineSpaces_keeps
  comment := rule_keeps (by decide) rfl comment_keeps
  number := rule_keeps (by decide) rfl number_keeps
  string := rule_keeps (by decide) rfl string_keeps
  identifier := rule_keeps (by decide) rfl identifier_keeps
  primary := rule_keeps (by decide) rfl hrules.primary_keeps
  operand := fun
    | 0 => rule_keeps (by decide) rfl (hrules.tier_keeps .comparison)
    | 1 => rule_keeps (by decide) rfl (hrules.tier_keeps .sum)
    | 2 => rule_keeps (by decide) rfl (hrules.tier_keeps .product)
    | 3 => rule_keeps (by decide) rfl (hrules.tier_keeps .power)
    | _ + 4 => rule_keeps (List.mem_of_elem_eq_true rfl) rfl hrules.postfixed_keeps
  statement := rule_keeps (by decide) rfl hrules.statement_keeps
  indentation := rule_keeps (by decide) rfl indentation_keeps
  block := rule_keeps (by decide) rfl hrules.block_keeps

end RulesKeep

/-- The rules keep their contracts, with any number of steps. -/
theorem rules_keep (text : String) (steps : Nat) : RulesKeep text steps := by
  induction steps with
  | zero => exact .zero
  | succ steps ih => exact ih.succ

theorem start_keeps (text : String) (steps : Nat) :
    Yields text steps ((named "BLOCK").orElse (finish.map fun _ => .node "block" 1 []))
      IsBlock := by
  have hnothing : Yields text steps (finish.map fun _ => .node "block" 1 []) IsBlock :=
    .map finish_keeps fun _ _ => .block (List.forall_mem_nil _)
  exact .choice (by simpa using ⟨(rules_keep text steps).block, hnothing⟩)

/-- A program is parsed as a block whose statements have their shapes, all the way down, and
errors are excused. -/
theorem parse_keeps (text : String) (granted : Nat) :
    (∀ value, grammar.parse granted text = .ok value → IsBlock value) ∧
      ∀ reason, grammar.parse granted text = .error reason → reason.Excused text :=
  Grammar.parse_keeps rule_start ((start_keeps text (granted + 1)).labelled "start")
    (Nat.lt_succ_self granted) aligned_start

/-- A program is never refused because the grammar is at fault. -/
theorem parse_spares_grammar (hfits : text.length < 2 ^ 63) (granted : Nat) {reason : Halt}
    (hparse : grammar.parse granted text = .error reason) : reason.sparesGrammar = true :=
  (parse_keeps text granted).2 reason hparse hfits

/-- What a text is parsed as has the shape of a program: a block whose statements have the
shapes of statements, all the way down. Nothing else is left in the tree. -/
theorem isBlock_of_parse {value : Value} (hparse : parse text = .ok value) :
    IsBlock value ∧ isTidy value = true := by
  have hblock := (parse_keeps text (stepsFor text.length)).1 value hparse
  exact ⟨hblock, hblock.isTidy⟩

theorem isBlock_of_parse_of_condition :
    ∃ value, parse "if a:\n\tb /= 2" = .ok value ∧ IsBlock value ∧ isTidy value = true := by
  have hparsed : (parse "if a:\n\tb /= 2").toBool = true := by
    decide +kernel
  cases hparse : parse "if a:\n\tb /= 2" with
  | error reason =>
      rw [hparse] at hparsed
      cases hparsed
  | ok value => exact ⟨value, rfl, isBlock_of_parse hparse⟩

end ScopedGrammar.Croco
