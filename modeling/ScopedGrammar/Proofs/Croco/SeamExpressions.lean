/-
# Expressions at a seam

An expression that is matched in a program is matched in the program with the gap, to a value
that differs in places only. The blanks around primaries and operations take the gap along, but
postfix operations let no blanks stand before them. So if a call or an index ends at the seam,
and another operation comes next, then the second match is lost there.
-/

import ScopedGrammar.Proofs.Croco.SeamBrackets

namespace ScopedGrammar.Croco

open Pattern

variable {seam : Seam} {setting : Setting} {scope otherScope : Scope} {place other : Position}
  {granted steps more : Nat} {ends begins : Position → Position → Prop}
  {values : Value → Value → Prop}

/-- What the rule for expressions keeps up with, for a number of steps. -/
def ExpressionPaces (seam : Seam) (setting : Setting) (granted : Nat) (name : String) : Prop :=
  Paces seam setting granted (named name) (Starts seam setting)
    (Reaches seam setting seam.Free Value.Alike (Astray seam setting seam.gap))

theorem Begun.atStart (hbegun : Begun seam setting place other) : Starts seam setting place other :=
  ⟨hbegun.1.mono False.elim, hbegun.2⟩

theorem Reaches.roundArrives {lost : Scope → Position → Prop} {success otherSuccess : Match}
    {wider : Position → Position → Prop}
    (hreaches : Reaches seam setting ends values lost success otherSuccess)
    (front others : List Value) (hwider : ∀ here there, ends here there → wider here there) :
    RoundArrives seam setting wider values lost
      (front ++ [success.value], success.position, success.scope)
      (others ++ [otherSuccess.value], otherSuccess.position, otherSuccess.scope) := by
  refine hreaches.imp_left fun ⟨hvalues, hspot⟩ => ⟨?_, hspot.mono (hwider _ _)⟩
  rw [final, final, List.getLast?_concat, List.getLast?_concat]
  exact hvalues

theorem items_form :
    items.form = .repetition (named "EXPRESSION") (.ofCount 0) none (some (literal ",")) false :=
  rfl

theorem items_pace (hexpression : ExpressionPaces seam setting granted "EXPRESSION") :
    Paces seam setting granted items (Begun seam setting)
      (Reaches seam setting seam.Free (Listed Value.Alike) (Astray seam setting seam.gap)) := by
  intro scope place otherScope other hspot steps hsteps more
  have hseries := follows_series
    (fun count here there => seam.Free here there ∧
      (count = 0 → setting.multiline = true → Fresh seam here))
    Value.Alike (Astray seam setting seam.gap)
    items_form (fun _ => rfl) (fun _ _ => Match.resolveBounds_none (Nat.zero_le _))
    (fun _ _ _ hfaces => ⟨False, hfaces.1⟩) ?_ ?_ (.inl rfl)
    (hspot.mono fun hbegun => ⟨hbegun.1, fun _ => hbegun.2⟩) hsteps more
  · refine hseries.mono fun _ _ hreaches => hreaches.imp_left fun harrives => ?_
    exact harrives.mono (fun ⟨_, hfaces⟩ => hfaces.1) id
  · intro count here there otherHere otherThere _ hhere
    refine .on hhere.faces.1 fun steps hsteps more => ?_
    cases count with
    | zero =>
        refine Edit.follows_row_cons (hexpression (hhere.mono fun hfaces =>
          Begun.atStart ⟨hfaces.1, hfaces.2 rfl⟩) steps hsteps.le more) fun _ _ hreaches => ?_
        exact Edit.follows_row_nil (hreaches.roundArrives [] [] fun _ _ hfree => ⟨hfree, nofun⟩)
    | succ count =>
        refine Edit.follows_row_cons (mark_arrives "," (by decide)
          (hhere.mono And.left)) fun due otherDue hdue => ?_
        refine Edit.follows_row_cons (hexpression hdue.2 steps hsteps.le more)
          fun _ _ hreaches => ?_
        exact Edit.follows_row_nil (hreaches.roundArrives [due.value] [otherDue.value]
          fun _ _ hfree => ⟨hfree, nofun⟩)
  · exact fun scope place count hastray => rowMisses_later_of_separator
      (hastray.literal_misses rfl (by decide) scope)

theorem trailingComma_form :
    trailingComma.form = .repetition (sequence [literal ",", named "SPACES"]) (.ofCount 0)
      (some (.ofCount 1)) none false :=
  rfl

/-- Where the second match is lost, it takes no comma. -/
theorem comma_misses (hastray : Astray seam setting seam.gap scope place) (within : Scope) :
    (sequence [literal ",", named "SPACES"]).Misses seam.edit.edited within place :=
  sequence_misses (rowMisses_of_first (hastray.literal_misses rfl (by decide) within))

theorem trailingComma_follows (hspot : Spot seam setting seam.Free scope place otherScope other) :
    seam.edit.Follows (Arrives seam setting seam.Free (Listed fun _ _ => True))
      (trailingComma.run steps scope place) (trailingComma.run more otherScope other) := by
  have hseries := follows_series (fun _ => seam.Free) (fun _ _ => True) (fun _ _ => False)
    trailingComma_form (fun _ => rfl) (fun _ _ => rfl) (fun _ _ _ hfree => ⟨False, hfree⟩) ?_
    (fun _ _ _ => False.elim) (.inl rfl) hspot (Nat.le_refl steps) more
  · refine hseries.mono fun _ _ hreaches => ?_
    exact (hreaches.resolve_right id).mono (fun ⟨_, hfree⟩ => hfree) id
  · intro count here there otherHere otherThere _ hhere
    refine .on hhere.faces fun fewer _ further => ?_
    rw [dueAfter_none, List.nil_append]
    suffices seam.edit.Follows (Arrives seam setting seam.Free fun _ _ => True)
        ((sequence [literal ",", named "SPACES"]).run fewer here there)
        ((sequence [literal ",", named "SPACES"]).run further otherHere otherThere) from
      Edit.follows_row_cons this fun _ _ harrives => Edit.follows_row_nil (.inl harrives)
    refine Edit.follows_sequence rfl fun few _ far => ?_
    refine Edit.follows_row_cons (mark_arrives "," (by decide) hhere) fun _ _ hdue => ?_
    refine Edit.follows_row_cons (spaces_arrive (hdue.2.mono And.left)) fun _ _ hblanks => ?_
    exact Edit.follows_row_nil ⟨_, _, rfl, rfl, trivial, hblanks.2.mono And.left⟩

/-- The members of a collection, with the comma that may stand after them. -/
theorem members_pace (hexpression : ExpressionPaces seam setting granted "EXPRESSION") :
    Paces seam setting granted (sequence [items, trailingComma]) (Begun seam setting)
      (Reaches seam setting seam.Free (fun value other => ∃ members others rest more,
        value = .list [.list members, .list rest] ∧ other = .list [.list others, .list more] ∧
          List.Forall₂ Value.Alike members others ∧ rest.length = more.length)
        (Astray seam setting seam.gap)) := by
  intro scope place otherScope other hspot steps hsteps more
  refine Edit.follows_sequence rfl fun fewer hfewer further => ?_
  refine Edit.follows_row_cons (items_pace hexpression hspot fewer (hfewer.le.trans hsteps) further)
    fun list otherList hlist => ?_
  rcases hlist with ⟨⟨members, others, hmembers, hothers, halike⟩, hnext⟩ | hastray
  · refine Edit.follows_row_cons (trailingComma_follows hnext) fun comma otherComma hcomma => ?_
    obtain ⟨⟨rest, more, hrest, hmore, hlists⟩, hlast⟩ := hcomma
    rw [hmembers, hothers, hrest, hmore]
    exact Edit.follows_row_nil ⟨_, _, rfl, rfl, .inl ⟨⟨_, _, _, _, rfl, rfl, halike,
      hlists.length_eq⟩, hlast⟩⟩
  · refine Edit.follows_row_cons (follows_series_lost trailingComma_form (fun _ => rfl)
      (comma_misses hastray _) _ _) fun comma otherComma ⟨hscope, hplace⟩ => ?_
    refine Edit.follows_row_nil ⟨_, _, rfl, rfl, .inr ?_⟩
    rw [hscope, hplace]
    exact hastray

/-- Whether a primary may end with a character. -/
def endsPrimary (c : Char) : Bool :=
  isNumeral c || isQuote c || endsSuffix c || c == '\x7d'

/-- What expressions between brackets are matched as, whatever brackets these are. -/
def ExpressionsPace (seam : Seam) (granted : Nat) : Prop :=
  ∀ setting, ExpressionPaces seam setting granted "EXPRESSION"

theorem collection_paces (hexpressions : ExpressionsPace seam granted) (bracket : Bracket) :
    Paces seam setting granted bracket.pattern seam.Free
      (Arrives seam setting (seam.Faces (seam.Ended (· == bracket.closing))) Value.Alike) := by
  refine around_paces _ _ _ (fun opened _ => members_pace (hexpressions _)) ?_
  rintro token other _ _ - ⟨members, others, rest, more, rfl, rfl, halike, hlength⟩
  exact alike_collectionValue halike hlength

theorem primaryChoice_paces (hexpressions : ExpressionsPace seam granted) :
    Paces seam setting granted primaryChoice (Begun seam setting)
      (Arrives seam setting (seam.Faces (seam.Ended endsPrimary)) Value.Alike) := by
  intro scope place otherScope other hspot steps hsteps more
  have hfree := hspot.mono And.left
  have hclosing (bracket : Bracket) (fewer : Nat) (hfewer : fewer < steps) (further : Nat) :
      seam.edit.Follows (Arrives seam setting (seam.Faces (seam.Ended endsPrimary)) Value.Alike)
        (bracket.pattern.run fewer scope place) (bracket.pattern.run further otherScope other) := by
    refine (collection_paces hexpressions bracket hfree fewer (hfewer.le.trans hsteps) further).mono
      fun _ _ harrives => harrives.mono (fun hfaces => hfaces.mono fun hended => hended.mono ?_) id
    intro c hc
    rw [beq_iff_eq.mp hc]
    cases bracket <;> decide
  refine Edit.follows_choice rfl ?_
  simp only [List.forall_mem_cons, List.not_mem_nil, false_implies, implies_true, and_true]
  refine ⟨fun fewer _ further => ?_, fun fewer _ further => ?_, fun fewer _ further => ?_,
    hclosing .tuple, hclosing .list, hclosing .set⟩
  · refine (number_paces fewer hspot fewer (Nat.le_refl _) further).mono fun _ _ harrives =>
      harrives.mono (fun hfaces => hfaces.mono fun hended => hended.mono fun c hc => ?_) id
    rw [endsPrimary, hc, Bool.true_or, Bool.true_or, Bool.true_or]
  · refine (string_paces fewer hfree fewer (Nat.le_refl _) further).mono fun _ _ harrives =>
      harrives.mono (fun hfaces => hfaces.mono fun hended => hended.mono fun c hc => ?_) id
    rw [endsPrimary, hc, Bool.or_true, Bool.true_or, Bool.true_or]
  · refine (identifier_paces fewer hfree fewer (Nat.le_refl _) further).mono fun _ _ harrives =>
      harrives.mono (fun hfaces => hfaces.mono fun hended => hended.mono fun c hc => ?_) id
    rw [endsPrimary, isNumeral, hc, Bool.true_or, Bool.true_or, Bool.true_or, Bool.true_or]

theorem primary_paces (hexpressions : ExpressionsPace seam granted) :
    Paces seam setting (granted + 1) (named "PRIMARY") (Starts seam setting)
      (Arrives seam setting seam.Free Value.Alike) := by
  have hspaced : Paces seam setting granted primary (Starts seam setting)
      (Arrives seam setting seam.Free Value.Alike) :=
    spaced_paces _ (primaryChoice_paces hexpressions) (by decide) (fun _ _ => And.left)
      fun _ _ _ _ hstarts hfree hkept => ⟨hfree, fun hmultiline => hkept (hstarts.2 hmultiline)⟩
  exact hspaced.named (by decide) rfl fun _ _ _ _ _ _ hspot harrives => harrives.back hspot

theorem attributeAccess_paces (granted : Nat) :
    Paces seam setting granted attributeAccess seam.Free
      (Arrives seam setting seam.Free Value.Alike) := by
  have hname : Paces seam setting granted (spaced (named "IDENTIFIER"))
      (seam.Faces (setting.multiline = true)) (Arrives seam setting seam.Free Value.Alike) :=
    spaced_paces _ (identifier_paces granted) (by decide) (fun _ _ => id)
      fun _ _ _ _ _ hfree _ => hfree
  have hpoint : joined ".".toList = true ∧ ".".toList ≠ [] := by decide
  intro scope place otherScope other hspot steps hsteps more
  refine Edit.follows_sequence attributeAccess_form fun fewer hfewer further => ?_
  have hsign := hspot.arrives (.inl (by decide)) (by decide)
    (literal_lands _ _ hpoint.1 hpoint.2 hspot.faces nofun fewer further)
  refine Edit.follows_row_cons hsign fun sign otherSign hafter => ?_
  refine Edit.follows_row_cons (Edit.follows_demand fun few hfew far =>
    hname (hafter.2.settle (by decide)) few ((hfew.trans hfewer).le.trans hsteps) far)
    fun word otherWord hword => ?_
  refine Edit.follows_row_nil ⟨_, _, rfl, rfl, ?_, hword.2⟩
  exact placeless_attributeValue.alike (.list (.cons hafter.1 (.cons hword.1 .nil)))

theorem call_paces (hexpressions : ExpressionsPace seam granted) :
    Paces seam setting granted call seam.Free
      (Arrives seam setting (seam.Faces (seam.Ended (· == Bracket.tuple.closing)))
        Value.Alike) := by
  refine around_paces .tuple callValue _ (fun opened _ => items_pace (hexpressions _)) ?_
  intro token other value otherValue htoken hlisted
  exact placeless_callValue.alike (.list (.cons htoken (.cons hlisted.alike .nil)))

theorem index_paces (hexpressions : ExpressionsPace seam granted) :
    Paces seam setting granted index seam.Free
      (Arrives seam setting (seam.Faces (seam.Ended (· == Bracket.list.closing)))
        Value.Alike) := by
  refine around_paces .list indexValue Value.Alike
    (fun opened _ _ _ _ _ hspot steps hsteps more => ?_) ?_
  · exact Edit.follows_demand fun fewer hfewer further =>
      hexpressions _ (hspot.mono Begun.atStart) fewer (hfewer.le.trans hsteps) further
  · intro token other value otherValue htoken halike
    exact placeless_indexValue.alike (.list (.cons htoken (.cons halike .nil)))

theorem postfixStep_paces (hexpressions : ExpressionsPace seam granted) :
    Paces seam setting granted postfixStep seam.Free
      (Arrives seam setting (seam.Faces (seam.Ended endsSuffix)) Value.Alike) := by
  intro scope place otherScope other hspot steps hsteps more
  refine Edit.follows_choice rfl ?_
  simp only [List.forall_mem_cons, List.not_mem_nil, false_implies, implies_true, and_true]
  refine ⟨fun fewer hfewer further => ?_, fun fewer hfewer further => ?_,
    fun fewer hfewer further => ?_⟩
  · exact (attributeAccess_paces fewer hspot fewer (Nat.le_refl _) further).mono
      fun _ _ harrives => harrives.mono (fun hfree => hfree.mono False.elim) id
  · refine (call_paces hexpressions hspot fewer (hfewer.le.trans hsteps) further).mono
      fun _ _ harrives => harrives.mono (fun hfaces => hfaces.mono fun hended => hended.mono ?_) id
    intro c hc
    rw [beq_iff_eq.mp hc]
    decide
  · refine (index_paces hexpressions hspot fewer (hfewer.le.trans hsteps) further).mono
      fun _ _ harrives => harrives.mono (fun hfaces => hfaces.mono fun hended => hended.mono ?_) id
    intro c hc
    rw [beq_iff_eq.mp hc]
    decide

/-- At the seam, the first match may go on with a postfix operation, and the second does not. -/
theorem postfixStep_goes (hexpressions : ExpressionsPace seam granted) (count : Nat)
    (hspot : Spot seam setting (seam.Faces (seam.Ended endsSuffix)) scope place otherScope other) :
    RoundGoes seam setting granted (dueAfter none count ++ [postfixStep])
      (seam.Faces (seam.Ended endsSuffix)) Value.Alike (Astray seam setting []) scope place
      otherScope other := by
  have hsettled := (hspot.settle (by decide)).faces
  rw [dueAfter_none, List.nil_append]
  have hon (hfree : seam.Free place other) : RoundGoes seam setting granted [postfixStep]
      (seam.Faces (seam.Ended endsSuffix)) Value.Alike (Astray seam setting []) scope place
      otherScope other := by
    refine .on hfree fun fewer hfewer further => ?_
    refine Edit.follows_row_cons (postfixStep_paces hexpressions (hspot.mono fun _ => hfree) fewer
      hfewer.le further) fun _ _ harrives => Edit.follows_row_nil (.inl harrives)
  cases hspot.faces with
  | before hfront hahead hplace hother => exact hon (.before hfront hahead hplace hother)
  | after hback hplace hother => exact hon (.after hback hplace hother)
  | within hended hplace hother =>
      subst hother
      have hsees := (Seam.sees_within hplace).1
      have hmultiline : setting.multiline = true := by
        by_contra hline
        have hclosed : setting.opened = [] := not_not.mp (mt Setting.multiline_iff.mpr hline)
        obtain ⟨c, hc, hends⟩ := hended
        have hseam := Seam.interline (hclosed ▸ hspot.clear) hplace
        cases hseam.newline.symm.trans hc
        cases hends
      by_cases hresumes : ∃ c ∈ seam.back.head?, beginsSuffix c = true
      · have hastray : Astray seam setting [] otherScope other :=
          ⟨⟨hended, hresumes⟩, Seam.openBrackets_front hspot.clear hplace,
            hmultiline ▸ hspot.otherLevel, hplace⟩
        exact .lost hastray (rowMisses_of_first (postfixStep_misses_gap hplace))
      · have hnone : ∀ c ∈ seam.back.head?, c ≠ '.' ∧ c ≠ '(' ∧ c ≠ '[' := by
          intro c hc
          have hother := fun hbegins => hresumes ⟨c, hc, hbegins⟩
          simpa [beginsSuffix, not_or, and_assoc] using hother
        exact .closed fun fewer _ further => Edit.follows_row_closed
          (Edit.of_misses (postfixStep_misses hsees hnone) (postfixStep_misses_gap hplace) _ _)

theorem postfixSteps_form :
    postfixStep.many.form = .repetition postfixStep (.ofCount 0) none none false :=
  rfl

/-- The blanks after the last operation take the gap along. If another operation would have come
next, the second match is lost behind them. -/
theorem postfixed_paces (hexpressions : ExpressionsPace seam granted) :
    Paces seam setting granted postfixed (Starts seam setting)
      (Reaches seam setting seam.Free Value.Alike (Astray seam setting seam.gap)) := by
  intro scope place otherScope other hspot steps hsteps more
  refine Edit.follows_sequence postfixed_form fun fewer hfewer further => ?_
  refine Edit.follows_row_cons (primary_paces hexpressions hspot fewer (by omega) further)
    fun object otherObject hobject => ?_
  have hseries := follows_series (fun _ => seam.Faces (seam.Ended endsSuffix)) Value.Alike
    (Astray seam setting []) postfixSteps_form (fun _ => rfl)
    (fun _ _ => Match.resolveBounds_none (Nat.zero_le _))
    (fun _ _ _ hfaces => ⟨_, hfaces⟩)
    (fun count _ _ _ _ _ hhere => postfixStep_goes
      (fun setting => (hexpressions setting).le (hfewer.le.trans hsteps)) count hhere)
    (fun _ _ _ hastray => rowMisses_part_iff.mpr (postfixStep_misses_gap hastray.offset_eq))
    (.inl rfl)
    (hobject.2.mono fun hfree => hfree.mono False.elim) (Nat.le_refl fewer) further
  have hlevels := hseries.promised (fun success =>
    Level setting.multiline setting.depth success.scope) fun success _ hrun =>
      hobject.2.level.after (matches_of_run hrun) (by decide)
  refine Edit.follows_row_cons hlevels fun steps otherSteps ⟨hreaches, hlevel⟩ => ?_
  rcases hreaches with ⟨hlisted, hends⟩ | hastray
  · have hend := hends.mono fun ⟨_, hfaces⟩ => hfaces
    refine Edit.follows_row_cons (spaces_arrive (hend.settle (by decide))) fun _ _ hblanks => ?_
    obtain ⟨members, others, hmembers, hothers, halike⟩ := hlisted
    rw [hmembers, hothers]
    exact Edit.follows_row_nil ⟨_, _, rfl, rfl, .inl ⟨alike_foldPostfix hobject.1 halike,
      hblanks.2.mono And.left⟩⟩
  · obtain ⟨_, _, -, hfirst⟩ := spaces_match hlevel.ready (fun _ => seam.text_fits)
      (rfl : steps.position.Sees seam.edit.text _)
    obtain ⟨_, hother⟩ := hastray.spaces_match
    have hblanks : seam.edit.Follows
        (fun _ success => Astray seam setting seam.gap success.scope success.position)
        ((named "SPACES").run fewer steps.scope steps.position)
        ((named "SPACES").run further otherSteps.scope otherSteps.position) :=
      Edit.of_matches hfirst hother hastray.past fewer further
    refine Edit.follows_row_cons hblanks fun _ _ hpassed => ?_
    exact Edit.follows_row_nil ⟨_, _, rfl, rfl, .inr hpassed⟩

/-- The scopes that were handed in are as good as those where the matches ended. -/
theorem Reaches.back {success otherSuccess : Match}
    (hreaches : Reaches seam setting ends values (Astray seam setting seam.gap) success
      otherSuccess)
    (hspot : Spot seam setting begins scope place otherScope other) :
    Reaches seam setting ends values (Astray seam setting seam.gap) { success with scope }
      { otherSuccess with scope := otherScope } :=
  hreaches.imp (fun harrives => harrives.back hspot) fun hastray => hastray.back hspot.otherLevel

theorem isMark_spelling (operator : Operator) : isMark operator.spelling = true := by
  cases operator <;> decide

theorem operators_arrive (tier : Tier)
    (hspot : Spot seam setting seam.Free scope place otherScope other) :
    seam.edit.Follows (Arrives seam setting (Starts seam setting) Value.Alike)
      ((((choice (tier.operators.map Operator.spelling |>.map literal)).map fun raw =>
        .text raw.spelling).capture "last_op").run steps scope place)
      ((((choice (tier.operators.map Operator.spelling |>.map literal)).map fun raw =>
        .text raw.spelling).capture "last_op").run more otherScope other) := by
  refine Edit.follows_capture fun few _ far => Edit.follows_map (Edit.follows_choice rfl ?_)
  simp only [List.forall_mem_map]
  refine fun operator _ least _ most => (mark_arrives _ (isMark_spelling operator) hspot).mono
    fun success otherSuccess harrives => ⟨placeless_spelling.alike harrives.1, ?_⟩
  exact harrives.2.bind (by decide) _ _

theorem step_paces {tier : Tier}
    (hoperand : ExpressionPaces seam setting granted (ruleAt (tier.rank + 1))) :
    Paces seam setting granted tier.step seam.Free
      (Reaches seam setting seam.Free Value.Alike (Astray seam setting seam.gap)) := by
  intro scope place otherScope other hspot steps hsteps more
  refine Edit.follows_sequence rfl fun fewer hfewer further => ?_
  refine Edit.follows_row_cons (operators_arrive tier hspot)
    fun operator otherOperator hoperator => ?_
  refine Edit.follows_row_cons (Edit.follows_demand fun few hfew far =>
    hoperand hoperator.2 few (by omega) far) fun right otherRight hright => ?_
  refine Edit.follows_row_nil ⟨_, _, rfl, rfl, hright.imp_left fun harrives => ⟨?_, harrives.2⟩⟩
  exact .list (.cons hoperator.1 (.cons harrives.1 .nil))

theorem steps_form (tier : Tier) :
    tier.step.many.form = .repetition tier.step (.ofCount 0) none none false :=
  rfl

theorem tier_paces {tier : Tier}
    (hoperand : ExpressionPaces seam setting granted (ruleAt (tier.rank + 1))) :
    Paces seam setting granted tier.rule (Starts seam setting)
      (Reaches seam setting seam.Free Value.Alike (Astray seam setting seam.gap)) := by
  intro scope place otherScope other hspot steps hsteps more
  refine Edit.follows_sequence tier.rule_form fun fewer hfewer further => ?_
  refine Edit.follows_row_cons (hoperand hspot fewer (hfewer.le.trans hsteps) further)
    fun left otherLeft hleft => ?_
  rcases hleft with hleft | hastray
  · have hseries := follows_series (fun _ => seam.Free) Value.Alike (Astray seam setting seam.gap)
      (steps_form tier) (fun _ => rfl) (fun _ _ => Match.resolveBounds_none (Nat.zero_le _))
      (fun _ _ _ hfree => ⟨_, hfree⟩) ?_
      (fun _ _ _ hastray => rowMisses_part_iff.mpr (hastray.step_misses tier)) (.inl rfl) hleft.2
      (hfewer.le.trans hsteps) further
    · refine Edit.follows_row_cons hseries fun list otherList hlist => ?_
      refine Edit.follows_row_nil ⟨_, _, rfl, rfl, hlist.imp_left fun harrives => ?_⟩
      obtain ⟨⟨members, others, hmembers, hothers, halike⟩, hends⟩ := harrives
      rw [hmembers, hothers]
      exact ⟨alike_foldOperators hleft.1 halike, hends.mono fun ⟨_, hfree⟩ => hfree⟩
    · intro count here there otherHere otherThere _ hhere
      rw [dueAfter_none, List.nil_append]
      refine .on hhere.faces fun few hfew far => ?_
      refine Edit.follows_row_cons (step_paces hoperand hhere few hfew.le far)
        fun _ _ hreaches => ?_
      exact Edit.follows_row_nil (hreaches.roundArrives [] [] fun _ _ => id)
  · refine Edit.follows_row_cons (follows_series_lost (steps_form tier)
      (fun _ => Match.resolveBounds_none (Nat.zero_le _)) (hastray.step_misses tier) _ _)
      fun list otherList ⟨hscope, hplace⟩ => ?_
    refine Edit.follows_row_nil ⟨_, _, rfl, rfl, .inr ?_⟩
    rw [hscope, hplace]
    exact hastray

theorem tier_named (tier : Tier)
    (hoperand : ExpressionPaces seam setting (granted + 1) (ruleAt (tier.rank + 1))) :
    ExpressionPaces seam setting (granted + 1) (ruleAt tier.rank) := by
  have hname : ruleAt tier.rank ∈ ruleNames := by cases tier <;> decide
  have hrule := (tier_paces (Paces.le hoperand (Nat.le_succ granted))).named hname
    tier.rule_isRule.2 fun _ _ _ _ _ _ hspot hreaches => hreaches.back hspot
  exact hrule

/-- Whatever brackets are open, and however many steps are granted, expressions are matched side
by side; by induction on the steps, since expressions stand in brackets in expressions. -/
theorem operands_pace (seam : Seam) (granted : Nat) (setting : Setting) :
    ExpressionPaces seam setting granted "EXPRESSION" ∧
      ExpressionPaces seam setting granted "POSTFIX" := by
  induction granted generalizing setting with
  | zero =>
      constructor <;>
      · rintro scope place otherScope other - steps hsteps more
        obtain rfl := Nat.le_zero.mp hsteps
        exact .excused trivial _
  | succ granted ih =>
      have hpostfix : ExpressionPaces seam setting (granted + 1) (ruleAt postfixRank) :=
        (postfixed_paces fun setting => (ih setting).1).named (by decide) rfl
          fun _ _ _ _ _ _ hspot hreaches => hreaches.back hspot
      refine ⟨?_, hpostfix⟩
      exact tier_named .comparison (tier_named .sum (tier_named .product
        (tier_named .power hpostfix)))

end ScopedGrammar.Croco
