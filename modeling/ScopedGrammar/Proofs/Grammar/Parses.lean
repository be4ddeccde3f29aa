/-
# What parses come to

A parse yields a value exactly if the start rule matches the whole text with that value,
given that enough steps are granted. For a grammar within a ranking it is known how many are
enough, and then every other parse ends with an error that the ranking allows.
-/

import ScopedGrammar.Grammar.Basic
import ScopedGrammar.Proofs.Match.Meaning
import ScopedGrammar.Proofs.Match.Termination

namespace ScopedGrammar

/-- The binding that a frame has for a name is among its bindings. -/
theorem Frame.mem_of_find? {frame : Frame} {name : String} {binding : Binding}
    (hfound : Frame.find? name frame = some binding) : (name, binding) ∈ frame := by
  induction frame with
  | nil => cases hfound
  | cons first rest ih =>
      obtain ⟨key, bound⟩ := first
      rw [Frame.find?] at hfound
      split at hfound
      next later hlater =>
        cases hfound
        exact List.mem_cons_of_mem _ (ih hlater)
      next =>
        split at hfound
        next hkey =>
          cases hfound
          subst hkey
          exact List.mem_cons_self
        next => cases hfound

/-- A frame has a binding for every name that it binds. -/
theorem Frame.isSome_find?_of_mem {frame : Frame} {name : String} {binding : Binding}
    (hmem : (name, binding) ∈ frame) : (Frame.find? name frame).isSome = true := by
  induction frame with
  | nil => cases hmem
  | cons first rest ih =>
      obtain ⟨key, bound⟩ := first
      rw [Frame.find?]
      rcases List.mem_cons.mp hmem with hfirst | hrest
      · cases hfirst
        split <;> simp
      · obtain ⟨later, hlater⟩ := Option.isSome_iff_exists.mp (ih hrest)
        rw [hlater]
        rfl

namespace Ranking

variable {ranking : Ranking}

/-- Whether a definition is within a ranking: its name has an entry exactly if it means a
rule, and the rule keeps what the entry promises. -/
def admitsDefinition (ranking : Ranking) (definition : String × Binding) : Bool :=
  match ranking.promise? definition.1, definition.2 with
  | some promised, .rule rule =>
      rule.all ranking.admits && (ranking.entryOf rule).keeps promised
  | none, .value _ => true
  | _, _ => false

/-- Whether definitions are within a ranking: each of them is, and every name with an entry
is defined. -/
def admitsDefinitions (ranking : Ranking) (definitions : Frame) : Bool :=
  definitions.all ranking.admitsDefinition &&
    ranking.entries.all fun entry => definitions.any fun definition => definition.1 == entry.1

theorem keeps_labelled {rule : Pattern} {promised : Entry} (hkeeps : ranking.Keeps rule promised)
    (label : String) : ranking.Keeps (rule.labelled label) promised where
  admitted := by
    have hadmitted := Pattern.all_iff.mp hkeeps.admitted
    exact Pattern.all_iff.mpr hadmitted
  kept := by
    have hkept := hkeeps.kept
    rw [entryOf, patternHeight_eq, patternMoves_eq] at hkept ⊢
    exact hkept

theorem mem_of_promise? {name : String} {promised : Entry}
    (hentry : ranking.promise? name = some promised) : (name, promised) ∈ ranking.entries := by
  obtain ⟨before, after, hentries, -⟩ := List.lookup_eq_some_iff.mp hentry
  rw [hentries]
  simp

/-- Every definition is bound to its name in the grammar. -/
theorem mem_defined {definitions : Frame} {definition : String × Binding} {name : String}
    (hdefinition : definition ∈ definitions) (hname : definition.1 = name) :
    ∃ binding, (name, binding) ∈ definitions.map fun definition =>
      Grammar.define definition.1 definition.2 := by
  obtain ⟨key, bound⟩ := definition
  cases hname
  refine ⟨(Grammar.define key bound).2, List.mem_map.mpr ⟨_, hdefinition, ?_⟩⟩
  cases bound <;> rfl

/-- The scope of a grammar whose definitions are within a ranking is ranked. -/
theorem ranks_ofDefinitions {definitions : Frame} (start : String)
    (hadmits : ranking.admitsDefinitions definitions = true) :
    ranking.Ranks (Grammar.ofDefinitions definitions start).scope := by
  rw [admitsDefinitions, Bool.and_eq_true, List.all_eq_true, List.all_eq_true] at hadmits
  intro name
  have hscope : (Grammar.ofDefinitions definitions start).scope.find? name =
      Frame.find? name (definitions.map fun definition =>
        Grammar.define definition.1 definition.2) := by
    rw [Grammar.ofDefinitions, Scope.find?_push, Scope.find?_empty, Option.or_none]
  rw [hscope]
  cases hentry : ranking.promise? name with
  | none =>
      intro rule hfound
      obtain ⟨definition, hmem, hdefined⟩ := List.mem_map.mp (Frame.mem_of_find? hfound)
      have hdefinition := hadmits.1 definition hmem
      obtain ⟨key, binding⟩ := definition
      cases binding with
      | value content => cases hdefined
      | rule pattern =>
          cases hdefined
          rw [admitsDefinition, hentry] at hdefinition
          cases hdefinition
  | some promised =>
      have hnamed := hadmits.2 (name, promised) (mem_of_promise? hentry)
      obtain ⟨definition, hdefinition, hkey⟩ := List.any_eq_true.mp hnamed
      obtain ⟨other, hother⟩ := mem_defined hdefinition (beq_iff_eq.mp hkey)
      obtain ⟨binding, hfound⟩ := Option.isSome_iff_exists.mp (Frame.isSome_find?_of_mem hother)
      obtain ⟨⟨key, bound⟩, hmem, hdefined⟩ := List.mem_map.mp (Frame.mem_of_find? hfound)
      have hwithin := hadmits.1 _ hmem
      cases bound with
      | value content =>
          cases hdefined
          rw [admitsDefinition, hentry] at hwithin
          cases hwithin
      | rule pattern =>
          cases hdefined
          rw [admitsDefinition, hentry] at hwithin
          obtain ⟨hrule, hkept⟩ := Bool.and_eq_true_iff.mp hwithin
          exact ⟨_, hfound, keeps_labelled ⟨hrule, hkept⟩ _⟩

end Ranking

namespace Grammar

variable {grammar : Grammar} {granted : Nat} {text : String} {value : Value}

theorem leftOver_eq (place : Position) (input : Input Silence) :
    ∃ diagnostic, (Run.leftOver place input).1 = .error (.diagnostic diagnostic) :=
  ⟨_, rfl⟩

/-- A text ends where nothing more of it is seen. -/
theorem isEnd_ofText (place : Position) :
    (Input.ofText text).isEnd place.offset =
      (decide (place.Sees text []), Input.ofText text) := by
  rw [Input.isEnd, Input.charAt_ofText]
  by_cases hthere : text.toList.length ≤ place.offset
  · have hsees : place.Sees text [] := List.drop_eq_nil_iff.mpr hthere
    simp [hsees, List.getElem?_eq_none hthere]
  · have hsees : ¬ place.Sees text [] := mt List.drop_eq_nil_iff.mp hthere
    simp only [hsees, decide_false]
    rw [List.getElem?_eq_getElem (Nat.lt_of_not_le hthere)]
    rfl

/-- With a start rule, a parse is decided by a run of that rule. -/
theorem parse_eq {rule : Pattern} (hrule : grammar.scope.rule? grammar.start = some rule) :
    grammar.parse granted text =
      match (rule.run granted grammar.scope Position.start (Input.ofText text)).1 with
      | .matched success =>
          if success.position.Sees text [] then .ok success.value
          else (Run.leftOver success.position (Input.ofText text)).1
      | .missed => (Run.leftOver Position.start (Input.ofText text)).1
      | .halted reason => .error reason := by
  have hstart : grammar.run.scope.rule? grammar.run.start = some rule := hrule
  have hleading : (grammar.run.leadingPart granted : Attempt Silence (Value × Position)) =
      (rule.run granted grammar.scope Position.start >>= fun matched =>
        pure (matched.value, matched.position)) := by
    unfold Run.leadingPart
    rw [hstart]
    rfl
  rw [parse, Run.whole, hleading]
  cases hrun : rule.run granted grammar.scope Position.start (Input.ofText text) with
  | mk verdict after =>
      have hsame := (Steady.run rule grammar.scope Position.start).settled hrun
      subst hsame
      simp only [Attempt.bind_eq_andThen, Attempt.andThen, hrun]
      cases verdict with
      | missed => rfl
      | halted reason => rfl
      | matched success =>
          dsimp only [Attempt.pure_eq_succeed, Attempt.succeed]
          rw [isEnd_ofText]
          by_cases hend : success.position.Sees text [] <;> simp [hend]

theorem parse_eq_error (hrule : grammar.scope.rule? grammar.start = none) :
    grammar.parse granted text = .error (.defect (.unknownRule grammar.start)) := by
  have hstart : grammar.run.scope.rule? grammar.run.start = none := hrule
  simp only [parse, Run.whole, Run.leadingPart, hstart]
  rfl

/-- What a parse yields, the start rule matches with, up to the end of the text. -/
theorem matches_of_parse (hparse : grammar.parse granted text = .ok value) :
    ∃ rule stop inner, grammar.scope.rule? grammar.start = some rule ∧
      rule.Matches text grammar.scope Position.start ⟨value, stop, inner⟩ ∧
      stop.Sees text [] := by
  cases hrule : grammar.scope.rule? grammar.start with
  | none =>
      rw [parse_eq_error hrule] at hparse
      cases hparse
  | some rule =>
      rw [parse_eq hrule] at hparse
      cases hrun : rule.run granted grammar.scope Position.start (Input.ofText text) with
      | mk verdict after =>
          have hsame := (Steady.run rule grammar.scope Position.start).settled hrun
          subst hsame
          rw [hrun] at hparse
          cases verdict with
          | missed => cases hparse
          | halted reason => cases hparse
          | matched success =>
              dsimp only at hparse
              split at hparse
              next hend =>
                cases hparse
                exact ⟨rule, success.position, success.scope, rfl, ⟨rfl, granted, hrun⟩, hend⟩
              next => cases hparse

/-- A match of the start rule up to the end of the text is what a parse yields that does not
run out of steps. -/
theorem parse_eq_ok {rule : Pattern} {success : Match}
    (hrule : grammar.scope.rule? grammar.start = some rule)
    (hmatches : rule.Matches text grammar.scope Position.start success)
    (hend : success.position.Sees text [])
    (hrun : (rule.run granted grammar.scope Position.start (Input.ofText text)).1.isExhausted =
      false) : grammar.parse granted text = .ok success.value := by
  have hmatched := hmatches.eq_of_run (.run rule grammar.scope Position.start) hrun
  rw [parse_eq hrule, hmatched]
  exact if_pos hend

end Grammar

section Ranked

variable {ranking : Ranking} {definitions : Frame} {start : String} {promised : Entry}
  {granted : Nat} {text : String}

/-- A start with an entry is a rule of the grammar. -/
theorem Ranking.rule_of_entry (hadmits : ranking.admitsDefinitions definitions = true)
    (hentry : ranking.promise? start = some promised) :
    ∃ rule, (Grammar.ofDefinitions definitions start).scope.rule? start = some rule ∧
      ranking.Keeps rule promised := by
  have hstart := ranking.ranks_ofDefinitions start hadmits start
  rw [hentry] at hstart
  obtain ⟨rule, hfound, hkeeps⟩ := hstart
  exact ⟨rule, Scope.rule?_eq_some_iff.mpr hfound, hkeeps⟩

/-- A match of the start rule up to the end of the text is what a parse yields that is
granted enough steps. -/
theorem Ranking.parse_eq_ok (hadmits : ranking.admitsDefinitions definitions = true)
    (hentry : ranking.promise? start = some promised)
    (hgranted : ranking.limit * (text.length + 1) ≤ granted) {rule : Pattern}
    {success : Match}
    (hrule : (Grammar.ofDefinitions definitions start).scope.rule? start = some rule)
    (hmatches : rule.Matches text (Grammar.ofDefinitions definitions start).scope
      Position.start success) (hend : success.position.Sees text []) :
    (Grammar.ofDefinitions definitions start).parse granted text = .ok success.value := by
  obtain ⟨other, hother, hkeeps⟩ := ranking.rule_of_entry hadmits hentry
  cases hrule.symm.trans hother
  apply Grammar.parse_eq_ok hrule hmatches hend
  exact ranking.run_not_exhausted (ranking.ranks_ofDefinitions start hadmits)
    hkeeps.admitted (Nat.zero_le _) hgranted

/-- A parse that is granted enough steps ends with a value or with a diagnostic, unless
something may not resolve or offsets may leave their word. -/
theorem Ranking.parse_cases (hadmits : ranking.admitsDefinitions definitions = true)
    (hentry : ranking.promise? start = some promised)
    (hgranted : ranking.limit * (text.length + 1) ≤ granted) :
    match (Grammar.ofDefinitions definitions start).parse granted text with
    | .ok _ => True
    | .error (.diagnostic _) => True
    | .error (.defect _) => ranking.resolves = false
    | .error .overflow => 0 < ranking.width ∧ offsetBound ≤ text.length + ranking.width
    | .error .exhausted => False := by
  obtain ⟨rule, hrule, hkeeps⟩ := ranking.rule_of_entry hadmits hentry
  have hranks := ranking.ranks_ofDefinitions start hadmits
  have hrun : (rule.run granted (Grammar.ofDefinitions definitions start).scope
      Position.start (Input.ofText text)).1.isExhausted = false :=
    ranking.run_not_exhausted hranks hkeeps.admitted (Nat.zero_le _) hgranted
  rw [Grammar.parse_eq hrule]
  cases hending : rule.run granted (Grammar.ofDefinitions definitions start).scope
      Position.start (Input.ofText text) with
  | mk verdict after =>
      rw [hending] at hrun
      cases verdict with
      | matched success =>
          dsimp only
          by_cases hend : success.position.Sees text []
          · rw [if_pos hend]
            trivial
          · obtain ⟨diagnostic, hleft⟩ := Grammar.leftOver_eq success.position (Input.ofText text)
            rw [if_neg hend, hleft]
            trivial
      | missed => trivial
      | halted reason =>
          have hallowed := (halts_of_run granted hending).allowed rfl (Nat.zero_le _) hranks
            hkeeps.admitted
          cases reason with
          | exhausted => cases hrun
          | diagnostic diagnostic => trivial
          | defect defect => exact hallowed
          | overflow => exact hallowed

/-- Where every name resolves and no distance is named, a parse that is granted enough steps
yields a value or a diagnostic. -/
theorem Ranking.parse_ok_or_diagnostic (hadmits : ranking.admitsDefinitions definitions = true)
    (hentry : ranking.promise? start = some promised)
    (hgranted : ranking.limit * (text.length + 1) ≤ granted)
    (hresolves : ranking.resolves = true) (hwidth : ranking.width = 0) :
    (∃ value, (Grammar.ofDefinitions definitions start).parse granted text = .ok value) ∨
      ∃ diagnostic, (Grammar.ofDefinitions definitions start).parse granted text =
        .error (.diagnostic diagnostic) := by
  have hcases := ranking.parse_cases hadmits hentry hgranted
  split at hcases
  next value hparse => exact .inl ⟨value, hparse⟩
  next diagnostic hparse => exact .inr ⟨diagnostic, hparse⟩
  next => exact absurd (hresolves.symm.trans hcases) (by decide)
  next => exact absurd hcases.1 (hwidth ▸ Nat.lt_irrefl 0)
  next => exact hcases.elim

end Ranked

end ScopedGrammar
