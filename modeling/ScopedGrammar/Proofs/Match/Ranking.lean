/-
# Ranked grammars

A grammar whose rules refer to themselves must take a character before it comes back to a
rule, or it never ends. A ranking makes this a condition that can be checked rule by rule. It
tells, for every name that means a rule, how many patterns are around each other at most
before a character is taken, and whether the rule always takes one. The height of a pattern
follows from these entries, and every pattern in the grammar must be within a limit.

Overlays change what a name means and captures hide rules, so the check includes that an
overlay only replaces a rule by one that fits the same entry and that captures bind other
names. Then a scope stays ranked throughout a match, which is proved here by induction on
derivations, together with the fact that a pattern that is said to take a character does.
-/

import ScopedGrammar.Proofs.Match.Reach
import ScopedGrammar.Proofs.Match.Tiling

namespace ScopedGrammar

/-- What a rule promises: how many patterns are around each other before it takes a
character, at most, and whether it always takes one. -/
structure Entry where
  height : Nat
  moves : Bool

/-- A rule that keeps one promise keeps another if that promises no more. -/
def Entry.keeps (actual promised : Entry) : Bool :=
  decide (actual.height ≤ promised.height) && (!promised.moves || actual.moves)

theorem Entry.keeps_iff {actual promised : Entry} :
    actual.keeps promised = true ↔
      actual.height ≤ promised.height ∧ (promised.moves = true → actual.moves = true) := by
  cases hpromised : promised.moves <;> simp [keeps, hpromised]

theorem Entry.keeps_trans {first second third : Entry} (hfirst : first.keeps second = true)
    (hsecond : second.keeps third = true) : first.keeps third = true := by
  rw [keeps_iff] at *
  exact ⟨hfirst.1.trans hsecond.1, fun hmoves => hfirst.2 (hsecond.2 hmoves)⟩

/-- The entries of the names that mean rules, a limit to all heights, the greatest width of
an absence, and whether everything in the grammar that is not matched resolves. -/
structure Ranking where
  entries : List (String × Entry)
  limit : Nat
  width : Nat
  resolves : Bool

mutual

/-- Whether a check holds of the form of a pattern and of all forms in it. -/
def Pattern.all (check : Form → Bool) : Pattern → Bool
  | .mk form _ _ => check form && Form.allInside check form

/-- Whether a check holds of all forms in a form. -/
def Form.allInside (check : Form → Bool) : Form → Bool
  | .choice options => Pattern.allOfList check options
  | .sequence parts _ => Pattern.allOfList check parts
  | .repetition part _ _ separator _ =>
      Pattern.all check part && Pattern.allOfOption check separator
  | .absence inner _ => Pattern.all check inner
  | .demand inner _ => Pattern.all check inner
  | .capture inner _ => Pattern.all check inner
  | .overlay inner bindings => Pattern.all check inner && Term.allOfBindings check bindings
  | .reference target => Term.all check target
  | _ => true

/-- Whether a check holds of all forms in a list of patterns. -/
def Pattern.allOfList (check : Form → Bool) : List Pattern → Bool
  | [] => true
  | first :: rest => Pattern.all check first && Pattern.allOfList check rest

/-- Whether a check holds of all forms in a pattern, if there is one. -/
def Pattern.allOfOption (check : Form → Bool) : Option Pattern → Bool
  | none => true
  | some pattern => Pattern.all check pattern

/-- Whether a check holds of all forms in the rule of a term. -/
def Term.all (check : Form → Bool) : Term → Bool
  | .rule pattern => Pattern.all check pattern
  | _ => true

/-- Whether a check holds of all forms in the terms of some bindings. -/
def Term.allOfBindings (check : Form → Bool) : List (String × Term) → Bool
  | [] => true
  | first :: rest => Term.allOfBinding check first && Term.allOfBindings check rest

/-- Whether a check holds of all forms in the term of a binding. -/
def Term.allOfBinding (check : Form → Bool) : String × Term → Bool
  | (_, term) => Term.all check term

end

theorem Pattern.all_iff {check : Form → Bool} {pattern : Pattern} :
    pattern.all check = true ↔
      check pattern.form = true ∧ pattern.form.allInside check = true := by
  cases pattern
  rw [Pattern.all, Bool.and_eq_true]
  rfl

theorem Pattern.allOfList_iff {check : Form → Bool} {patterns : List Pattern} :
    Pattern.allOfList check patterns = true ↔
      ∀ pattern ∈ patterns, pattern.all check = true := by
  induction patterns with
  | nil => simp [Pattern.allOfList]
  | cons first rest ih => rw [Pattern.allOfList, Bool.and_eq_true, ih, List.forall_mem_cons]

theorem Term.allOfBindings_iff {check : Form → Bool} {bindings : List (String × Term)} :
    Term.allOfBindings check bindings = true ↔
      ∀ binding ∈ bindings, binding.2.all check = true := by
  induction bindings with
  | nil => simp [Term.allOfBindings]
  | cons first rest ih =>
      rw [Term.allOfBindings, Bool.and_eq_true, ih, List.forall_mem_cons, Term.allOfBinding]

namespace Ranking

variable (ranking : Ranking)

/-- The entry of a name, if it means a rule. -/
def promise? (name : String) : Option Entry :=
  ranking.entries.lookup name

mutual

/-- Whether every match of a pattern takes a character. -/
def patternMoves : Pattern → Bool
  | .mk form _ _ => formMoves form

/-- Whether every match of a form takes a character. -/
def formMoves : Form → Bool
  | .literal (.const (.text content)) => !content.isEmpty
  | .charClass _ _ => true
  | .choice options => allMove options
  | .sequence parts _ => oneMoves parts
  | .repetition part (.const (.int least)) _ _ _ =>
      decide (0 < least.toInt) && patternMoves part
  | .absence _ width => width != 0
  | .demand inner _ => patternMoves inner
  | .capture inner _ => patternMoves inner
  | .overlay inner _ => patternMoves inner
  | .reference (.rule pattern) => patternMoves pattern
  | .reference (.name name) => (ranking.promise? name).any Entry.moves
  | _ => false

/-- Whether every match of any of the options takes a character. -/
def allMove : List Pattern → Bool
  | [] => true
  | first :: rest => patternMoves first && allMove rest

/-- Whether all matches of patterns in a row take a character. -/
def oneMoves : List Pattern → Bool
  | [] => false
  | first :: rest => patternMoves first || oneMoves rest

end

mutual

/-- How many patterns are around each other in a pattern before a character is taken. -/
def patternHeight : Pattern → Nat
  | .mk form _ _ => formHeight form + 1

/-- How many patterns are around each other in a form before a character is taken. -/
def formHeight : Form → Nat
  | .choice options => greatestHeight options
  | .sequence parts _ => rowHeight parts
  | .repetition part _ _ _ _ => patternHeight part
  | .absence inner _ => patternHeight inner
  | .demand inner _ => patternHeight inner
  | .capture inner _ => patternHeight inner
  | .overlay inner _ => patternHeight inner
  | .reference (.rule pattern) => patternHeight pattern
  | .reference (.name name) => ((ranking.promise? name).map Entry.height).getD 0
  | _ => 0

/-- The greatest height of some options. -/
def greatestHeight : List Pattern → Nat
  | [] => 0
  | first :: rest => max (patternHeight first) (greatestHeight rest)

/-- The height of patterns in a row. What comes after one that moves does not count. -/
def rowHeight : List Pattern → Nat
  | [] => 0
  | first :: rest =>
      if ranking.patternMoves first then patternHeight first
      else max (patternHeight first) (rowHeight rest)

end

/-- What a pattern promises. -/
def entryOf (pattern : Pattern) : Entry where
  height := ranking.patternHeight pattern
  moves := ranking.patternMoves pattern

/-- What the rule of a term promises, if it means a rule. -/
def termPromise? : Term → Option Entry
  | .rule pattern => some (ranking.entryOf pattern)
  | .name name => ranking.promise? name
  | _ => none

theorem formMoves_reference (target : Term) :
    ranking.formMoves (.reference target) = (ranking.termPromise? target).any Entry.moves := by
  cases target <;> simp [formMoves, termPromise?, entryOf]

theorem formHeight_reference (target : Term) :
    ranking.formHeight (.reference target) =
      ((ranking.termPromise? target).map Entry.height).getD 0 := by
  cases target <;> simp [formHeight, termPromise?, entryOf]

theorem patternMoves_eq (pattern : Pattern) :
    ranking.patternMoves pattern = ranking.formMoves pattern.form := by
  cases pattern
  rw [patternMoves]
  rfl

theorem patternHeight_eq (pattern : Pattern) :
    ranking.patternHeight pattern = ranking.formHeight pattern.form + 1 := by
  cases pattern
  rw [patternHeight]
  rfl

theorem moves_of_mem {options : List Pattern} (hall : ranking.allMove options = true)
    {option : Pattern} (hoption : option ∈ options) : ranking.patternMoves option = true := by
  induction options with
  | nil => cases hoption
  | cons first rest ih =>
      rw [allMove, Bool.and_eq_true] at hall
      rcases List.mem_cons.mp hoption with rfl | hrest
      · exact hall.1
      · exact ih hall.2 hrest

theorem height_le_of_mem {options : List Pattern} {option : Pattern}
    (hoption : option ∈ options) :
    ranking.patternHeight option ≤ ranking.greatestHeight options := by
  induction options with
  | nil => cases hoption
  | cons first rest ih =>
      rw [greatestHeight]
      rcases List.mem_cons.mp hoption with rfl | hrest
      · exact Nat.le_max_left _ _
      · exact (ih hrest).trans (Nat.le_max_right _ _)

/-- Whether a binding of an overlay leaves its name what it is: a rule that keeps the
promise of its entry, or no rule. -/
def admitsBinding (binding : String × Term) : Bool :=
  match ranking.promise? binding.1, ranking.termPromise? binding.2 with
  | some promised, some actual => actual.keeps promised
  | none, none => true
  | _, _ => false

/-- Whether a term resolves in every scope that is ranked. -/
def surelyResolves : Term → Bool
  | .const _ => true
  | term => (ranking.termPromise? term).isSome

/-- Whether nothing in a form can be a defect. -/
def sound : Form → Bool
  | .literal (.const content) => content.asText?.isSome
  | .literal _ => false
  | .sequence parts (some picks) => picks.all fun index => decide (index < parts.length)
  | .repetition _ (.const least) none _ _ =>
      match Match.resolveBounds Scope.empty (.const least) none with
      | .ok _ => true
      | .error _ => false
  | .repetition _ (.const least) (some (.const most)) _ _ =>
      match Match.resolveBounds Scope.empty (.const least) (some (.const most)) with
      | .ok _ => true
      | .error _ => false
  | .repetition _ _ _ _ _ => false
  | .overlay _ bindings => bindings.all fun binding => ranking.surelyResolves binding.2
  | .reference target => (ranking.termPromise? target).isSome
  | _ => true

/-- Whether a form is within the ranking. -/
def admits (shape : Form) : Bool :=
  decide (ranking.formHeight shape < ranking.limit) &&
    (!ranking.resolves || ranking.sound shape) &&
    match shape with
    | .absence _ width => decide (width ≤ ranking.width)
    | .capture _ name => (ranking.promise? name).isNone
    | .overlay _ bindings => bindings.all ranking.admitsBinding
    | _ => true

/-- A rule that keeps a promise, in a grammar that is within the ranking. -/
structure Keeps (rule : Pattern) (promised : Entry) : Prop where
  admitted : rule.all ranking.admits = true
  kept : (ranking.entryOf rule).keeps promised = true

/-- A scope in which names mean rules exactly if they have an entry, and rules that keep
their promises. -/
def Ranks (scope : Scope) : Prop :=
  ∀ name, match ranking.promise? name with
    | some promised => ∃ rule, scope.find? name = some (.rule rule) ∧ ranking.Keeps rule promised
    | none => ∀ rule, scope.find? name ≠ some (.rule rule)

namespace Ranks

variable {ranking : Ranking} {scope : Scope}

theorem keeps (hranks : ranking.Ranks scope) {name : String} {rule : Pattern}
    (hfound : scope.find? name = some (.rule rule)) :
    ∃ promised, ranking.promise? name = some promised ∧ ranking.Keeps rule promised := by
  have hname := hranks name
  split at hname
  next promised hentry =>
    obtain ⟨bound, hbound, hkeeps⟩ := hname
    rw [hfound] at hbound
    cases hbound
    exact ⟨promised, hentry, hkeeps⟩
  next => exact absurd hfound (hname rule)

/-- A capture under a name without an entry leaves a scope ranked. -/
theorem bind (hranks : ranking.Ranks scope) {name : String}
    (hname : ranking.promise? name = none) (content : Value) :
    ranking.Ranks (scope.bind name (.value content)) := by
  intro other
  have hother := hranks other
  rw [Scope.find?_bind]
  by_cases hsame : name = other
  · subst hsame
    rw [hname]
    simp
  · simpa only [hsame, if_false] using hother

/-- The rule that a term resolves to keeps the promise of the term. -/
theorem keeps_of_resolve (hranks : ranking.Ranks scope) {term : Term} {rule : Pattern}
    (hterm : term.all ranking.admits = true)
    (hresolved : term.resolve scope = .ok (.rule rule)) :
    ∃ promised, ranking.termPromise? term = some promised ∧ ranking.Keeps rule promised := by
  have hrule := Term.rule?_of_resolve hresolved
  cases term with
  | rule pattern =>
      cases hrule
      refine ⟨_, rfl, hterm, ?_⟩
      simp [Entry.keeps]
  | name looked => exact hranks.keeps (Scope.rule?_eq_some_iff.mp hrule)
  | _ => cases hrule

/-- A term without an entry does not resolve to a rule, and one with an entry does. -/
theorem entry_eq_none_of_resolve (hranks : ranking.Ranks scope) {term : Term} {content : Value}
    (hresolved : term.resolve scope = .ok (.value content)) :
    ranking.termPromise? term = none := by
  cases term with
  | rule pattern => cases hresolved
  | name looked =>
      have hname := hranks looked
      rw [Term.resolve, Scope.lookup] at hresolved
      split at hname
      next promised hentry =>
        obtain ⟨rule, hfound, -⟩ := hname
        rw [hfound] at hresolved
        cases hresolved
      next hentry => exact hentry
  | _ => rfl

/-- The bindings of an overlay within the ranking leave a scope ranked. -/
theorem overlaid (hranks : ranking.Ranks scope) {bindings : List (String × Term)}
    {frame : Frame} (hadmits : bindings.all ranking.admitsBinding = true)
    (hterms : Term.allOfBindings ranking.admits bindings = true)
    (hframe : scope.resolveAll bindings = .ok frame) : ranking.Ranks (scope.push frame) := by
  intro name
  have hname := hranks name
  rw [Scope.find?_push]
  cases hfound : Frame.find? name frame with
  | none => simpa only [Option.none_or] using hname
  | some binding =>
      obtain ⟨term, hbinding, hresolved⟩ := Scope.find?_of_resolveAll hframe hfound
      have hterm := Term.allOfBindings_iff.mp hterms _ hbinding
      have hadmitted := List.all_eq_true.mp hadmits _ hbinding
      rw [Option.some_or]
      cases binding with
      | value content =>
          have hnone := hranks.entry_eq_none_of_resolve hresolved
          rw [admitsBinding, hnone] at hadmitted
          cases hentry : ranking.promise? name with
          | none => simp
          | some promised =>
              rw [hentry] at hadmitted
              cases hadmitted
      | rule rule =>
          obtain ⟨actual, hactual, hkeeps⟩ := hranks.keeps_of_resolve hterm hresolved
          rw [admitsBinding, hactual] at hadmitted
          cases hentry : ranking.promise? name with
          | none =>
              rw [hentry] at hadmitted
              cases hadmitted
          | some promised =>
              rw [hentry] at hadmitted
              exact ⟨rule, rfl, hkeeps.admitted, Entry.keeps_trans hkeeps.kept hadmitted⟩

end Ranks

/-- Whether every match of a task takes a character. -/
def taskMoves : Task → Bool
  | .form shape => ranking.formMoves shape
  | .pattern pattern => ranking.patternMoves pattern
  | .parts parts => ranking.oneMoves parts

/-- Whether a task is within the ranking. -/
def Admits : Task → Prop
  | .form shape => ranking.admits shape = true ∧ shape.allInside ranking.admits = true
  | .pattern pattern => pattern.all ranking.admits = true
  | .parts parts => ∀ part ∈ parts, part.all ranking.admits = true

variable {ranking}

theorem lt_limit_of_admits {shape : Form} (hadmits : ranking.admits shape = true) :
    ranking.formHeight shape < ranking.limit := by
  simp only [admits, Bool.and_eq_true, decide_eq_true_eq] at hadmits
  exact hadmits.1.1

theorem admits_capture {inner : Pattern} {name : String}
    (hadmits : ranking.admits (.capture inner name) = true) : ranking.promise? name = none := by
  simp only [admits, Bool.and_eq_true, Option.isNone_iff_eq_none] at hadmits
  exact hadmits.2

theorem admits_overlay {inner : Pattern} {bindings : List (String × Term)}
    (hadmits : ranking.admits (.overlay inner bindings) = true) :
    bindings.all ranking.admitsBinding = true := by
  simp only [admits, Bool.and_eq_true] at hadmits
  exact hadmits.2

theorem admits_absence {inner : Pattern} {width : Nat}
    (hadmits : ranking.admits (.absence inner width) = true) : width ≤ ranking.width := by
  simp only [admits, Bool.and_eq_true, decide_eq_true_eq] at hadmits
  exact hadmits.2

theorem sound_of_admits {shape : Form} (hadmits : ranking.admits shape = true)
    (hresolves : ranking.resolves = true) : ranking.sound shape = true := by
  simp only [admits, Bool.and_eq_true, hresolves, Bool.not_true, Bool.false_or] at hadmits
  exact hadmits.1.2

theorem moves_repetition {part : Pattern} {least : Term} {most : Option Term}
    {separator : Option Pattern} {keepSeparators : Bool}
    (hmoves : ranking.formMoves (.repetition part least most separator keepSeparators) =
      true) :
    ∃ number, least = .const (.int number) ∧ 0 < number.toInt ∧
      ranking.patternMoves part = true := by
  cases least with
  | const content =>
      cases content with
      | int number =>
          rw [formMoves, Bool.and_eq_true, decide_eq_true_eq] at hmoves
          exact ⟨number, rfl, hmoves⟩
      | _ => cases hmoves
  | _ => cases hmoves

theorem oneMoves_iff {parts : List Pattern} :
    ranking.oneMoves parts = true ↔ ∃ part ∈ parts, ranking.patternMoves part = true := by
  induction parts with
  | nil => simp [oneMoves]
  | cons first rest ih => rw [oneMoves, Bool.or_eq_true, ih, List.exists_mem_cons_iff]

end Ranking

/-- A repetition that has a part has rounds with the part in them. -/
theorem part_mem_unrolled {part : Pattern} {separator : Option Pattern} {count : Nat}
    (hcount : 0 < count) : part ∈ unrolled part separator count := by
  obtain ⟨less, rfl⟩ := Nat.exists_eq_succ_of_ne_zero (Nat.ne_of_gt hcount)
  simp [unrolled]

theorem Match.low_of_resolveBounds {scope : Scope} {number : Int64} {most : Option Term}
    {low : Nat} {high : Option Nat}
    (hbounds : resolveBounds scope (.const (.int number)) most = .ok (low, high)) :
    low = number.toInt.toNat := by
  simp only [resolveBounds, Term.count, Term.value] at hbounds
  split at hbounds
  next => cases hbounds
  next hcount =>
    split at hcount
    · cases hcount
      cases hbounds
      rfl
    · cases hcount
  next hcount =>
    split at hcount
    next =>
      cases hcount
      split at hbounds
      next => cases hbounds
      next =>
        split at hbounds
        · cases hbounds
        · cases hbounds
          rfl
    next => cases hcount

variable {π : Type} [Producer π]

/-- A form that is said to move and takes characters itself takes one at least. -/
theorem Recognises.pos {ranking : Ranking} {shape : Form} {here : Spot π} {count : Nat}
    {next : Input π} (recognised : Recognises shape here count next)
    (hranks : ranking.Ranks here.scope) (hmoves : ranking.formMoves shape = true) :
    0 < count := by
  cases recognised with
  | @literal term expected here next known found =>
      cases term with
      | const content =>
          cases content with
          | text content =>
              cases known
              rw [Ranking.formMoves, Bool.not_eq_true', ← Bool.not_eq_true,
                String.isEmpty_iff] at hmoves
              rw [← String.length_toList, List.length_pos_iff]
              simpa using hmoves
          | _ => cases hmoves
      | _ => cases hmoves
  | text known spelled found =>
      rw [Ranking.formMoves_reference, hranks.entry_eq_none_of_resolve known] at hmoves
      cases hmoves
  | oneChar found fits => exact Nat.one_pos
  | ahead missed => cases hmoves
  | @wide inner width granted here between next missed there =>
      rw [Ranking.formMoves, bne_iff_ne] at hmoves
      exact Nat.pos_of_ne_zero hmoves

/-- A match within a ranking leaves a ranked scope, and takes a character if it is said
to. -/
theorem Derives.ranked {ranking : Ranking} {task : Task} {here there : Spot π}
    {values : List Value} (derived : Derives task here values there)
    (hadmits : ranking.Admits task) (hranks : ranking.Ranks here.scope) :
    ranking.Ranks there.scope ∧
      (ranking.taskMoves task = true → here.position.offset < there.position.offset) := by
  induction derived with
  | token recognised captured =>
      refine ⟨hranks, fun hmoves => ?_⟩
      have hthere := recognised.there
      have hpos := recognised.pos hranks hmoves
      obtain ⟨rfl, -⟩ := captured_eq recognised captured
      rw [Position.offset_past, List.length_take, List.length_drop, Array.length_toList]
      omega
  | finish ended => exact ⟨hranks, fun hmoves => by cases hmoves⟩
  | @choice earlier later option granted here there between value missed chosen ih =>
      have hmem : option ∈ earlier ++ option :: later := by simp
      obtain ⟨hscope, hmoved⟩ := ih (Pattern.allOfList_iff.mp hadmits.2 option hmem) hranks
      exact ⟨hscope, fun hmoves => hmoved (ranking.moves_of_mem hmoves hmem)⟩
  | sequence all picked ih => exact ih (Pattern.allOfList_iff.mp hadmits.2) hranks
  | @repetition part least most separator keepSeparators low high turns here there after
      bounds enough rounds last ih =>
      have hinside := hadmits.2
      rw [Form.allInside, Bool.and_eq_true] at hinside
      have hrounds : ranking.Admits (.parts (unrolled part separator turns.length)) := by
        intro other hother
        rcases mem_unrolled hother with rfl | hseparator
        · exact hinside.1
        · rw [hseparator] at hinside
          exact hinside.2
      obtain ⟨hscope, hmoved⟩ := ih hrounds hranks
      refine ⟨hscope, fun hmoves => hmoved ?_⟩
      obtain ⟨number, rfl, hpositive, hpart⟩ := Ranking.moves_repetition hmoves
      have hlow := Match.low_of_resolveBounds bounds
      refine Ranking.oneMoves_iff.mpr ⟨part, part_mem_unrolled ?_, hpart⟩
      omega
  | demand met ih => exact ih hadmits.2 hranks
  | capture matched ih =>
      obtain ⟨hscope, hmoved⟩ := ih hadmits.2 hranks
      exact ⟨hscope.bind (Ranking.admits_capture hadmits.1) _, hmoved⟩
  | overlay known matched ih =>
      have hinside := hadmits.2
      rw [Form.allInside, Bool.and_eq_true] at hinside
      have hoverlaid := hranks.overlaid (Ranking.admits_overlay hadmits.1) hinside.2 known
      exact ⟨hranks, (ih hinside.1 hoverlaid).2⟩
  | rule known matched ih =>
      obtain ⟨promised, hpromised, hkeeps⟩ := hranks.keeps_of_resolve hadmits.2 known
      refine ⟨hranks, fun hmoves => (ih hkeeps.admitted hranks).2 ?_⟩
      rw [Ranking.taskMoves, Ranking.formMoves_reference, hpromised] at hmoves
      exact (Entry.keeps_iff.mp hkeeps.kept).2 hmoves
  | @pattern target here there value raw ih =>
      rw [Ranking.taskMoves, Ranking.patternMoves_eq]
      exact ih (Pattern.all_iff.mp hadmits) hranks
  | nil => exact ⟨hranks, fun hmoves => by cases hmoves⟩
  | cons first rest ihfirst ihrest =>
      have hfirst := ihfirst (hadmits _ List.mem_cons_self) hranks
      have hrest := ihrest (fun part hpart => hadmits part (List.mem_cons_of_mem _ hpart))
        hfirst.1
      refine ⟨hrest.1, fun hmoves => ?_⟩
      rw [Ranking.taskMoves, Ranking.oneMoves, Bool.or_eq_true] at hmoves
      rcases hmoves with hmoves | hmoves
      · exact Nat.lt_of_lt_of_le (hfirst.2 hmoves) rest.leads.offset_le
      · exact Nat.lt_of_le_of_lt first.leads.offset_le (hrest.2 hmoves)

end ScopedGrammar
