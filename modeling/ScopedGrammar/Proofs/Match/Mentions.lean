/-
# The names that a match depends on

A pattern mentions names in its terms and in the messages of its demands, and so do the
rules that these names mean. A set of names is closed in a scope if the rules it binds to
names of the set mention no other names. If a closed set has all names that a pattern
mentions, then nothing else in the scope matters to a match of the pattern: two scopes that
bind these names alike give the same match, the same miss or the same error, whatever
frames they have and whatever else they bind. In particular the order in which a grammar is
given its definitions does not matter, as long as no name is defined twice.
-/

import ScopedGrammar.Grammar.Basic
import ScopedGrammar.Proofs.Match.Accord
import ScopedGrammar.Proofs.Match.Reach
import Mathlib.Data.Set.Basic

namespace ScopedGrammar

/-- The name that a piece of a template asks for, if it asks for one. -/
def Message.Piece.mentions : Message.Piece → List String
  | .name looked => [looked]
  | .lineOf looked => [looked]
  | .columnOf looked => [looked]
  | _ => []

/-- The names that the placeholders of a message ask for. -/
def Message.mentions (message : Message) : List String :=
  message.pieces.flatMap Message.Piece.mentions

mutual

/-- The names that a pattern mentions. Names that it binds are not among them. -/
def Pattern.mentions : Pattern → List String
  | .mk form _ _ => Form.mentions form

/-- The names that a form mentions. -/
def Form.mentions : Form → List String
  | .literal text => Term.mentions text
  | .choice options => Pattern.mentionsOfAll options
  | .sequence parts _ => Pattern.mentionsOfAll parts
  | .repetition part least most separator _ =>
      Pattern.mentions part ++ Pattern.mentionsOfOption separator ++ Term.mentions least ++
        Term.mentionsOfOption most
  | .absence inner _ => Pattern.mentions inner
  | .demand inner message => Pattern.mentions inner ++ message.mentions
  | .capture inner _ => Pattern.mentions inner
  | .overlay inner bindings => Pattern.mentions inner ++ Term.mentionsOfBindings bindings
  | .reference target => Term.mentions target
  | _ => []

/-- The names that some patterns mention. -/
def Pattern.mentionsOfAll : List Pattern → List String
  | [] => []
  | first :: rest => Pattern.mentions first ++ Pattern.mentionsOfAll rest

/-- The names that a pattern mentions, if there is one. -/
def Pattern.mentionsOfOption : Option Pattern → List String
  | none => []
  | some pattern => Pattern.mentions pattern

/-- The names that a term mentions, those in its rules included. -/
def Term.mentions : Term → List String
  | .const _ => []
  | .rule pattern => Pattern.mentions pattern
  | .name looked => [looked]
  | .sum looked other => looked :: Term.mentions other
  | .product looked other => looked :: Term.mentions other
  | .conditional looked whenTrue whenFalse =>
      looked :: (Term.mentions whenTrue ++ Term.mentions whenFalse)

/-- The names that a term mentions, if there is one. -/
def Term.mentionsOfOption : Option Term → List String
  | none => []
  | some term => Term.mentions term

/-- The names that the terms of some bindings mention. -/
def Term.mentionsOfBindings : List (String × Term) → List String
  | [] => []
  | first :: rest => Term.mentionsOfBinding first ++ Term.mentionsOfBindings rest

/-- The names that the term of a binding mentions. -/
def Term.mentionsOfBinding : String × Term → List String
  | (_, term) => Term.mentions term

end

/-- Whether all names of a list are in a set. -/
def Covers (names : Set String) (mentioned : List String) : Prop :=
  ∀ name ∈ mentioned, name ∈ names

theorem covers_append {names : Set String} {first second : List String} :
    Covers names (first ++ second) ↔ Covers names first ∧ Covers names second := by
  simp only [Covers, List.forall_mem_append]

theorem covers_cons {names : Set String} {first : String} {rest : List String} :
    Covers names (first :: rest) ↔ first ∈ names ∧ Covers names rest := by
  simp only [Covers, List.forall_mem_cons]

namespace Scope

/-- Two scopes bind each name of a set alike. -/
def AgreesOn (names : Set String) (first second : Scope) : Prop :=
  ∀ name ∈ names, first.find? name = second.find? name

/-- The rules that a scope binds to names of a set mention no names outside it. -/
def ClosedOn (names : Set String) (scope : Scope) : Prop :=
  ∀ name ∈ names, ∀ rule, scope.find? name = some (.rule rule) → Covers names rule.mentions

end Scope

/-- Two verdicts are the same, but for scopes that agree on some names. -/
inductive Verdict.AgreesOn (names : Set String) : Verdict Match → Verdict Match → Prop
  | matched (value : Value) (position : Position) {first second : Scope}
      (hscopes : first.AgreesOn names second) :
      AgreesOn names (.matched ⟨value, position, first⟩) (.matched ⟨value, position, second⟩)
  | missed : AgreesOn names .missed .missed
  | halted (reason : Halt) : AgreesOn names (.halted reason) (.halted reason)

/-- The accord between a match and the same match in a scope that agrees on some names. -/
def Accord.mentioning (π : Type) (names : Set String) : Accord π π where
  inputs := Eq
  places := Eq
  values := Eq
  contents := Eq
  scopes scope other := scope.ClosedOn names ∧ scope.AgreesOn names other
  patterns pattern other := Covers names pattern.mentions ∧ pattern = other
  terms term other := Covers names term.mentions ∧ term = other
  targets term other := Covers names term.mentions ∧ term = other
  messages message other := Covers names message.mentions ∧ message = other
  halts := Eq
  excuses _ := False
  pardons _ := False
  steps := Eq

section Agreement

variable {names : Set String} {first second : Scope}

theorem Scope.AgreesOn.lookup_eq (hagrees : first.AgreesOn names second) {looked : String}
    (hlooked : looked ∈ names) : first.lookup looked = second.lookup looked := by
  rw [Scope.lookup, Scope.lookup, hagrees looked hlooked]

theorem Scope.AgreesOn.lookupValue_eq (hagrees : first.AgreesOn names second)
    {looked : String} (hlooked : looked ∈ names) :
    first.lookupValue looked = second.lookupValue looked := by
  rw [Scope.lookupValue, Scope.lookupValue, hagrees.lookup_eq hlooked]

/-- By recursion on the term: its value is computed from the values of the names in it. -/
theorem Scope.AgreesOn.termValue_eq (hagrees : first.AgreesOn names second) :
    (term : Term) → Covers names term.mentions → term.value first = term.value second
  | .const content, _ => rfl
  | .rule pattern, _ => rfl
  | .name looked, hcovers => hagrees.lookupValue_eq (hcovers looked List.mem_cons_self)
  | .sum looked other, hcovers => by
      rw [Term.mentions, covers_cons] at hcovers
      rw [Term.value_sum, Term.value_sum, hagrees.lookupValue_eq hcovers.1,
        termValue_eq hagrees other hcovers.2]
  | .product looked other, hcovers => by
      rw [Term.mentions, covers_cons] at hcovers
      rw [Term.value_product, Term.value_product, hagrees.lookupValue_eq hcovers.1,
        termValue_eq hagrees other hcovers.2]
  | .conditional looked whenTrue whenFalse, hcovers => by
      rw [Term.mentions, covers_cons, covers_append] at hcovers
      obtain ⟨hlooked, hwhenTrue, hwhenFalse⟩ := hcovers
      rw [Term.value_conditional, Term.value_conditional, hagrees.lookupValue_eq hlooked,
        termValue_eq hagrees whenTrue hwhenTrue, termValue_eq hagrees whenFalse hwhenFalse]

theorem Scope.AgreesOn.termResolve_eq (hagrees : first.AgreesOn names second) {term : Term}
    (hcovers : Covers names term.mentions) : term.resolve first = term.resolve second := by
  have hvalue := hagrees.termValue_eq term hcovers
  cases term with
  | const content => rfl
  | rule pattern => rfl
  | name looked => exact hagrees.lookup_eq (hcovers looked List.mem_cons_self)
  | sum looked other => exact congrArg (Except.map Binding.value) hvalue
  | product looked other => exact congrArg (Except.map Binding.value) hvalue
  | conditional looked whenTrue whenFalse => exact congrArg (Except.map Binding.value) hvalue

/-- What a term leads to in a closed scope mentions no further names. -/
theorem Scope.ClosedOn.covers_of_resolve (hclosed : first.ClosedOn names) {term : Term}
    (hcovers : Covers names term.mentions) {rule : Pattern}
    (hresolved : term.resolve first = .ok (.rule rule)) : Covers names rule.mentions := by
  have hrule := Term.rule?_of_resolve hresolved
  cases term with
  | rule pattern =>
      cases hrule
      exact hcovers
  | name looked =>
      exact hclosed looked (hcovers looked List.mem_cons_self) rule
        (Scope.rule?_eq_some_iff.mp hrule)
  | _ => cases hrule

variable {π : Type}

theorem resolved_resolve_mentioning (hclosed : first.ClosedOn names)
    (hagrees : first.AgreesOn names second) {term : Term}
    (hcovers : Covers names term.mentions) :
    (Accord.mentioning π names).Resolved (Accord.mentioning π names).Bindings
      (term.resolve first) (term.resolve second) := by
  rw [← hagrees.termResolve_eq hcovers]
  cases hresolved : term.resolve first with
  | error defect => exact .error rfl
  | ok binding =>
      cases binding with
      | value content => exact .ok (.value rfl)
      | rule rule => exact .ok (.rule ⟨hclosed.covers_of_resolve hcovers hresolved, rfl⟩)

theorem closedOn_bind (hclosed : first.ClosedOn names) (name : String) (content : Value) :
    (first.bind name (.value content)).ClosedOn names := by
  intro looked hlooked rule hfound
  rw [Scope.find?_bind] at hfound
  split at hfound
  · cases hfound
  · exact hclosed looked hlooked rule hfound

theorem agreesOn_bind (hagrees : first.AgreesOn names second) (name : String)
    (content : Value) :
    (first.bind name (.value content)).AgreesOn names
      (second.bind name (.value content)) := by
  intro looked hlooked
  rw [Scope.find?_bind, Scope.find?_bind, hagrees looked hlooked]

theorem scopes_push_mentioning {frame other : Frame} (hclosed : first.ClosedOn names)
    (hagrees : first.AgreesOn names second)
    (hframes : (Accord.mentioning π names).Frames frame other) :
    (first.push frame).ClosedOn names ∧
      (first.push frame).AgreesOn names (second.push other) := by
  constructor
  · intro looked hlooked rule hfound
    rw [Scope.find?_push, Option.or_eq_some_iff] at hfound
    rcases hfound with hfound | ⟨-, hbelow⟩
    · have hbindings := hframes.find? looked
      rw [hfound] at hbindings
      generalize Frame.find? looked other = otherFound at hbindings
      cases hbindings with
      | some hbinding =>
          cases hbinding with
          | rule hpatterns => exact hpatterns.1
    · exact hclosed looked hlooked rule hbelow
  · intro looked hlooked
    rw [Scope.find?_push, Scope.find?_push, hagrees looked hlooked]
    have hbindings := hframes.find? looked
    generalize Frame.find? looked frame = found at hbindings ⊢
    generalize Frame.find? looked other = otherFound at hbindings ⊢
    cases hbindings with
    | none => rfl
    | some hbinding =>
        cases hbinding with
        | value hcontents => cases hcontents; rfl
        | rule hpatterns => cases hpatterns.2; rfl

variable [Producer π]

theorem renderPieces_eq_of_agreesOn (hagrees : first.AgreesOn names second)
    (place : Position) {pieces : List Message.Piece}
    (hcovers : Covers names (pieces.flatMap Message.Piece.mentions)) (input : Input π) :
    Message.renderPieces first place pieces input =
      Message.renderPieces second place pieces input := by
  induction pieces generalizing input with
  | nil => rfl
  | cons piece rest ih =>
      rw [List.flatMap_cons, covers_append] at hcovers
      have hpiece : piece.render first place input = piece.render second place input := by
        cases piece with
        | name looked =>
            rw [Message.Piece.render, Message.Piece.render, Message.ofName, Message.ofName,
              hagrees looked (hcovers.1 looked List.mem_cons_self)]
        | lineOf looked =>
            rw [Message.Piece.render, Message.Piece.render, Message.ofLine, Message.ofLine,
              Scope.value?, Scope.value?, hagrees looked (hcovers.1 looked List.mem_cons_self)]
        | columnOf looked =>
            rw [Message.Piece.render, Message.Piece.render, Message.ofColumn, Message.ofColumn,
              Scope.value?, Scope.value?, hagrees looked (hcovers.1 looked List.mem_cons_self)]
        | _ => rfl
      rw [Message.renderPieces, Message.renderPieces, hpiece]
      simp only [ih hcovers.2]

namespace Accord

theorem complain_mentioning {message : Message} (hagrees : first.AgreesOn names second)
    (hcovers : Covers names message.mentions) (place : Position) :
    (Accord.mentioning π names).InStep (Accord.mentioning π names).Successes
      (Match.complain message first place) (Match.complain message second place) := by
  have hread : (Accord.mentioning π names).InStep Eq
      (Attempt.read (π := π) (message.render first place))
      (Attempt.read (message.render second place)) := by
    refine .read fun hinputs => ?_
    cases hinputs
    rw [Message.render, Message.render, renderPieces_eq_of_agreesOn hagrees place hcovers]
    exact ⟨rfl, rfl⟩
  refine .bind hread ?_
  rintro text _ rfl
  have hexpected : (Accord.mentioning π names).InStep Eq
      (Attempt.read (π := π) (Diagnostic.expected text place))
      (Attempt.read (Diagnostic.expected text place)) := by
    refine .read fun hinputs => ?_
    cases hinputs
    exact ⟨rfl, rfl⟩
  refine .bind hexpected ?_
  rintro diagnostic _ rfl
  exact .halt rfl

theorem scopes_mentioning (names : Set String) : (Accord.mentioning π names).Scopes where
  value := by
    rintro term _ scope other ⟨hcovers, rfl⟩ ⟨-, hagrees⟩
    rw [hagrees.termValue_eq term hcovers]
    exact .of_eq (fun _ => rfl) (fun _ => rfl) _
  resolve := by
    rintro term _ scope other ⟨hcovers, rfl⟩ ⟨hclosed, hagrees⟩
    exact resolved_resolve_mentioning hclosed hagrees hcovers
  asText := by
    rintro content _ rfl
    rfl
  asInt := by
    rintro content _ rfl
    rfl
  notText := by
    rintro term _ content _ ⟨-, rfl⟩ rfl
    rfl
  notParsable := by
    rintro term _ content _ ⟨-, rfl⟩ rfl
    rfl
  invalidBound := by
    rintro content _ rfl
    rfl
  bind := by
    rintro scope other content _ ⟨hclosed, hagrees⟩ rfl name
    exact ⟨closedOn_bind hclosed name content, agreesOn_bind hagrees name content⟩
  push := by
    rintro scope other frame otherFrame ⟨hclosed, hagrees⟩ hframes
    exact scopes_push_mentioning hclosed hagrees hframes
  complain := by
    rintro message _ scope other place _ ⟨hcovers, rfl⟩ ⟨-, hagrees⟩ rfl
    exact complain_mentioning hagrees hcovers place
  defect _ := rfl
  exhausted := rfl
  steps_pred := Nat.succ.inj
  excuses_of_steps hsteps := nomatch hsteps
  pardons_of_steps hsteps := nomatch hsteps

omit [Producer π] in
theorem patterns_mentionsOfAll {patterns : List Pattern}
    (hcovers : Covers names (Pattern.mentionsOfAll patterns)) :
    List.Forall₂ (Accord.mentioning π names).patterns patterns patterns := by
  induction patterns with
  | nil => exact .nil
  | cons first rest ih =>
      rw [Pattern.mentionsOfAll, covers_append] at hcovers
      exact .cons ⟨hcovers.1, rfl⟩ (ih hcovers.2)

omit [Producer π] in
theorem targets_mentionsOfBindings {bindings : List (String × Term)}
    (hcovers : Covers names (Term.mentionsOfBindings bindings)) :
    List.Forall₂ (fun entry other => entry.1 = other.1 ∧
      (Accord.mentioning π names).targets entry.2 other.2) bindings bindings := by
  induction bindings with
  | nil => exact .nil
  | cons first rest ih =>
      obtain ⟨name, term⟩ := first
      rw [Term.mentionsOfBindings, covers_append] at hcovers
      exact .cons ⟨rfl, hcovers.1, rfl⟩ (ih hcovers.2)

omit [Producer π] in
theorem forms_mentioning {shape : Form} (hcovers : Covers names shape.mentions) :
    (Accord.mentioning π names).Forms shape shape := by
  cases shape with
  | literal text => exact .literal ⟨hcovers, rfl⟩
  | charClass members excluded => exact .charClass members excluded
  | choice options => exact .choice (patterns_mentionsOfAll hcovers)
  | sequence parts picks => exact .sequence (patterns_mentionsOfAll hcovers) picks
  | repetition part least most separator keepSeparators =>
      simp only [Form.mentions, covers_append] at hcovers
      obtain ⟨⟨⟨hpart, hseparator⟩, hleast⟩, hmost⟩ := hcovers
      refine .repetition (And.intro hpart rfl) (And.intro hleast rfl) ?_ ?_ keepSeparators
      · cases most with
        | none => exact .none
        | some most => exact .some ⟨hmost, rfl⟩
      · cases separator with
        | none => exact .none
        | some separator => exact .some ⟨hseparator, rfl⟩
  | absence inner width => exact .absence (And.intro hcovers rfl) width
  | demand inner message =>
      rw [Form.mentions, covers_append] at hcovers
      exact .demand (And.intro hcovers.1 rfl) (And.intro hcovers.2 rfl)
  | capture inner name => exact .capture (And.intro hcovers rfl) name
  | overlay inner bindings =>
      rw [Form.mentions, covers_append] at hcovers
      exact .overlay (And.intro hcovers.1 rfl) (targets_mentionsOfBindings hcovers.2)
  | reference target => exact .reference ⟨hcovers, rfl⟩
  | finish => exact .finish

theorem matchers_mentioning (names : Set String) (granted : Nat) :
    (Accord.mentioning π names).Matchers (Pattern.run granted) (Pattern.run granted) := by
  refine matchers_run (reads_of_eq rfl rfl rfl rfl) (scopes_mentioning names) (fun _ => rfl)
    ?_ ?_ granted
  · rintro pattern _ ⟨hcovers, rfl⟩
    obtain ⟨form, factory, label⟩ := pattern
    exact forms_mentioning hcovers
  · rintro pattern _ value _ ⟨-, rfl⟩ rfl
    rfl

end Accord

/-- A match depends only on the names of a closed set that has all names it mentions. -/
theorem run_agreesOn (granted : Nat) {pattern : Pattern}
    (hpattern : Covers names pattern.mentions) (hclosed : first.ClosedOn names)
    (hagrees : first.AgreesOn names second) (place : Position) (input : Input π) :
    (pattern.run granted first place input).1.AgreesOn names
        (pattern.run granted second place input).1 ∧
      (pattern.run granted first place input).2 = (pattern.run granted second place input).2 := by
  have hends := Accord.matchers_mentioning (π := π) names granted ⟨hpattern, rfl⟩
    ⟨hclosed, hagrees⟩ (rfl : place = place) (rfl : input = input)
  generalize pattern.run granted first place input = ending at hends ⊢
  generalize pattern.run granted second place input = otherEnding at hends ⊢
  cases hends with
  | @matched success other _ _ hresults hinputs =>
      obtain ⟨value, position, scope⟩ := success
      obtain ⟨otherValue, otherPosition, otherScope⟩ := other
      obtain ⟨hvalues, hplaces, -, hscopes⟩ := hresults
      dsimp only at hvalues hplaces hscopes
      cases hvalues
      cases hplaces
      exact ⟨.matched value position hscopes, hinputs⟩
  | missed hinputs => exact ⟨.missed, hinputs⟩
  | halted hhalts hinputs =>
      cases hhalts
      exact ⟨.halted _, hinputs⟩
  | excused hexcused => exact hexcused.elim
  | pardoned hpardoned => exact hpardoned.elim

end Agreement

/-- In a frame that binds no name twice, every entry counts. -/
theorem Frame.find?_eq_some_iff {frame : Frame} (hnodup : (frame.map Prod.fst).Nodup)
    {name : String} {binding : Binding} :
    Frame.find? name frame = some binding ↔ (name, binding) ∈ frame := by
  induction frame generalizing binding with
  | nil => simp [find?]
  | cons entry rest ih =>
      obtain ⟨key, bound⟩ := entry
      rw [List.map_cons, List.nodup_cons] at hnodup
      obtain ⟨hfresh, hrest⟩ := hnodup
      rw [find?, List.mem_cons, ← ih hrest]
      cases hlater : Frame.find? name rest with
      | none =>
          by_cases hkey : key = name
          · simp [hkey, eq_comm]
          · simp [hkey, Ne.symm hkey]
      | some later =>
          have hmem : name ∈ rest.map Prod.fst :=
            List.mem_map_of_mem ((ih hrest).mp hlater)
          have hkey : name ≠ key := fun hsame => hfresh (hsame ▸ hmem)
          simp [hkey]

theorem Frame.find?_eq_of_perm {frame other : Frame} (hperm : frame.Perm other)
    (hnodup : (frame.map Prod.fst).Nodup) (name : String) :
    Frame.find? name frame = Frame.find? name other := by
  have hother : (other.map Prod.fst).Nodup := (hperm.map Prod.fst).nodup_iff.mp hnodup
  apply Option.ext
  intro binding
  rw [Frame.find?_eq_some_iff hnodup, Frame.find?_eq_some_iff hother]
  exact hperm.mem_iff

namespace Grammar

theorem fst_define (name : String) (binding : Binding) : (define name binding).1 = name := by
  cases binding <;> rfl

/-- Definitions without a name that occurs twice mean the same in any order. -/
theorem find?_ofDefinitions_of_perm {definitions others : Frame}
    (hperm : definitions.Perm others) (hnodup : (definitions.map Prod.fst).Nodup)
    (start name : String) :
    (ofDefinitions definitions start).scope.find? name =
      (ofDefinitions others start).scope.find? name := by
  rw [ofDefinitions, ofDefinitions, Scope.find?_push, Scope.find?_push]
  congr 1
  refine Frame.find?_eq_of_perm (hperm.map _) ?_ name
  rw [List.map_map]
  have hnames : (Prod.fst ∘ fun definition : String × Binding =>
      define definition.1 definition.2) = Prod.fst := by
    funext definition
    exact fst_define definition.1 definition.2
  rwa [hnames]

/-- Grammars whose scopes bind all names alike parse alike. -/
theorem parse_eq_of_find?_eq {grammar other : Grammar}
    (hscopes : ∀ name, grammar.scope.find? name = other.scope.find? name)
    (hstart : grammar.start = other.start) (granted : Nat) (text : String) :
    grammar.parse granted text = other.parse granted text := by
  have hrule : grammar.run.scope.rule? grammar.run.start =
      other.run.scope.rule? other.run.start := by
    rw [Scope.rule?, Scope.rule?]
    simp only [Grammar.run]
    rw [hscopes, hstart]
  have hleading : grammar.run.leadingPart (π := Silence) granted =
      other.run.leadingPart granted := by
    funext input
    unfold Run.leadingPart
    rw [hrule]
    cases other.run.scope.rule? other.run.start with
    | none => simp only [Grammar.run, hstart]
    | some rule =>
        have hpattern : Covers Set.univ rule.mentions := fun _ _ => trivial
        have hclosed : grammar.scope.ClosedOn Set.univ := fun _ _ _ _ _ _ => trivial
        obtain ⟨hverdicts, hinputs⟩ := run_agreesOn granted hpattern hclosed
          (fun name _ => hscopes name) Position.start input
        simp only [Grammar.run, Attempt.bind_eq_andThen, Attempt.andThen]
        generalize rule.run granted grammar.scope Position.start input = ending at *
        generalize rule.run granted other.scope Position.start input = otherEnding at *
        obtain ⟨verdict, after⟩ := ending
        obtain ⟨otherVerdict, otherAfter⟩ := otherEnding
        dsimp only at hverdicts hinputs
        subst hinputs
        cases hverdicts <;> rfl
  rw [Grammar.parse, Grammar.parse, Run.whole, Run.whole, hleading]
  rfl

/-- A grammar is the same to a parse, or refused alike, whichever order its definitions are
given in. -/
theorem parse_build_eq_of_perm {definitions others : Frame} (hperm : definitions.Perm others)
    (hnodup : (definitions.map Prod.fst).Nodup) (start : Option String) (granted : Nat)
    (text : String) :
    (build definitions start).map (fun grammar => grammar.parse granted text) =
      (build others start).map (fun grammar => grammar.parse granted text) := by
  have hscopes := find?_ofDefinitions_of_perm hperm hnodup (start.getD defaultStart)
  have hrule : (ofDefinitions definitions (start.getD defaultStart)).rule?
        (start.getD defaultStart) =
      (ofDefinitions others (start.getD defaultStart)).rule? (start.getD defaultStart) := by
    rw [rule?, rule?, Scope.rule?, Scope.rule?, hscopes]
  rw [build, build]
  dsimp only [ofDefinitions] at hrule ⊢
  rw [hrule]
  split
  · exact congrArg Except.ok (parse_eq_of_find?_eq hscopes rfl granted text)
  · rfl

end Grammar

/-- A parse depends only on the names it mentions. Let a set of names have all names that a
pattern mentions, and all names that rules mention which the scope binds to names of the
set. In two scopes that bind the names of the set alike, the pattern comes to the same: to
matches with the same value and position whose scopes agree on the set again, to a miss in
both, or to the same error. So grammars of the same definitions, no name defined twice, parse
every text alike, whichever order the definitions are given in. -/
theorem match_depends_on_mentions :
    (∀ (π : Type) [Producer π] (names : Set String) (pattern : Pattern) (first second : Scope),
      Covers names pattern.mentions → first.ClosedOn names → first.AgreesOn names second →
        ∀ (granted : Nat) (place : Position) (input : Input π),
          (pattern.run granted first place input).1.AgreesOn names
              (pattern.run granted second place input).1 ∧
            (pattern.run granted first place input).2 =
              (pattern.run granted second place input).2) ∧
    ∀ definitions others : Frame, definitions.Perm others → (definitions.map Prod.fst).Nodup →
      ∀ (start : Option String) (granted : Nat) (text : String),
        (Grammar.build definitions start).map (fun grammar => grammar.parse granted text) =
          (Grammar.build others start).map (fun grammar => grammar.parse granted text) := by
  refine ⟨?_, ?_⟩
  · intro π _ names pattern first second hpattern hclosed hagrees granted place input
    exact run_agreesOn granted hpattern hclosed hagrees place input
  · intro definitions others hperm hnodup start granted text
    exact Grammar.parse_build_eq_of_perm hperm hnodup start granted text

/-- One scope has two frames, the other has one in another order, with a name more. -/
theorem match_depends_on_mentions_of_item_and_key :
    let item := Pattern.ofForm (.demand (.named "key") ⟨[.char '?', .name "key"]⟩)
    let pattern := ((Pattern.literal "x").capture "other").andThen (.named "item")
    let first := (Scope.empty.bind "item" (.rule item)).bind "key" (.value (.text "k"))
    let second := Scope.empty.push
      [("key", .value (.text "k")), ("other", .value .empty), ("item", .rule item)]
    let names : Set String := fun name => name = "item" ∨ name = "key"
    let x : Value := .token ⟨"x", ⟨1, 1, 0⟩, ⟨1, 2, 1⟩⟩
    let k : Value := .token ⟨"k", ⟨1, 2, 1⟩, ⟨1, 3, 2⟩⟩
    (pattern.run 9 first Position.start (Input.ofText "xk")).1 =
        .matched ⟨.list [x, k], ⟨1, 3, 2⟩, first.bind "other" (.value x)⟩ ∧
      (pattern.run 9 first Position.start (Input.ofText "xk")).1.AgreesOn names
        (pattern.run 9 second Position.start (Input.ofText "xk")).1 ∧
      (Grammar.build [("key", .value (.text "k")), ("item", .rule item)] (some "item")).map
          (fun grammar => grammar.parse 9 "k") =
        (Grammar.build [("item", .rule item), ("key", .value (.text "k"))] (some "item")).map
          (fun grammar => grammar.parse 9 "k") := by
  intro item pattern first second names x k
  have hpattern : Covers names pattern.mentions :=
    covers_cons.mpr ⟨.inl rfl, fun _ hnone => nomatch hnone⟩
  have hfirst : first.find? "item" = some (.rule item) := rfl
  have hclosed : first.ClosedOn names := by
    rintro name (rfl | rfl) rule hfound
    · cases Option.some.inj (hfirst.symm.trans hfound)
      exact covers_cons.mpr ⟨.inr rfl, covers_cons.mpr ⟨.inr rfl, fun _ hnone => nomatch hnone⟩⟩
    · cases hfound
  have hagrees : first.AgreesOn names second := by
    rintro name (rfl | rfl) <;> rfl
  refine ⟨by cbv, ?_, ?_⟩
  · exact (match_depends_on_mentions.1 Silence names pattern first second hpattern hclosed
      hagrees 9 Position.start (Input.ofText "xk")).1
  · exact match_depends_on_mentions.2 _ _ (.swap _ _ _) (by decide) (some "item") 9 "k"

end ScopedGrammar
