/-
# The patterns within reach

A match of a pattern matches the patterns inside it, the rules that it is given, and the
rules that its names mean. Which rules the names mean changes on the way, because overlays
bind names to rules. But an overlay takes those rules from its own terms or from the scope
it runs in, so no match leaves the patterns within reach of the first one, judged by the
scope that the first one runs in.
-/

import ScopedGrammar.Proofs.Scope.Extension
import ScopedGrammar.Scope.Resolve
import Mathlib.Logic.Relation

namespace ScopedGrammar

/-- The patterns inside a form whose matches become part of its own. What an absence looks
for is not among them, because it leaves nothing. -/
def Form.inside : Form → List Pattern
  | .choice options => options
  | .sequence parts _ => parts
  | .repetition part _ _ separator _ => part :: separator.toList
  | .demand inner _ => [inner]
  | .capture inner _ => [inner]
  | .overlay inner _ => [inner]
  | _ => []

/-- The terms of a form that may stand for rules. -/
def Form.targets : Form → List Term
  | .overlay _ bindings => bindings.map Prod.snd
  | .reference target => [target]
  | _ => []

namespace Term

/-- The rule that a term stands for in a scope, if it stands for one. What is computed is
never a rule. -/
def rule? (scope : Scope) : Term → Option Pattern
  | .rule pattern => some pattern
  | .name looked => scope.rule? looked
  | _ => none

theorem rule?_of_resolve {scope : Scope} {term : Term} {rule : Pattern}
    (hresolved : term.resolve scope = .ok (.rule rule)) : term.rule? scope = some rule := by
  have hcomputed : ∀ result : Except Defect Value,
      result.map Binding.value ≠ .ok (.rule rule) := by
    intro result
    cases result <;> simp [Except.map]
  cases term with
  | const content => cases hresolved
  | rule pattern =>
      cases hresolved
      rfl
  | name looked =>
      rw [resolve, Scope.lookup] at hresolved
      split at hresolved
      next binding hfound =>
        cases hresolved
        rw [rule?, Scope.rule?, hfound]
        rfl
      next => cases hresolved
  | sum looked other => exact absurd hresolved (hcomputed _)
  | product looked other => exact absurd hresolved (hcomputed _)
  | conditional looked whenTrue whenFalse => exact absurd hresolved (hcomputed _)

end Term

/-- The patterns that a form uses directly: those inside it, and the rules that its terms
stand for in a scope. -/
def Form.uses (scope : Scope) (shape : Form) : List Pattern :=
  shape.inside ++ shape.targets.filterMap (Term.rule? scope)

namespace Pattern

/-- The patterns that a pattern uses directly are those of its form. -/
def uses (scope : Scope) (pattern : Pattern) : List Pattern :=
  pattern.form.uses scope

/-- A pattern reaches what it uses, directly or through others. -/
def Reaches (scope : Scope) : Pattern → Pattern → Prop :=
  Relation.ReflTransGen fun user used => used ∈ user.uses scope

/-- A list of patterns with all that they use has all that they reach. -/
theorem Reaches.mem_of_closed {scope : Scope} {pattern other : Pattern}
    {patterns : List Pattern} (hreaches : pattern.Reaches scope other)
    (hpattern : pattern ∈ patterns)
    (hclosed : patterns.flatMap (uses scope) ⊆ patterns) : other ∈ patterns := by
  induction hreaches with
  | refl => exact hpattern
  | tail _ huses ih => exact hclosed (List.mem_flatMap.mpr ⟨_, ih, huses⟩)

end Pattern

namespace Scope

/-- The rules that a scope binds are within reach, or another scope binds them to the same
names. -/
def BindsWithin (reached : Pattern → Prop) (outer inner : Scope) : Prop :=
  ∀ name rule, inner.rule? name = some rule → outer.rule? name = some rule ∨ reached rule

theorem rule?_eq_some_iff {scope : Scope} {name : String} {rule : Pattern} :
    scope.rule? name = some rule ↔ scope.find? name = some (.rule rule) := by
  rw [rule?, Option.bind_eq_some_iff]
  constructor
  · rintro ⟨binding, hfound, hrule⟩
    cases binding with
    | value content => cases hrule
    | rule pattern =>
        cases hrule
        exact hfound
  · intro hfound
    exact ⟨.rule rule, hfound, rfl⟩

/-- What the frame of an overlay binds, one of its terms resolves to. -/
theorem find?_of_resolveAll {scope : Scope} {bindings : List (String × Term)} {frame : Frame}
    (hframe : scope.resolveAll bindings = .ok frame) {name : String} {binding : Binding}
    (hfound : Frame.find? name frame = some binding) :
    ∃ term, (name, term) ∈ bindings ∧ term.resolve scope = .ok binding := by
  induction bindings generalizing frame with
  | nil =>
      cases hframe
      cases hfound
  | cons first rest ih =>
      rcases first with ⟨key, term⟩
      rw [resolveAll] at hframe
      split at hframe
      next => cases hframe
      next bound hterm =>
        split at hframe
        next => cases hframe
        next others hothers =>
          cases hframe
          rw [Frame.find?] at hfound
          split at hfound
          next later hlater =>
            cases hfound
            obtain ⟨other, hother, hresolved⟩ := ih hothers hlater
            exact ⟨other, List.mem_cons_of_mem _ hother, hresolved⟩
          next =>
            split at hfound
            next hkey =>
              cases hfound
              subst hkey
              exact ⟨term, List.mem_cons_self, hterm⟩
            next => cases hfound

/-- A pushed frame is looked into first. -/
theorem find?_push (scope : Scope) (frame : Frame) (name : String) :
    (scope.push frame).find? name = (Frame.find? name frame).or (scope.find? name) := by
  cases frame with
  | nil => rfl
  | cons first rest =>
      rw [push, find?, findIn?]
      cases Frame.find? name (first :: rest) <;> rfl

namespace BindsWithin

variable {reached : Pattern → Prop} {outer inner : Scope}

theorem refl (reached : Pattern → Prop) (scope : Scope) : BindsWithin reached scope scope :=
  fun _ _ hbound => .inl hbound

/-- Captures bind no rules. -/
theorem captured {names : List String} {last : Scope} (hwithin : BindsWithin reached outer inner)
    (hextends : Extends names inner last) : BindsWithin reached outer last := by
  intro name rule hbound
  rw [rule?_eq_some_iff] at hbound
  exact hwithin name rule (rule?_eq_some_iff.mpr (hextends.find?_rule hbound))

/-- The rules that the terms of a form stand for are within reach if what it uses is. -/
theorem resolved {shape : Form} {term : Term} {rule : Pattern}
    (hwithin : BindsWithin reached outer inner)
    (huses : ∀ other ∈ shape.uses outer, reached other) (hterm : term ∈ shape.targets)
    (hresolved : term.resolve inner = .ok (.rule rule)) : reached rule := by
  have hused : term.rule? outer = some rule → reached rule := by
    intro hrule
    refine huses rule (List.mem_append_right _ ?_)
    exact List.mem_filterMap.mpr ⟨term, hterm, hrule⟩
  have hinner := Term.rule?_of_resolve hresolved
  cases term with
  | rule pattern => exact hused hinner
  | name looked =>
      rcases hwithin looked rule hinner with houter | hreached
      · exact hused houter
      · exact hreached
  | _ => cases hinner

/-- So are the rules that an overlay binds. -/
theorem overlaid {part : Pattern} {bindings : List (String × Term)} {frame : Frame}
    (hwithin : BindsWithin reached outer inner)
    (huses : ∀ other ∈ (Form.overlay part bindings).uses outer, reached other)
    (hframe : inner.resolveAll bindings = .ok frame) :
    BindsWithin reached outer (inner.push frame) := by
  intro name rule hbound
  rw [rule?_eq_some_iff, find?_push, Option.or_eq_some_iff] at hbound
  rcases hbound with hfound | ⟨-, hbelow⟩
  · obtain ⟨term, hterm, hresolved⟩ := find?_of_resolveAll hframe hfound
    exact .inr (hwithin.resolved huses (List.mem_map_of_mem hterm) hresolved)
  · exact hwithin name rule (rule?_eq_some_iff.mpr hbelow)

end BindsWithin

end Scope

end ScopedGrammar
