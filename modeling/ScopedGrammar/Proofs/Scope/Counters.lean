/-
# Names that count

A name may mean a count: a repetition takes it for its bounds, and an overlay binds it to the
next count for what stands one level deeper. A count is kept in a signed word, so there is a
next one as long as it fits.
-/

import ScopedGrammar.Match.Basic
import ScopedGrammar.Proofs.Match.Reach
import Mathlib

namespace ScopedGrammar

variable {scope : Scope} {name other : String} {count : Nat} {next : Value}

theorem Value.ofInt?_next (hnext : Value.ofInt? (count + 1) = some next) :
    ∃ word : Int64, next = .int word ∧ word.toInt = (count + 1 : Nat) := by
  rw [Value.ofInt?, Decimal.toWord?] at hnext
  split at hnext
  next hbounds =>
    cases hnext
    have hleast : -2 ^ 63 ≤ (count : Int) + 1 := by omega
    have hgreatest : (count : Int) + 1 < 2 ^ 63 := by
      rw [Decimal.greatestWord] at hbounds
      omega
    exact ⟨_, rfl, Int64.toInt_ofInt_of_le hleast hgreatest⟩
  next => cases hnext

theorem Value.exists_ofInt?_next (hfits : count + 1 < 2 ^ 63) :
    ∃ next, Value.ofInt? (count + 1) = some next := by
  have hbounds : Decimal.leastWord ≤ (count : Int) + 1 ∧
      (count : Int) + 1 ≤ Decimal.greatestWord := by
    rw [Decimal.leastWord, Decimal.greatestWord]
    omega
  exact ⟨_, by rw [Value.ofInt?, Decimal.toWord?, if_pos hbounds]; rfl⟩

/-- What a name means as a rule, if another one is bound. -/
theorem Scope.rule?_bind_of_ne (scope : Scope) (binding : Binding) (hother : name ≠ other) :
    (scope.bind name binding).rule? other = scope.rule? other := by
  rw [Scope.rule?, Scope.rule?, Scope.find?_bind, if_neg hother]

/-- A name means a count. -/
def Scope.Counts (scope : Scope) (name : String) (count : Nat) : Prop :=
  ∃ word : Int64, scope.find? name = some (.value (.int word)) ∧ word.toInt = count

/-- A name bound to the next count. -/
def nextCount (name : String) : List (String × Term) :=
  [(name, .sum name (.const (.int 1)))]

namespace Scope.Counts

theorem lookupValue (hcounts : scope.Counts name count) :
    ∃ word : Int64, scope.lookupValue name = .ok (.int word) ∧ word.toInt = count := by
  obtain ⟨word, hfound, hword⟩ := hcounts
  refine ⟨word, ?_, hword⟩
  rw [Scope.lookupValue, Scope.lookup, hfound]
  rfl

/-- A repetition takes the count for its bounds. -/
theorem resolveBounds (hcounts : scope.Counts name count) :
    Match.resolveBounds scope (.name name) (some (.name name)) = .ok (count, some count) := by
  obtain ⟨word, hlookup, hword⟩ := hcounts.lookupValue
  have hcount : (Term.name name).count scope = .ok count := by
    rw [Term.count, Term.value, hlookup]
    simp [hword]
  simp [Match.resolveBounds, hcount]

theorem resolveAll_next (hcounts : scope.Counts name count) :
    scope.resolveAll (nextCount name) =
      match Value.ofInt? (count + 1) with
      | some next => .ok [(name, .value next)]
      | none => .error (.invalidOperand .sum .int .int) := by
  obtain ⟨word, hlookup, hword⟩ := hcounts.lookupValue
  have hone : (1 : Int64).toInt = 1 := by decide
  have hsum : Operation.sum.apply? (.int word) (.int 1) = Value.ofInt? (count + 1) := by
    show (Value.int word).plus? (.int 1) = _
    rw [Value.plus?, hword, hone]
  have hresolved : (Term.sum name (.const (.int 1))).resolve scope =
      (Operation.sum.apply (.int word) (.int 1)).map .value := by
    rw [Term.resolve, Term.value, hlookup]
    · rfl
    all_goals simp
  rw [nextCount, Scope.resolveAll, hresolved, Operation.apply, hsum]
  cases Value.ofInt? (count + 1) with
  | none => rfl
  | some next => rfl

/-- Where the next count is bound, it counts. -/
theorem push_next (hnext : Value.ofInt? (count + 1) = some next) :
    (scope.push [(name, .value next)]).Counts name (count + 1) := by
  obtain ⟨word, rfl, hword⟩ := Value.ofInt?_next hnext
  exact ⟨word, (Scope.find?_bind scope _ _ _).trans (if_pos rfl), hword⟩

/-- A name that counts does so if another one is bound. -/
theorem bind (hcounts : scope.Counts name count) (hother : other ≠ name) (binding : Binding) :
    (scope.bind other binding).Counts name count := by
  obtain ⟨word, hfound, hword⟩ := hcounts
  exact ⟨word, (Scope.find?_bind scope _ _ _).trans ((if_neg hother).trans hfound), hword⟩

end Scope.Counts

end ScopedGrammar
