/-
# Scopes at a depth

Statements are matched in scopes in which the name of the depth means the depth of their
block. Captures bind further names, brackets make newlines blanks, and a nested block has the
next depth; in all of these scopes the rules mean what they mean in the grammar.
-/

import ScopedGrammar.Proofs.Croco.Tokens

namespace ScopedGrammar.Croco

open Pattern

variable {multiline : Bool} {depth : Nat} {scope : Scope} {name : String}

/-- The names of all rules, apart from blanks. -/
def ruleNames : List String :=
  "STATEMENT" :: "INDENT" :: "BLOCK" :: expressionNames

/-- Whether rules mean in a scope what they mean in the grammar, and the depth of the block is
so much. -/
structure Level (multiline : Bool) (depth : Nat) (scope : Scope) : Prop where
  rules : ∀ name ∈ ruleNames, scope.rule? name = grammar.scope.rule? name
  blanks : scope.rule? "SPACES" = some (blanksRule multiline)
  counts : scope.Counts "indent" depth

/-- The outermost block has no depth. -/
theorem level_grammar : Level false 0 grammar.scope :=
  ⟨fun _ _ => rfl, rfl, 0, rfl, rfl⟩

namespace Level

theorem ready (hlevel : Level multiline depth scope) : Ready multiline scope where
  rules name hname := hlevel.rules name (by simp [ruleNames, hname])
  blanks := hlevel.blanks

theorem rule?_eq (hlevel : Level multiline depth scope) {rule : Pattern}
    (hname : name ∈ ruleNames) (hrule : grammar.scope.rule? name = some rule) :
    scope.rule? name = some rule :=
  (hlevel.rules name hname).trans hrule

/-- A capture under a name of its own leaves the rules and the depth what they are. -/
theorem bind (hlevel : Level multiline depth scope) {captured : String}
    (hcaptured : captured ∉ "SPACES" :: "indent" :: ruleNames) (content : Value) :
    Level multiline depth (scope.bind captured (.value content)) := by
  rw [List.mem_cons, List.mem_cons, not_or, not_or] at hcaptured
  refine ⟨fun name hname => ?_, ?_, hlevel.counts.bind hcaptured.2.1 _⟩
  · have hother : captured ≠ name := fun hsame => hcaptured.2.2 (hsame ▸ hname)
    exact (scope.rule?_bind_of_ne _ hother).trans (hlevel.rules name hname)
  · exact (scope.rule?_bind_of_ne _ hcaptured.1).trans hlevel.blanks

/-- Between brackets, blanks go over several lines. -/
theorem bracketed (hlevel : Level multiline depth scope) :
    Level true depth (scope.push [("SPACES", .rule (named "MULTILINE_SPACES"))]) := by
  refine ⟨fun name hname => ?_, rfl, hlevel.counts.bind (by decide) _⟩
  have hother : "SPACES" ≠ name := fun hsame => absurd (hsame ▸ hname) (by decide)
  exact (scope.rule?_bind_of_ne _ hother).trans (hlevel.rules name hname)

/-- In a nested block, the depth is one more. -/
theorem nested (hlevel : Level multiline depth scope) {next : Value}
    (hnext : Value.ofInt? (depth + 1) = some next) :
    Level multiline (depth + 1) (scope.push [("indent", .value next)]) := by
  refine ⟨fun name hname => ?_, ?_, .push_next hnext⟩
  · have hother : "indent" ≠ name := fun hsame => absurd (hsame ▸ hname) (by decide)
    exact (scope.rule?_bind_of_ne _ hother).trans (hlevel.rules name hname)
  · exact (scope.rule?_bind_of_ne _ (by decide)).trans hlevel.blanks

end Level

end ScopedGrammar.Croco
