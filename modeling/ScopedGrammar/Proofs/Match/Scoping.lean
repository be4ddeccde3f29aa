/-
# What a match leaves in the scope

Which names a pattern can hand on is written in the pattern. A capture exposes its name,
the forms that thread the scope expose what their parts do, and absences, overlays and
references expose nothing, whatever is captured or overlaid inside them. A match leaves
the caller's scope with captures of exposed names on top, and nothing else.
-/

import ScopedGrammar.Pattern.Build
import ScopedGrammar.Proofs.Match.Derivation
import ScopedGrammar.Proofs.Scope.Extension

namespace ScopedGrammar

mutual

/-- The names that a match of the pattern may bind for what follows. -/
def Pattern.exposed : Pattern → List String
  | .mk form _ _ => form.exposed

/-- The names that a match of the form may bind for what follows. -/
def Form.exposed : Form → List String
  | .literal _ => []
  | .charClass _ _ => []
  | .choice options => exposedByAll options
  | .sequence parts _ => exposedByAll parts
  | .repetition part _ _ separator _ => part.exposed ++ exposedByAny separator
  | .absence _ _ => []
  | .demand inner _ => inner.exposed
  | .capture inner name => name :: inner.exposed
  | .overlay _ _ => []
  | .reference _ => []
  | .finish => []

/-- The names exposed by the patterns of a list. -/
def exposedByAll : List Pattern → List String
  | [] => []
  | first :: rest => first.exposed ++ exposedByAll rest

/-- The names exposed by a pattern, if there is one. -/
def exposedByAny : Option Pattern → List String
  | none => []
  | some pattern => pattern.exposed

end

/-- The names that a task may bind for what follows. -/
def Task.exposed : Task → List String
  | .form shape => shape.exposed
  | .pattern target => target.exposed
  | .parts row => exposedByAll row

theorem exposed_form (pattern : Pattern) : pattern.form.exposed = pattern.exposed := by
  cases pattern
  rfl

theorem mem_exposedByAll {name : String} {patterns : List Pattern} :
    name ∈ exposedByAll patterns ↔ ∃ pattern ∈ patterns, name ∈ pattern.exposed := by
  induction patterns with
  | nil => simp [exposedByAll]
  | cons first rest ih => simp [exposedByAll, ih]

/-- The rounds of a repetition expose what its part and its separator do. -/
theorem mem_exposedByAll_unrolled {name : String} {part : Pattern}
    {separator : Option Pattern} {count : Nat}
    (hname : name ∈ exposedByAll (unrolled part separator count)) :
    name ∈ part.exposed ++ exposedByAny separator := by
  obtain ⟨pattern, hpattern, hexposed⟩ := mem_exposedByAll.mp hname
  rcases mem_unrolled hpattern with rfl | hseparator
  · exact List.mem_append_left _ hexposed
  · rw [hseparator]
    exact List.mem_append_right _ hexposed

variable {π : Type} [Producer π]

/-- Every derivation extends the scope by captures of exposed names. -/
theorem Derives.extends {task : Task} {here there : Spot π} {values : List Value}
    (derived : Derives task here values there) :
    Scope.Extends task.exposed here.scope there.scope := by
  induction derived with
  | token recognised captured => exact .refl _ _
  | finish ended => exact .refl _ _
  | choice missed chosen ih =>
      refine ih.mono fun name hname => mem_exposedByAll.mpr ⟨_, ?_, hname⟩
      exact List.mem_append_right _ List.mem_cons_self
  | sequence all picked ih => exact ih
  | repetition bounds enough rounds last ih =>
      exact ih.mono fun name hname => mem_exposedByAll_unrolled hname
  | demand met ih => exact ih
  | capture matched ih =>
      exact (ih.mono fun name hname => List.mem_cons_of_mem _ hname).trans
        (.bind _ List.mem_cons_self _)
  | overlay known matched ih => exact .refl _ _
  | rule known matched ih => exact .refl _ _
  | pattern raw ih => rwa [Task.exposed, exposed_form] at ih
  | nil => exact .refl _ _
  | cons first rest ihfirst ihrest =>
      exact (ihfirst.mono fun name hname => List.mem_append_left _ hname).trans
        (ihrest.mono fun name hname => List.mem_append_right _ hname)

/-- A match leaves the caller's scope with captured values on top, one to a frame and each
under an exposed name. So every other name means what it meant, no rule is ever added, the
chain is the caller's own exactly if it is as deep, and without exposed names it is. -/
theorem matched_scope_extends_caller (granted : Nat) (pattern : Pattern) (scope : Scope)
    (place : Position) (input : Input π) {success : Match} {after : Input π}
    (hmatched : pattern.run granted scope place input = (.matched success, after)) :
    (∃ frames : List Frame, success.scope.frames = frames ++ scope.frames ∧
      ∀ frame ∈ frames, ∃ name ∈ pattern.exposed, ∃ content,
        frame = [(name, .value content)]) ∧
    (∀ name, name ∉ pattern.exposed → success.scope.find? name = scope.find? name) ∧
    (∀ name rule, success.scope.find? name = some (.rule rule) →
      scope.find? name = some (.rule rule)) ∧
    (Match.keepsChain success scope = true ↔ success.scope = scope) ∧
    (pattern.exposed = [] → success.scope = scope ∧ success.scope.depth = scope.depth) := by
  have hextends : Scope.Extends pattern.exposed scope success.scope :=
    (derives_of_run granted hmatched).extends
  refine ⟨hextends, fun name => hextends.find?_eq, fun name rule => hextends.find?_rule,
    ?_, ?_⟩
  · rw [Match.keepsChain, beq_iff_eq]
    exact hextends.depth_eq_iff
  · intro hnone
    rw [hnone] at hextends
    exact ⟨hextends.eq_of_nil, congrArg Scope.depth hextends.eq_of_nil⟩

/-- A capture next to a rule that captures too: the first is handed on, the second is not,
and its name means outside the rule what it meant. -/
theorem matched_scope_extends_caller_past_rule :
    let pattern := ((Pattern.literal "a").capture "x").andThen (.named "rule")
    let scope := (Scope.empty.bind "rule" (.rule ((Pattern.literal "b").capture "y"))).bind
      "y" (.value (.int 7))
    let input := Input.ofText "ab"
    let success : Match :=
      { value := .list [.token ⟨"a", ⟨1, 1, 0⟩, ⟨1, 2, 1⟩⟩, .token ⟨"b", ⟨1, 2, 1⟩, ⟨1, 3, 2⟩⟩]
        position := ⟨1, 3, 2⟩
        scope := scope.bind "x" (.value (.token ⟨"a", ⟨1, 1, 0⟩, ⟨1, 2, 1⟩⟩)) }
    pattern.run 9 scope Position.start input = (.matched success, input) ∧
      "y" ∉ pattern.exposed ∧ success.scope.find? "y" = scope.find? "y" := by
  intro pattern scope input success
  have hmatched : pattern.run 9 scope Position.start input = (.matched success, input) := by
    cbv
  have hname : "y" ∉ pattern.exposed := by decide
  exact ⟨hmatched, hname,
    (matched_scope_extends_caller 9 pattern scope Position.start input hmatched).2.1 "y" hname⟩

end ScopedGrammar
