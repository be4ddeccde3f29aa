/-
# Scopes extended by captures

A capture pushes a frame with one value in it. A scope extends another by captures under
some names if it has only such frames on top of the other, each for one of the names. Then
every other name means what it meant, and nothing that was not a rule has become one.
-/

import ScopedGrammar.Scope.Basic

namespace ScopedGrammar.Scope

/-- One scope is another with captured values on top, each under one of the names. -/
def Extends (names : List String) (outer inner : Scope) : Prop :=
  ∃ frames : List Frame, inner.frames = frames ++ outer.frames ∧
    ∀ frame ∈ frames, ∃ name ∈ names, ∃ content, frame = [(name, .value content)]

/-- What a name is bound to in a chain is what it is bound to in the frames on top, if it
is bound there, and in the rest otherwise. -/
theorem findIn?_append (name : String) (frames outer : List Frame) :
    findIn? name (frames ++ outer) = (findIn? name frames).or (findIn? name outer) := by
  induction frames with
  | nil => rfl
  | cons frame rest ih =>
      simp only [List.cons_append, findIn?, ih]
      cases Frame.find? name frame <;> rfl

/-- Frames of captures bind their names to values and nothing else. -/
theorem findIn?_captures {names : List String} {frames : List Frame}
    (hframes : ∀ frame ∈ frames, ∃ name ∈ names, ∃ content, frame = [(name, .value content)])
    {name : String} {binding : Binding} (hfound : findIn? name frames = some binding) :
    name ∈ names ∧ ∃ content, binding = .value content := by
  induction frames with
  | nil => cases hfound
  | cons frame rest ih =>
      obtain ⟨key, hkey, content, rfl⟩ := hframes frame List.mem_cons_self
      by_cases same : key = name
      · subst key
        simp only [findIn?, Frame.find?, if_true, Option.some.injEq] at hfound
        exact ⟨hkey, content, hfound.symm⟩
      · simp only [findIn?, Frame.find?, same, if_false] at hfound
        exact ih (fun other hother => hframes other (List.mem_cons_of_mem _ hother)) hfound

namespace Extends

variable {names : List String} {outer middle inner : Scope}

theorem refl (names : List String) (scope : Scope) : Extends names scope scope :=
  ⟨[], rfl, by simp⟩

theorem trans (hfirst : Extends names outer middle) (hsecond : Extends names middle inner) :
    Extends names outer inner := by
  obtain ⟨lower, hmiddle, hlower⟩ := hfirst
  obtain ⟨upper, hinner, hupper⟩ := hsecond
  refine ⟨upper ++ lower, ?_, ?_⟩
  · rw [hinner, hmiddle, List.append_assoc]
  · intro frame hframe
    rcases List.mem_append.mp hframe with habove | hbelow
    · exact hupper frame habove
    · exact hlower frame hbelow

theorem mono {more : List String} (hextends : Extends names outer inner)
    (hmore : ∀ name ∈ names, name ∈ more) : Extends more outer inner := by
  obtain ⟨frames, hinner, hframes⟩ := hextends
  refine ⟨frames, hinner, ?_⟩
  intro frame hframe
  obtain ⟨name, hname, hcontent⟩ := hframes frame hframe
  exact ⟨name, hmore name hname, hcontent⟩

/-- A capture extends the scope by its name. -/
theorem bind (scope : Scope) {name : String} (hname : name ∈ names) (content : Value) :
    Extends names scope (scope.bind name (.value content)) := by
  refine ⟨[[(name, .value content)]], rfl, ?_⟩
  intro frame hframe
  exact ⟨name, hname, content, List.mem_singleton.mp hframe⟩

/-- Other names mean what they meant. -/
theorem find?_eq (hextends : Extends names outer inner) {name : String}
    (hname : name ∉ names) : inner.find? name = outer.find? name := by
  obtain ⟨frames, hinner, hframes⟩ := hextends
  have hnothing : findIn? name frames = none := by
    cases hfound : findIn? name frames with
    | none => rfl
    | some binding => exact absurd (findIn?_captures hframes hfound).1 hname
  rw [find?, hinner, findIn?_append, hnothing]
  rfl

/-- A name that means a rule has not been captured. -/
theorem find?_rule (hextends : Extends names outer inner) {name : String} {rule : Pattern}
    (hrule : inner.find? name = some (.rule rule)) : outer.find? name = some (.rule rule) := by
  obtain ⟨frames, hinner, hframes⟩ := hextends
  rw [find?, hinner, findIn?_append] at hrule
  cases hfound : findIn? name frames with
  | none => rwa [hfound] at hrule
  | some binding =>
      obtain ⟨-, content, rfl⟩ := findIn?_captures hframes hfound
      rw [hfound] at hrule
      cases hrule

/-- Only the scope itself is as deep: frames are added, never taken away. -/
theorem depth_eq_iff (hextends : Extends names outer inner) :
    inner.depth = outer.depth ↔ inner = outer := by
  obtain ⟨frames, hinner, -⟩ := hextends
  constructor
  · intro hdepth
    have hnone : frames = [] := by
      rw [depth, hinner, List.length_append] at hdepth
      exact List.length_eq_zero_iff.mp (by simpa [depth] using hdepth)
    subst frames
    cases inner
    cases outer
    simpa using hinner
  · rintro rfl
    rfl

/-- Without names there is nothing to add. -/
theorem eq_of_nil (hextends : Extends [] outer inner) : inner = outer := by
  obtain ⟨frames, hinner, hframes⟩ := hextends
  cases frames with
  | nil =>
      cases inner
      cases outer
      simpa using hinner
  | cons frame rest =>
      obtain ⟨name, hname, -⟩ := hframes frame List.mem_cons_self
      cases hname

end Extends

end ScopedGrammar.Scope
