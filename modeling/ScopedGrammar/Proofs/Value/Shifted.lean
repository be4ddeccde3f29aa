/-
# Values of a match elsewhere

The same characters matched at another place give the same tokens, moved by the distance
between the places. So the values of such matches have one shape, and their tokens have the
same texts at offsets that are as far from the start in the one as in the other.

A value that was captured acts on later steps through its text, its truth, its size and its
kind. None of them tells where a token stood. Values that look the same in this way resolve
terms alike.
-/

import ScopedGrammar.Scope.Resolve
import Mathlib.Data.List.Forall2

namespace ScopedGrammar

/-- Two positions are equally far behind two origins. -/
def Position.Shifted (origin other : Nat) (first second : Position) : Prop :=
  ∃ moved, first.offset = origin + moved ∧ second.offset = other + moved

namespace Value

/-- Two values have one shape, and their tokens the same texts, equally far behind two
origins. -/
inductive Shifted (origin other : Nat) : Value → Value → Prop
  | token {first second : Token} (htext : first.text = second.text)
      (hstart : first.start.Shifted origin other second.start)
      (hstop : first.stop.Shifted origin other second.stop) :
      Shifted origin other (.token first) (.token second)
  | endMark : Shifted origin other .endMark .endMark
  | empty : Shifted origin other .empty .empty
  | list {members others : List Value}
      (hmembers : List.Forall₂ (Shifted origin other) members others) :
      Shifted origin other (.list members) (.list others)

/-- Two values look the same to what comes after: they are the same, or two tokens of one
text and length, or two lists with the same texts in them. -/
inductive Resembles : Value → Value → Prop
  | same (value : Value) : Resembles value value
  | token {first second : Token} (htext : first.text = second.text)
      (hlength : first.length = second.length) : Resembles (.token first) (.token second)
  | list {members others : List Value} (hempty : members.isEmpty = others.isEmpty)
      (hleaves : leafTextsOfList members = leafTextsOfList others) :
      Resembles (.list members) (.list others)

namespace Resembles

variable {first second left right : Value}

theorem asText?_eq (hlook : first.Resembles second) : first.asText? = second.asText? := by
  cases hlook with
  | same => rfl
  | token htext _ => exact congrArg some htext
  | list _ _ => rfl

theorem asInt?_eq (hlook : first.Resembles second) : first.asInt? = second.asInt? := by
  cases hlook <;> rfl

theorem kind_eq (hlook : first.Resembles second) : first.kind = second.kind := by
  cases hlook <;> rfl

theorem isTruthy_eq (hlook : first.Resembles second) : first.isTruthy = second.isTruthy := by
  cases hlook with
  | same => rfl
  | token _ hlength => rw [isTruthy, isTruthy, Token.isEmpty, Token.isEmpty, hlength]
  | list hempty _ => rw [isTruthy, isTruthy, hempty]

theorem display_eq (hlook : first.Resembles second) : first.display = second.display := by
  cases hlook with
  | same => rfl
  | token htext _ => exact htext
  | list _ hleaves => rw [display, display, spelling, spelling, leafTexts, leafTexts, hleaves]

end Resembles

/-- A token is added and multiplied as its text is. -/
theorem token_plus? (piece : Token) (value : Value) :
    (token piece).plus? value = (text piece.text).plus? value := by
  cases value <;> rfl

theorem plus?_token (value : Value) (piece : Token) :
    value.plus? (token piece) = value.plus? (text piece.text) := by
  cases value <;> rfl

theorem token_times? (piece : Token) (value : Value) :
    (token piece).times? value = (text piece.text).times? value := by
  cases value <;> rfl

theorem times?_token (value : Value) (piece : Token) : value.times? (token piece) = none := by
  cases value <;> rfl

/-- Only lists are added to lists. -/
theorem list_plus? (members : List Value) (value : Value) :
    (list members).plus? value = value.asList?.map fun others => list (members ++ others) := by
  cases value <;> rfl

theorem plus?_list (value : Value) (others : List Value) :
    value.plus? (list others) = value.asList?.map fun members => list (members ++ others) := by
  cases value <;> rfl

/-- Lists are not multiplied. -/
theorem list_times? (members : List Value) (value : Value) :
    (list members).times? value = none := by
  cases value with
  | int count => by_cases hcount : 0 ≤ count.toInt <;> simp [times?, asText?, hcount]
  | _ => rfl

theorem times?_list (value : Value) (others : List Value) : value.times? (list others) = none := by
  cases value <;> rfl

theorem leafTextsOfList_append (members others : List Value) :
    leafTextsOfList (members ++ others) = leafTextsOfList members ++ leafTextsOfList others := by
  induction members with
  | nil => rfl
  | cons first rest ih => rw [List.cons_append, leafTextsOfList, leafTextsOfList, ih,
      List.append_assoc]

namespace Resembles

variable {first second left right : Value}

/-- What looks the same as a list is a list that looks the same. -/
theorem asList? (hlook : first.Resembles second) :
    Option.Rel (fun members others => (Value.list members).Resembles (.list others))
      first.asList? second.asList? := by
  cases hlook with
  | same =>
      cases first with
      | list members => exact .some (.same _)
      | _ => exact .none
  | token _ _ => exact .none
  | list hempty hleaves => exact .some (.list hempty hleaves)

theorem append {members others front back : List Value}
    (hfirst : (Value.list members).Resembles (.list others))
    (hsecond : (Value.list front).Resembles (.list back)) :
    (Value.list (members ++ front)).Resembles (.list (others ++ back)) := by
  have hfirstEmpty : members.isEmpty = others.isEmpty := by
    simpa only [isTruthy, Bool.not_inj_iff] using hfirst.isTruthy_eq
  have hsecondEmpty : front.isEmpty = back.isEmpty := by
    simpa only [isTruthy, Bool.not_inj_iff] using hsecond.isTruthy_eq
  refine .list ?_ ?_
  · have happend : ∀ run further : List Value,
        (run ++ further).isEmpty = (run.isEmpty && further.isEmpty) := by
      intro run further
      cases run <;> rfl
    rw [happend, happend, hfirstEmpty, hsecondEmpty]
  · rw [leafTextsOfList_append, leafTextsOfList_append]
    cases hfirst <;> cases hsecond <;> simp_all

theorem option_refl (result : Option Value) : Option.Rel Resembles result result := by
  cases result with
  | none => exact .none
  | some value => exact .some (.same value)

theorem plus?_right (value : Value) (hsecond : left.Resembles right) :
    Option.Rel Resembles (value.plus? left) (value.plus? right) := by
  cases hsecond with
  | same => exact option_refl _
  | token htext _ =>
      rw [plus?_token, plus?_token, htext]
      exact option_refl _
  | list hempty hleaves =>
      rw [plus?_list, plus?_list]
      cases value.asList? with
      | none => exact .none
      | some members => exact .some (append (.same _) (.list hempty hleaves))

theorem plus? (hfirst : first.Resembles second) (hsecond : left.Resembles right) :
    Option.Rel Resembles (first.plus? left) (second.plus? right) := by
  cases hfirst with
  | same => exact plus?_right first hsecond
  | token htext _ =>
      rw [token_plus?, token_plus?, htext]
      exact plus?_right _ hsecond
  | list hempty hleaves =>
      rw [list_plus?, list_plus?]
      have hlists := hsecond.asList?
      generalize left.asList? = members at hlists ⊢
      generalize right.asList? = others at hlists ⊢
      cases hlists with
      | none => exact .none
      | some hlist => exact .some (append (.list hempty hleaves) hlist)

theorem times?_right (value : Value) (hsecond : left.Resembles right) :
    Option.Rel Resembles (value.times? left) (value.times? right) := by
  cases hsecond with
  | same => exact option_refl _
  | token _ _ =>
      rw [times?_token, times?_token]
      exact .none
  | list _ _ =>
      rw [times?_list, times?_list]
      exact .none

theorem times? (hfirst : first.Resembles second) (hsecond : left.Resembles right) :
    Option.Rel Resembles (first.times? left) (second.times? right) := by
  cases hfirst with
  | same => exact times?_right first hsecond
  | token htext _ =>
      rw [token_times?, token_times?, htext]
      exact times?_right _ hsecond
  | list _ _ =>
      rw [list_times?, list_times?]
      exact .none

/-- An operation on values that look the same gives results that do, or applies to neither
pair. -/
theorem applied (operation : Operation) (hfirst : first.Resembles second)
    (hsecond : left.Resembles right) :
    Option.Rel Resembles ( operation.apply? first left) ( operation.apply? second right) := by
  cases operation with
  | sum => exact hfirst.plus? hsecond
  | product => exact hfirst.times? hsecond

end Resembles

mutual

theorem Shifted.leafTexts_eq {origin other : Nat} {first second : Value} :
    first.Shifted origin other second → first.leafTexts = second.leafTexts
  | .token htext _ _ => by rw [leafTexts, leafTexts, htext]
  | .endMark => rfl
  | .empty => rfl
  | .list hmembers => by
      rw [leafTexts, leafTexts]
      exact leafTextsOfList_eq_of_shifted hmembers

theorem leafTextsOfList_eq_of_shifted {origin other : Nat} {members others : List Value} :
    List.Forall₂ (Shifted origin other) members others →
      leafTextsOfList members = leafTextsOfList others
  | .nil => rfl
  | .cons hfirst hrest => by
      rw [leafTextsOfList, leafTextsOfList, hfirst.leafTexts_eq,
        leafTextsOfList_eq_of_shifted hrest]

end

theorem Shifted.resembles {origin other : Nat} {first second : Value}
    (hshifted : first.Shifted origin other second) : first.Resembles second := by
  have hleaves := hshifted.leafTexts_eq
  cases hshifted with
  | token htext hstart hstop =>
      obtain ⟨started, hstart, hotherStart⟩ := hstart
      obtain ⟨stopped, hstop, hotherStop⟩ := hstop
      refine .token htext ?_
      rw [Token.length, Token.length]
      omega
  | endMark => exact .same _
  | empty => exact .same _
  | list hmembers =>
      refine .list ?_ ?_
      · cases hmembers <;> rfl
      · rwa [leafTexts, leafTexts] at hleaves

end Value

end ScopedGrammar
