/-
# Classes, literals and what they exclude

One character can be asked for as a member of a class, as one option in a choice of literals,
or as what stands where such a pattern does not match. A longer text can be asked for at once
or character by character. These ways read the input differently. A class looks one answer up,
a choice asks for the same character once for each option that misses, an absence asks once
more for what it takes, and a literal compares before it takes anything. They come to the same
because a character that was asked for is the answer from then on, so that asking again
requests nothing.

The empty set is the one exception. A class still asks for a character to find it no member,
where a choice without options misses unasked, so their results agree and their inputs need
not.
-/

import ScopedGrammar.Proofs.Match.Composition
import ScopedGrammar.Proofs.Value.Tokens

namespace ScopedGrammar

variable {π : Type} [Producer π]

namespace Input

end Input

namespace Match

open Attempt

variable {scope : Scope} {place : Position} {input next : Input π}

/-- The success with a run of characters as its token. -/
def taking (run : List Char) (scope : Scope) (place : Position) : Match where
  value := .token ⟨String.ofList run, place, place.past run⟩
  position := place.past run
  scope := scope

variable {matcher : Matcher π}

end Match

namespace Pattern

open Attempt

variable (granted : Nat) (scope : Scope) (place : Position)

/-- A pattern without factory is run as its form. -/
theorem run_ofForm (shape : Form) :
    (ofForm shape).run (π := π) (granted + 1) scope place =
      Match.form (run granted) granted shape scope place := by
  rw [run_succ]
  exact bind_succeed _

theorem run_literal (expected : String) :
    (literal expected).run (π := π) (granted + 1) scope place =
      Match.text expected scope place :=
  run_ofForm granted scope place _

theorem run_choice (options : List Pattern) :
    (choice options).run (π := π) (granted + 1) scope place =
      Match.firstOf (run granted) options scope place :=
  run_ofForm granted scope place _

/-- The characters of a text, each as a literal. -/
def characters (text : String) : List Pattern :=
  text.toList.map ofChar

variable {granted scope place} {input : Input π}

end Pattern

end ScopedGrammar
