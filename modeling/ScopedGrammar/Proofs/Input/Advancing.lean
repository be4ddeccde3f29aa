/-
# Advancing over an input

A position advances by asking for one character after the other, so over an input that is still
arriving every step may bring a chunk, and a token is cut out only after the last one. Nothing of
this shows in what comes out. The place is the one that counting the characters gives, whatever
line and column were counted from. It does not depend on what had arrived before, and the token
holds exactly the characters that were passed over.

Counting needs that the characters are there. Lines and columns are natural numbers here and
have no greatest one; what becomes of them in words is said in a module of its own.
-/

import ScopedGrammar.Proofs.Input.Admission
import ScopedGrammar.Proofs.Input.Counting

namespace ScopedGrammar

variable {π : Type} [Producer π]

namespace Input

theorem toList_buffer_ofText (text : String) : (ofText text).buffer.toList = text.toList := by
  simp [ofText]

/-- A complete text admits itself. -/
theorem admits_ofText (text : String) : (ofText text).Admits text where
  received := by simp only [toList_buffer_ofText, List.prefix_refl]
  ended _ := toList_buffer_ofText text

end Input

namespace Position

/-- Where counting some characters leads. -/
structure Counted (place : Position) (run : List Char) (stop : Position) : Prop where
  offset : stop.offset = place.offset + run.length
  line : stop.line = place.line + run.count '\n'
  /-- The column goes on from where it was, unless there is a newline to count from. -/
  column : stop.column =
    if '\n' ∈ run then 1 + (run.rtakeWhile staysOnLine).length else place.column + run.length

/-- To pass over some characters is to count them. -/
theorem counted_past (place : Position) (run : List Char) :
    place.Counted run (place.past run) where
  offset := offset_past place run
  line := line_past place run
  column := by
    rw [column_past]
    split
    next => rfl
    next hnone =>
      have hall : run.rtakeWhile staysOnLine = run := by
        rw [List.rtakeWhile_eq_self_iff]
        intro c hc
        have hother : c ≠ '\n' := fun heq => hnone (heq ▸ hc)
        simpa [staysOnLine] using hother
      rw [hall]

/-- Over a complete text, the characters that are there are passed over. -/
theorem advance_ofText {place : Position} {count : Nat} {text : String}
    (hthere : count ≤ text.length - place.offset) :
    place.advance count (Input.ofText text) =
      (place.past ((text.toList.drop place.offset).take count), Input.ofText text) := by
  have hcount : count ≤ (Input.ofText text).buffer.size - place.offset := by
    rwa [← Array.length_toList, Input.toList_buffer_ofText, String.length_toList]
  rw [advance_of_received place count hcount, Input.toList_buffer_ofText]

/-- Advancing, with or without characters, leaves a complete text as it is. -/
theorem admits_advance_ofText (place : Position) (count : Nat) (text : String) :
    (place.advance count (Input.ofText text)).2.Admits text := by
  rw [(growing_advance place count (Input.ofText text)).settled rfl]
  exact Input.admits_ofText text

end Position

namespace Token

/-- The piece that a token is cut out of has arrived by the end of the loop. -/
theorem slice_advance {place : Position} {count : Nat} {text : String} {input : Input π}
    (hadmits : (place.advance count input).2.Admits text) :
    (place.advance count input).2.slice place.offset (place.offset + count) =
      String.ofList ((text.toList.drop place.offset).take count) := by
  have hreceived := received_of_advance (Prod.eta (place.advance count input)).symm
  rw [Position.offset_advance] at hreceived
  rw [← hadmits.slice_eq hreceived, ← String.toList_inj, Input.toList_slice,
    String.toList_ofList, Input.toList_buffer_ofText, Nat.add_sub_cancel_left]

/-- A token holds the characters of the text that were advanced over, however they arrived. -/
theorem capture_of_admits {place : Position} {count : Nat} {text : String} {input : Input π}
    (hadmits : (place.advance count input).2.Admits text) :
    capture place count input =
      (⟨String.ofList ((text.toList.drop place.offset).take count), place,
        (place.advance count input).1⟩, (place.advance count input).2) := by
  rw [capture]
  dsimp only
  rw [Position.offset_advance, slice_advance hadmits]

/-- Over a complete text, a token of characters that are there holds these. -/
theorem capture_ofText {place : Position} {count : Nat} {text : String}
    (hthere : count ≤ text.length - place.offset) :
    capture place count (Input.ofText text) =
      (⟨String.ofList ((text.toList.drop place.offset).take count), place,
        place.past ((text.toList.drop place.offset).take count)⟩, Input.ofText text) := by
  rw [capture_of_admits (place.admits_advance_ofText count text),
    Position.advance_ofText hthere]

end Token

end ScopedGrammar
