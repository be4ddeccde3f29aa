/-
# Lines of bytes and lines of characters

Lines are cut from bytes, and each is read as UTF-8 on its own. For the bytes of a text this
comes to cutting the text: the byte of a newline occurs in the encoding of no other
character, so no character is cut apart and every line can be read.
-/

import ScopedGrammar.Session.LineFeed

namespace ScopedGrammar

namespace Text

variable {α : Type} {isEnd : α → Bool}

/-- A run without an end joins the piece after it. -/
theorem cutAfter_append_of_open {run : List α} (hrun : run ≠ [])
    (hopen : ∀ element ∈ run, isEnd element = false) (rest : List α) :
    cutAfter isEnd (run ++ rest) =
      match cutAfter isEnd rest with
      | [] => [run]
      | piece :: more => (run ++ piece) :: more := by
  induction run with
  | nil => exact absurd rfl hrun
  | cons element further ih =>
      have hfirst : isEnd element = false := hopen element List.mem_cons_self
      have hstep : cutAfter isEnd (element :: (further ++ rest)) =
          match cutAfter isEnd (further ++ rest) with
          | [] => [[element]]
          | piece :: more => (element :: piece) :: more := by
        rw [cutAfter, List.foldr_cons, hfirst]
        rfl
      rw [List.cons_append, hstep]
      cases further with
      | nil => rfl
      | cons next more =>
          rw [ih (List.cons_ne_nil _ _) fun other hother =>
            hopen other (List.mem_cons_of_mem element hother)]
          cases cutAfter isEnd rest <;> rfl

/-- The byte of a newline encodes a newline, and is part of no other encoding. -/
theorem eq_newline_of_mem_utf8EncodeChar {c : Char} (hmem : 10 ∈ String.utf8EncodeChar c) :
    c = '\n' := by
  have hvalue : c.toNat = 10 := by
    have hsame : c.val.toNat = c.toNat := rfl
    simp only [String.utf8EncodeChar, hsame] at hmem
    -- Longer encodings are made of bytes from 128 on.
    split at hmem
    · simp [← UInt8.toNat_inj] at hmem
      omega
    · split at hmem
      · simp [← UInt8.toNat_inj] at hmem
        omega
      · split at hmem <;> simp [← UInt8.toNat_inj] at hmem <;> omega
  exact Char.toNat_inj.mp hvalue

/-- Cutting the bytes of some characters after each newline is cutting the characters. -/
theorem cutAfter_encoded (text : List Char) :
    cutAfter (· == 10) (text.flatMap String.utf8EncodeChar) =
      (cutAfter (· == '\n') text).map (List.flatMap String.utf8EncodeChar) := by
  induction text with
  | nil => rfl
  | cons c rest ih =>
      by_cases hnewline : c = '\n'
      · subst hnewline
        have hbyte : String.utf8EncodeChar '\n' = [10] := by decide
        have hbytes : cutAfter (· == 10) (10 :: rest.flatMap String.utf8EncodeChar) =
            [10] :: cutAfter (· == 10) (rest.flatMap String.utf8EncodeChar) := rfl
        have hchars : cutAfter (· == '\n') ('\n' :: rest) =
            ['\n'] :: cutAfter (· == '\n') rest := rfl
        rw [List.flatMap_cons, hbyte, List.singleton_append, hbytes, hchars, ih, List.map_cons,
          List.flatMap_singleton, hbyte]
      · have hopen : ∀ byte ∈ String.utf8EncodeChar c, (byte == 10) = false := by
          intro byte hbyte
          refine beq_false_of_ne fun heq => hnewline (eq_newline_of_mem_utf8EncodeChar ?_)
          exact heq ▸ hbyte
        have hother : ∀ element ∈ [c], (element == '\n') = false :=
          List.forall_mem_singleton.mpr (beq_false_of_ne hnewline)
        have hchars := cutAfter_append_of_open (List.cons_ne_nil c []) hother rest
        rw [List.singleton_append] at hchars
        rw [List.flatMap_cons, cutAfter_append_of_open String.utf8EncodeChar_ne_nil hopen, ih,
          hchars]
        cases cutAfter (· == '\n') rest <;> simp

end Text

/-- The bytes of a text are read as the text. -/
theorem fromUTF8?_encoded (line : List Char) :
    String.fromUTF8? ⟨(line.flatMap String.utf8EncodeChar).toArray⟩ =
      some (String.ofList line) := by
  have hbytes : (⟨(line.flatMap String.utf8EncodeChar).toArray⟩ : ByteArray) =
      line.utf8Encode := by
    rw [List.utf8Encode]
    exact ByteArray.ext List.data_toByteArray.symm
  rw [hbytes, String.fromUTF8?, dif_pos ByteArray.isValidUTF8_utf8Encode]
  rfl

/-- The lines of the bytes of a text are the lines of the text. -/
theorem rawLines_encoded (text : String) :
    rawLines text.toUTF8.data.toList = rawLinesOfText text := by
  have hbytes : text.toUTF8.data.toList = text.toList.flatMap String.utf8EncodeChar := by
    rw [String.toUTF8_eq_toByteArray, ← String.utf8Encode_toList]
    exact List.toList_data_toByteArray
  rw [rawLines, hbytes, Text.cutAfter_encoded, List.map_map, rawLinesOfText]
  exact List.map_congr_left fun line _ => fromUTF8?_encoded line

end ScopedGrammar
