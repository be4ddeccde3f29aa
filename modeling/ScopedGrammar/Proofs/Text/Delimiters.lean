/-
# Written text told apart

What is written can be told from what comes after it if it ends at a delimiter. A run of
characters of one class ends where another class begins, so two such runs in front of the same
characters are the same. An escaped character is read back from its own beginning: a backslash
says which of the escapes it is, the code of one in braces ends at the closing brace, and a
character without a backslash stands for itself. A quoted text ends at the first quote that is
no escaped character's. So quoted texts in front of the same characters are the same text,
whatever characters they hold.
-/

import ScopedGrammar.Text.Quoted
import Mathlib.Data.List.TakeWhile

namespace ScopedGrammar.Text

/-- Runs of one class, each in front of nothing or of a character of another class, are the
same if they are written the same with what comes after them. -/
theorem append_inj_of_class {α : Type} {inClass : α → Bool} {first second rest other : List α}
    (hfirst : ∀ c ∈ first, inClass c = true) (hsecond : ∀ c ∈ second, inClass c = true)
    (hrest : ∀ c ∈ rest.head?, inClass c = false) (hother : ∀ c ∈ other.head?, inClass c = false)
    (hsame : first ++ rest = second ++ other) : first = second ∧ rest = other := by
  have htaken {run after : List α} (hrun : ∀ c ∈ run, inClass c = true)
      (hafter : ∀ c ∈ after.head?, inClass c = false) :
      (run ++ after).takeWhile inClass = run := by
    rw [List.takeWhile_append_of_pos hrun]
    cases after with
    | nil => exact List.append_nil run
    | cons c after =>
        have hstop : ¬ inClass c = true := Bool.eq_false_iff.mp (hafter c rfl)
        rw [List.takeWhile_cons_of_neg hstop, List.append_nil]
  have hruns : first = second := by
    rw [← htaken hfirst hrest, ← htaken hsecond hother, hsame]
  subst hruns
  exact ⟨rfl, List.append_cancel_left hsame⟩

/-- The value of a hexadecimal digit. -/
def hexDigitValue (c : Char) : Nat :=
  "0123456789abcdef".toList.idxOf c

/-- The number that hexadecimal digits stand for. -/
def ofHexadecimal (digits : List Char) : Nat :=
  digits.foldl (fun total c => 16 * total + hexDigitValue c) 0

theorem hexDigitValue_digitChar : ∀ digit < 16, hexDigitValue (Nat.digitChar digit) = digit := by
  decide

theorem ofHexadecimal_hexadecimal (code : Nat) : ofHexadecimal (hexadecimal code) = code := by
  induction code using Nat.strong_induction_on with
  | _ code ih =>
      rw [hexadecimal, Nat.toDigits_eq_if (by decide)]
      split
      next hsmall => simp [ofHexadecimal, hexDigitValue_digitChar code hsmall]
      next hlarge =>
        have hfront := ih (code / 16) (by omega)
        have hlast := hexDigitValue_digitChar (code % 16) (Nat.mod_lt code (by decide))
        rw [hexadecimal, ofHexadecimal] at hfront
        rw [ofHexadecimal, List.foldl_append, hfront, List.foldl_cons, List.foldl_nil, hlast]
        omega

theorem digitChar_ne_closing : ∀ digit < 16, Nat.digitChar digit ≠ '\x7d' := by
  decide

theorem closing_not_mem_hexadecimal (code : Nat) : '\x7d' ∉ hexadecimal code := by
  induction code using Nat.strong_induction_on with
  | _ code ih =>
      rw [hexadecimal, Nat.toDigits_eq_if (by decide)]
      split
      next hsmall =>
        rw [List.mem_singleton]
        exact (digitChar_ne_closing code hsmall).symm
      next hlarge =>
        have hlast := digitChar_ne_closing (code % 16) (Nat.mod_lt code (by decide))
        rw [List.mem_append, List.mem_singleton, not_or]
        exact ⟨ih (code / 16) (by omega), hlast.symm⟩

/-- Reads one escaped character, and gives it with what comes after it. -/
def unescape : List Char → Option (Char × List Char)
  | '\\' :: '0' :: rest => some ('\x00', rest)
  | '\\' :: 't' :: rest => some ('\t', rest)
  | '\\' :: 'n' :: rest => some ('\n', rest)
  | '\\' :: 'r' :: rest => some ('\r', rest)
  | '\\' :: 'u' :: '\x7b' :: rest =>
      some (Char.ofNat (ofHexadecimal (rest.takeWhile (· != '\x7d'))),
        (rest.dropWhile (· != '\x7d')).drop 1)
  | '\\' :: c :: rest => some (c, rest)
  | c :: rest => some (c, rest)
  | [] => none

/-- The escape by its code is read back. -/
theorem unescape_code (c : Char) (rest : List Char) :
    unescape ('\\' :: 'u' :: '\x7b' :: (hexadecimal c.toNat ++ '\x7d' :: rest)) =
      some (c, rest) := by
  have hdigits : ∀ d ∈ hexadecimal c.toNat, (d != '\x7d') = true := fun d hmem =>
    bne_iff_ne.mpr fun hclosing => closing_not_mem_hexadecimal c.toNat (hclosing ▸ hmem)
  have hcode : (hexadecimal c.toNat ++ '\x7d' :: rest).takeWhile (· != '\x7d') =
      hexadecimal c.toNat := by
    simp [List.takeWhile_append_of_pos hdigits]
  have hafter : (hexadecimal c.toNat ++ '\x7d' :: rest).dropWhile (· != '\x7d') =
      '\x7d' :: rest := by
    simp [List.dropWhile_append_of_pos hdigits]
  rw [unescape, hcode, hafter, ofHexadecimal_hexadecimal, Char.ofNat_toNat]
  rfl

/-- An escaped character is read back, as long as no letter of an escape is taken for a
quote. -/
theorem unescape_escape {isQuote : Char → Bool}
    (hletters : ∀ c ∈ ['0', 't', 'n', 'r', 'u'], isQuote c = false) (c : Char)
    (rest : List Char) : unescape (escape isQuote c ++ rest) = some (c, rest) := by
  unfold escape
  split_ifs with hnull htab hnewline hreturn hbackslash hquote hshown
  · rw [hnull]; rfl
  · rw [htab]; rfl
  · rw [hnewline]; rfl
  · rw [hreturn]; rfl
  · rw [hbackslash]; rfl
  · have hother (letter : Char) (hletter : letter ∈ ['0', 't', 'n', 'r', 'u']) : c ≠ letter := by
      rintro rfl
      rw [hletters c hletter] at hquote
      cases hquote
    simp [unescape, hother]
  · simp [unescape, hbackslash]
  · simpa using unescape_code c rest

/-- Inside double quotes no character begins with one. -/
theorem head?_escape_ne_quote (c : Char) (rest : List Char) :
    (escape (· == '"') c ++ rest).head? ≠ some '"' := by
  unfold escape
  split_ifs with hnull htab hnewline hreturn hbackslash hquote hshown <;> simp
  simpa using hquote

/-- The characters of quoted texts can be told from what comes after the closing quote. -/
theorem flatMap_escape_inj {first second rest other : List Char}
    (hsame : first.flatMap (escape (· == '"')) ++ '"' :: rest =
      second.flatMap (escape (· == '"')) ++ '"' :: other) : first = second ∧ rest = other := by
  induction first generalizing second with
  | nil =>
      cases second with
      | nil => exact ⟨rfl, List.tail_eq_of_cons_eq hsame⟩
      | cons d second =>
          rw [List.flatMap_cons, List.append_assoc] at hsame
          exact absurd (congrArg List.head? hsame.symm) (head?_escape_ne_quote d _)
  | cons c first ih =>
      have hletters : ∀ d ∈ ['0', 't', 'n', 'r', 'u'], (d == '"') = false := by simp
      rw [List.flatMap_cons, List.append_assoc] at hsame
      cases second with
      | nil => exact absurd (congrArg List.head? hsame) (head?_escape_ne_quote c _)
      | cons d second =>
          rw [List.flatMap_cons, List.append_assoc] at hsame
          have hread := congrArg unescape hsame
          rw [unescape_escape hletters, unescape_escape hletters, Option.some.injEq,
            Prod.mk.injEq] at hread
          obtain ⟨rfl, hrest⟩ := ih hread.2
          exact ⟨congrArg (· :: first) hread.1, hrest⟩

theorem toList_quote (text : String) :
    (quote text).toList = '"' :: (text.toList.flatMap (escape (· == '"')) ++ ['"']) := by
  rw [quote, String.toList_ofList]
  rfl

/-- A quoted text can be told from what comes after it. -/
theorem quote_append_inj {first second : String} {rest other : List Char}
    (hsame : (quote first).toList ++ rest = (quote second).toList ++ other) :
    first = second ∧ rest = other := by
  simp only [toList_quote, List.cons_append, List.append_assoc, List.nil_append] at hsame
  obtain ⟨hcontents, hrest⟩ := flatMap_escape_inj (List.tail_eq_of_cons_eq hsame)
  exact ⟨String.toList_inj.mp hcontents, hrest⟩

end ScopedGrammar.Text
