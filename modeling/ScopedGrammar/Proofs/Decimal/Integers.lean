/-
# Integers are read as they are written

An integer is written as digits in base ten, with a minus sign in front if it is negative.
Reading that numeral gives the integer again, and its signed word if it fits one. Digits
without a sign are never read as a negative number, and with a point among them they are
always read as a number.
-/

import Mathlib.Data.List.TakeWhile
import ScopedGrammar.Decimal.Reading

namespace ScopedGrammar.Decimal

theorem isDigit_of_mem_toDigits {n : Nat} {c : Char} (hc : c ∈ Nat.toDigits 10 n) :
    isDigit c = true := by
  have hdigit := Nat.isDigit_of_mem_toDigits (by decide) (by decide) hc
  rw [Char.isDigit, Bool.and_eq_true] at hdigit
  rw [isDigit, Bool.and_eq_true]
  exact ⟨decide_eq_true (of_decide_eq_true hdigit.1), decide_eq_true (of_decide_eq_true hdigit.2)⟩

theorem readNat?_toDigits (n : Nat) : readNat? (Nat.toDigits 10 n) = some n := by
  have hsome : (!(Nat.toDigits 10 n).isEmpty && (Nat.toDigits 10 n).all isDigit) = true := by
    rw [Bool.and_eq_true, List.all_eq_true, Bool.not_eq_true', List.isEmpty_eq_false_iff]
    exact ⟨Nat.toDigits_ne_nil, fun c hc => isDigit_of_mem_toDigits hc⟩
  have hvalue : ofDigits (Nat.toDigits 10 n) = n :=
    Nat.ofDigitChars_toDigits (by decide) (by decide)
  rw [readNat?, if_pos hsome, hvalue]

/-- Different numbers are written differently. -/
theorem toString_inj {first second : Nat} (hsame : toString first = toString second) :
    first = second := by
  rw [Nat.toString_eq_ofList_toDigits, Nat.toString_eq_ofList_toDigits, String.ofList_inj] at hsame
  have hread := congrArg readNat? hsame
  rw [readNat?_toDigits, readNat?_toDigits] at hread
  exact Option.some.inj hread

/-- Where a numeral does not begin with a sign, none is split off. -/
theorem splitSign_of_head {numeral : List Char}
    (hhead : ∀ c ∈ numeral.head?, c ≠ '-' ∧ c ≠ '+') : splitSign numeral = (false, numeral) := by
  unfold splitSign
  split
  next => exact absurd rfl (hhead '-' rfl).1
  next => exact absurd rfl (hhead '+' rfl).2
  next => rfl

/-- Digits are no sign. -/
theorem splitSign_of_digits {run : List Char} (hrun : ∀ c ∈ run, isDigit c = true) :
    splitSign run = (false, run) := by
  refine splitSign_of_head fun c hc => ?_
  have hdigit := hrun c (List.mem_of_mem_head? hc)
  constructor <;> rintro rfl <;> exact absurd hdigit (by decide)

theorem splitSign_toDigits (n : Nat) :
    splitSign (Nat.toDigits 10 n) = (false, Nat.toDigits 10 n) :=
  splitSign_of_digits fun _ => isDigit_of_mem_toDigits

/-- The characters of an integer in decimal notation. -/
theorem toList_toString (n : Int) :
    (toString n).toList =
      if 0 ≤ n then Nat.toDigits 10 n.toNat else '-' :: Nat.toDigits 10 (-n).toNat := by
  rw [Int.toString_eq_repr, Int.repr_eq_if]
  split
  · exact Nat.toList_repr
  · rw [String.toList_append, Nat.toList_repr]
    rfl

theorem readInt?_toString (n : Int) : readInt? (toString n).toList = some n := by
  rw [toList_toString]
  split
  next hnonneg =>
    rw [readInt?, splitSign_toDigits]
    simp [readNat?_toDigits, Int.toNat_of_nonneg hnonneg]
  next hnegative =>
    rw [readInt?, splitSign]
    simp [readNat?_toDigits]
    omega

/-- An integer that fits a signed word is read as that word. -/
theorem readWord?_toString {n : Int} (hleast : leastWord ≤ n) (hgreatest : n ≤ greatestWord) :
    readWord? (toString n).toList = some (Int64.ofInt n) := by
  rw [readWord?, readInt?_toString, Option.bind_some, toWord?, if_pos ⟨hleast, hgreatest⟩]

/-- A word that is read from digits has no sign. -/
theorem readWord?_unsigned {run : List Char} {number : Int64}
    (hrun : ∀ c ∈ run, isDigit c = true) (hread : readWord? run = some number) :
    0 ≤ number.toInt := by
  obtain ⟨n, hint, hword⟩ := Option.bind_eq_some_iff.mp hread
  rw [readInt?, splitSign_of_digits hrun] at hint
  obtain ⟨integer, hinteger, hsame⟩ := Option.map_eq_some_iff.mp hint
  obtain ⟨magnitude, -, hmagnitude⟩ := Option.bind_eq_some_iff.mp hinteger
  have hunsigned : (magnitude : Int) = n := by
    cases hmagnitude
    simpa using hsame
  subst hunsigned
  rw [toWord?] at hword
  split at hword
  next hbounds =>
    cases hword
    have hgreatest := hbounds.2
    rw [greatestWord] at hgreatest
    rw [Int64.toInt_ofInt_of_le (by omega) (by omega)]
    exact Int.natCast_nonneg _
  next => cases hword

/-- Digits with a point among them are a floating-point number. -/
theorem exists_readFloat? {front back : List Char} (hfront : ∀ c ∈ front, isDigit c = true)
    (hback : ∀ c ∈ back, isDigit c = true) (hsome : front ++ back ≠ []) :
    ∃ number, readFloat? (front ++ '.' :: back) = some number := by
  have hdigit : ∀ c, isDigit c = true → c ≠ '-' ∧ c ≠ '+' ∧ c ≠ '.' ∧ c ≠ 'e' ∧ c ≠ 'E' := by
    intro c hc
    refine ⟨?_, ?_, ?_, ?_, ?_⟩ <;> rintro rfl <;> exact absurd hc (by decide)
  have hunsigned : splitSign (front ++ '.' :: back) = (false, front ++ '.' :: back) := by
    refine splitSign_of_head fun c hc => ?_
    cases front with
    | nil =>
        cases hc
        decide
    | cons first rest =>
        have hfirst := hdigit first (hfront first List.mem_cons_self)
        cases hc
        exact ⟨hfirst.1, hfirst.2.1⟩
  have hplain : ∀ c ∈ front ++ '.' :: back, (c != 'e' && c != 'E') = true := by
    intro c hc
    rcases List.mem_append.mp hc with hc | hc
    · simp [hdigit c (hfront c hc)]
    · rcases List.mem_cons.mp hc with rfl | hc
      · decide
      · simp [hdigit c (hback c hc)]
  have hbefore : ∀ c ∈ front, (c != '.') = true := fun c hc => by simp [hdigit c (hfront c hc)]
  have hwhole : (front ++ '.' :: back).takeWhile (· != '.') = front := by
    simp [List.takeWhile_append_of_pos hbefore]
  have hfraction : (front ++ '.' :: back).dropWhile (· != '.') = '.' :: back := by
    simp [List.dropWhile_append_of_pos hbefore]
  have hread : ∃ digits, readNat? (front ++ back) = some digits := by
    refine ⟨_, if_pos ?_⟩
    simp only [Bool.and_eq_true, Bool.not_eq_true', List.isEmpty_eq_false_iff, List.all_eq_true]
    exact ⟨hsome, List.forall_mem_append.mpr ⟨hfront, hback⟩⟩
  obtain ⟨digits, hdigits⟩ := hread
  have hmantissa := List.takeWhile_eq_self_iff.mpr hplain
  have hexponent := List.dropWhile_eq_nil_iff.mpr hplain
  unfold readFloat?
  simp only [hunsigned, hmantissa, hexponent, hwhole, hfraction, List.drop_succ_cons,
    List.drop_zero, hdigits]
  exact ⟨_, rfl⟩

end ScopedGrammar.Decimal
