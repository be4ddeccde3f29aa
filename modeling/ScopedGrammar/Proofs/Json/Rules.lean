/-
# Numbers and strings

What the rules for blanks, numbers and strings match, in terms of the language of documents.
Each rule is met twice. Taken apart, a match has passed over a run that the language
produces. Put together, a run that the language produces is matched as a whole wherever the
characters after it do not go on with it: a number ends before anything that is no part of
one, and a string ends with its quote.
-/

import ScopedGrammar.Proofs.Json.Language
import ScopedGrammar.Proofs.Match.Copying

namespace ScopedGrammar.Json

open Pattern

variable {text : String} {scope : Scope} {place : Position} {success : Match}
  {run rest after : List Char}

/-- Whether the next character, if there is one, is not blank. -/
def Unblank (after : List Char) : Prop :=
  ∀ c ∈ after.head?, ¬ (c = ' ' ∨ c = '\t' ∨ c = '\r' ∨ c = '\n')

theorem inClass_blank_iff {c : Char} :
    inClass " \t\r\n".toList false c = true ↔ c = ' ' ∨ c = '\t' ∨ c = '\r' ∨ c = '\n' := by
  simp [inClass]

theorem blanks_copies : blanks.Copies text scope Blank :=
  (copies_run (Match.resolveBounds_none (Nat.zero_le _))).mono fun _ hrun c hc =>
    inClass_blank_iff.mp (hrun.1 c hc)

/-- Blanks pass over all blanks that come next. -/
theorem blanks_matches (scope : Scope) (hsees : place.Sees text (run ++ after))
    (hrun : Blank run) (hafter : Unblank after) :
    ∃ taken, blanks.Matches text scope place ⟨taken, place.past run, scope⟩ := by
  refine ⟨_, run_matches hsees (Match.resolveBounds_none (Nat.zero_le _)) ?_ ?_ (Nat.zero_le _)⟩
  · exact fun c hc => inClass_blank_iff.mpr (hrun c hc)
  · exact fun c hc => Bool.eq_false_iff.mpr (mt inClass_blank_iff.mp (hafter c hc))

/-- Whether the next character, if there is one, is no digit. -/
def Undigit (after : List Char) : Prop :=
  ∀ c ∈ after.head?, Decimal.isDigit c = false

theorem digits_copies : digits.Copies text scope Digits :=
  (copies_run (Match.resolveBounds_none (by decide))).mono fun _ hrun =>
    ⟨List.ne_nil_of_length_pos hrun.2, fun c hc => inClass_digit c ▸ hrun.1 c hc⟩

theorem digits_copiesAt (hsees : place.Sees text (run ++ after)) (hrun : Digits run)
    (hafter : Undigit after) : digits.CopiesAt text scope place run := by
  apply copiesAt_run hsees (Match.resolveBounds_none (by decide)) _ _
    (List.length_pos_iff.mpr hrun.1)
  · exact fun c hc => (inClass_digit c).trans (hrun.2 c hc)
  · exact fun c hc => (inClass_digit c).trans (hafter c hc)

theorem digits_misses (hsees : place.Sees text rest) (hrest : Undigit rest) :
    digits.Misses text scope place := by
  apply run_misses_of_head hsees (Match.resolveBounds_none (by decide)) Nat.one_pos
  exact fun c hc => (inClass_digit c).trans (hrest c hc)

/-- The fraction of a number. -/
def fraction : Pattern :=
  sequence [literal ".", digits]

/-- The exponent of a number. -/
def exponent : Pattern :=
  sequence [oneOf "eE", (oneOf "+-").optional, digits]

theorem number_form :
    number.form = .sequence
      [(literal "-").optional, digits, fraction.optional, exponent.optional] none :=
  rfl

theorem fraction_copies : fraction.optional.Copies text scope Fraction := by
  refine copies_optional ?_ .none
  refine (copies_sequence
    (.cons (copies_literal text scope ".") (.cons digits_copies .nil))).mono ?_
  rintro run ⟨point, _, rfl, rfl, digits, _, rfl, hdigits, rfl⟩
  rw [List.append_nil]
  exact .some hdigits

theorem exponent_copies : exponent.optional.Copies text scope Exponent := by
  have hsign : (oneOf "+-").optional.Copies text scope
      fun run => run = [] ∨ run = ['+'] ∨ run = ['-'] := by
    refine copies_optional ((copies_class text scope "+-".toList false).mono ?_) (.inl rfl)
    rintro run ⟨c, rfl, hc⟩
    simpa [inClass] using hc
  refine copies_optional ?_ .none
  refine (copies_sequence (.cons (copies_class text scope "eE".toList false)
    (.cons hsign (.cons digits_copies .nil)))).mono ?_
  rintro run ⟨_, _, rfl, ⟨mark, rfl, hmark⟩, sign, _, rfl, hsign, digits, _, rfl, hdigits, rfl⟩
  rw [List.append_nil]
  show Exponent (mark :: (sign ++ digits))
  exact .some (by simpa [inClass] using hmark) hsign hdigits

/-- A number takes a numeral, and its value is that of the numeral. -/
theorem number_sound (hsees : place.Sees text rest)
    (hmatches : number.Matches text scope place success) :
    ∃ run after, rest = run ++ after ∧ Numeral run ∧
      success = ⟨numberValue run, place.past run, scope⟩ := by
  obtain ⟨raw, hraw, rfl⟩ := matches_iff.mp hmatches
  have hsign : (literal "-").optional.Copies text scope fun run => run = [] ∨ run = ['-'] :=
    copies_optional ((copies_literal text scope "-").mono fun _ => .inr) (.inl rfl)
  have hrow := RowCopies.cons hsign
    (.cons digits_copies (.cons fraction_copies (.cons exponent_copies .nil)))
  rw [number_form] at hraw
  obtain ⟨run, after, value, hrest, hkind, hvalue, rfl⟩ :=
    copies_sequence hrow _ _ _ hsees (matches_ofForm_iff.mpr hraw)
  obtain ⟨sign, _, rfl, hsign, whole, _, rfl, hwhole, fraction, _, rfl, hfraction,
    exponent, _, rfl, hexponent, rfl⟩ := hkind
  refine ⟨_, after, hrest, ?_, ?_⟩
  · rw [List.append_nil]
    exact .mk hsign hwhole hfraction hexponent
  · show (⟨numberValue value.spelling.toList, _, _⟩ : Match) = _
    rw [hvalue]

/-- Whether no numeral goes on with the next character, if there is one. -/
def EndsNumeral (after : List Char) : Prop :=
  ∀ c ∈ after.head?, Decimal.isDigit c = false ∧ c ≠ '.' ∧ c ≠ 'e' ∧ c ≠ 'E'

theorem EndsNumeral.undigit (hafter : EndsNumeral after) : Undigit after :=
  fun c hc => (hafter c hc).1

/-- Digits begin with a digit. -/
theorem Digits.head (hrun : Digits run) (after : List Char) :
    ∀ c ∈ (run ++ after).head?, Decimal.isDigit c = true := by
  obtain ⟨hnonempty, hdigits⟩ := hrun
  cases run with
  | nil => exact absurd rfl hnonempty
  | cons first more =>
      intro c hc
      cases hc
      exact hdigits first List.mem_cons_self

/-- An exponent does not begin with a digit or a point. -/
theorem Exponent.head (hrun : Exponent run) (hafter : EndsNumeral after) :
    ∀ c ∈ (run ++ after).head?, Decimal.isDigit c = false ∧ c ≠ '.' := by
  intro c hc
  cases hrun with
  | none => exact ⟨(hafter c hc).1, (hafter c hc).2.1⟩
  | some hmark hsign hdigits =>
      cases hc
      rcases hmark with rfl | rfl <;> decide

/-- A fraction does not begin with a digit. -/
theorem Fraction.head (hrun : Fraction run) (hafter : Undigit after) :
    Undigit (run ++ after) := by
  intro c hc
  cases hrun with
  | none => exact hafter c hc
  | some hdigits =>
      cases hc
      decide

theorem fraction_copiesAt (hsees : place.Sees text (run ++ after)) (hrun : Fraction run)
    (hafter : ∀ c ∈ after.head?, Decimal.isDigit c = false ∧ c ≠ '.') :
    fraction.optional.CopiesAt text scope place run := by
  cases hrun with
  | none =>
      have hpoint : (literal ".").Misses text scope place :=
        literal_misses_of_head hsees rfl fun c hc => (hafter c hc).2
      exact copiesAt_optional_of_misses (sequence_misses (rowMisses_of_first hpoint))
  | @some run hdigits =>
      have hpoint : place.Sees text (".".toList ++ (run ++ after)) := hsees
      have hrest : digits.CopiesAt text scope (place.past ".".toList) run :=
        digits_copiesAt hpoint.past hdigits fun c hc => (hafter c hc).1
      have hrow := RowCopiesAt.cons (copiesAt_literal hpoint) (.cons hrest .nil)
      rw [List.append_nil] at hrow
      exact copiesAt_optional (copiesAt_sequence hrow)

/-- The sign of an exponent, which may be missing, before its digits. -/
theorem sign_copiesAt {sign : List Char} (hsees : place.Sees text (sign ++ (run ++ after)))
    (hsign : sign = [] ∨ sign = ['+'] ∨ sign = ['-']) (hdigits : Digits run) :
    (oneOf "+-").optional.CopiesAt text scope place sign := by
  rcases hsign with rfl | rfl | rfl
  · apply copiesAt_optional_of_misses
    apply class_misses hsees
    intro c hc
    have hdigit := hdigits.head after c hc
    rcases hclass : inClass "+-".toList false c with _ | _
    · rfl
    · have hmem : c = '+' ∨ c = '-' := by simpa [inClass] using hclass
      rcases hmem with rfl | rfl <;> cases hdigit
  · exact copiesAt_optional (copiesAt_class hsees (by decide))
  · exact copiesAt_optional (copiesAt_class hsees (by decide))

theorem exponent_copiesAt (hsees : place.Sees text (run ++ after)) (hrun : Exponent run)
    (hafter : EndsNumeral after) : exponent.optional.CopiesAt text scope place run := by
  cases hrun with
  | none =>
      have hmark : (oneOf "eE").Misses text scope place := by
        apply class_misses hsees
        intro c hc
        have hother := hafter c hc
        simp [inClass, hother]
      exact copiesAt_optional_of_misses (sequence_misses (rowMisses_of_first hmark))
  | @some mark sign run hmark hsign hdigits =>
      have hseen : place.Sees text ([mark] ++ (sign ++ (run ++ after))) := by
        rw [← List.append_assoc sign]
        exact hsees
      have hfirst : (oneOf "eE").CopiesAt text scope place [mark] :=
        copiesAt_class hseen (by rcases hmark with rfl | rfl <;> decide)
      have hoptional : (oneOf "+-").optional.CopiesAt text scope (place.past [mark]) sign :=
        sign_copiesAt hseen.past hsign hdigits
      have hrest : digits.CopiesAt text scope ((place.past [mark]).past sign) run :=
        digits_copiesAt hseen.past.past hdigits hafter.undigit
      have hrow := RowCopiesAt.cons hfirst (.cons hoptional (.cons hrest .nil))
      rw [List.append_nil] at hrow
      exact copiesAt_optional (copiesAt_sequence hrow)

/-- A numeral is matched as a whole wherever no numeral goes on after it. -/
theorem number_complete (hsees : place.Sees text (run ++ after)) (hrun : Numeral run)
    (hafter : EndsNumeral after) :
    number.Matches text scope place ⟨numberValue run, place.past run, scope⟩ := by
  cases hrun with
  | @mk sign whole fraction exponent hsign hwhole hfraction hexponent =>
      have hseen : place.Sees text (sign ++ (whole ++ (fraction ++ (exponent ++ after)))) := by
        simpa only [List.append_assoc] using hsees
      have hfirst : (literal "-").optional.CopiesAt text scope place sign := by
        rcases hsign with rfl | rfl
        · apply copiesAt_optional_of_misses
          apply literal_misses_of_head hseen rfl
          rintro c hc rfl
          cases hwhole.head _ _ hc
        · have hminus : place.Sees text ("-".toList ++ _) := hseen
          exact copiesAt_optional (copiesAt_literal hminus)
      have hdigits : digits.CopiesAt text scope (place.past sign) whole :=
        digits_copiesAt hseen.past hwhole
          (hfraction.head fun c hc => (hexponent.head hafter c hc).1)
      have hpoint : Json.fraction.optional.CopiesAt text scope ((place.past sign).past whole)
          fraction := fraction_copiesAt hseen.past.past hfraction (hexponent.head hafter)
      have hmark : Json.exponent.optional.CopiesAt text scope
          (((place.past sign).past whole).past fraction) exponent :=
        exponent_copiesAt hseen.past.past.past hexponent hafter
      obtain ⟨value, hvalue, hraw⟩ := copiesAt_sequence
        (.cons hfirst (.cons hdigits (.cons hpoint (.cons hmark .nil))))
      rw [List.append_nil] at hvalue hraw
      refine matches_iff.mpr ⟨_, number_form ▸ matches_ofForm_iff.mp hraw, ?_⟩
      show (⟨numberValue value.spelling.toList, _, _⟩ : Match) = _
      rw [hvalue]

theorem number_misses (hsees : place.Sees text rest)
    (hrest : ∀ c ∈ rest.head?, Decimal.isDigit c = false ∧ c ≠ '-') :
    number.Misses text scope place := by
  apply misses_of_row number_form
  obtain ⟨value, -, hsign⟩ : (literal "-").optional.CopiesAt text scope place [] :=
    copiesAt_optional_of_misses
      (literal_misses_of_head hsees rfl fun c hc => (hrest c hc).2)
  apply rowMisses_of_rest hsign
  exact rowMisses_of_first (digits_misses hsees fun c hc => (hrest c hc).1)

instance (c : Char) (digit : Nat) : Decidable (HexDigit c digit) :=
  inferInstanceAs (Decidable (_ ∧ _))

/-- The hexadecimal digits. -/
def hexDigits : List Char :=
  ['0', '1', '2', '3', '4', '5', '6', '7', '8', '9', 'a', 'b', 'c', 'd', 'e', 'f', 'A', 'B', 'C',
    'D', 'E', 'F']

theorem inClass_hexDigit_iff {c : Char} :
    inClass "0123456789abcdefABCDEF".toList false c = true ↔ c ∈ hexDigits := by
  have hlist : "0123456789abcdefABCDEF".toList = hexDigits := String.toList_ofList
  rw [hlist, inClass, Bool.bne_false, List.contains_iff_mem]

/-- A character of the class is a hexadecimal digit with the value that is read. -/
theorem hexDigit_of_mem {c : Char} (hc : c ∈ hexDigits) : HexDigit c (hexDigit c) := by
  have hall : (hexDigits.all fun c => decide (HexDigit c (hexDigit c))) = true := by decide
  exact of_decide_eq_true (List.all_eq_true.mp hall c hc)

/-- A hexadecimal digit is in the class, and its value is what is read. -/
theorem HexDigit.read {c : Char} {digit : Nat} (hdigit : HexDigit c digit) :
    c ∈ hexDigits ∧ hexDigit c = digit := by
  have hlower : ∀ digit < 16, Nat.digitChar digit ∈ hexDigits ∧
      hexDigit (Nat.digitChar digit) = digit := by decide
  have hupper : ∀ digit < 16, (Nat.digitChar digit).toUpper ∈ hexDigits ∧
      hexDigit (Nat.digitChar digit).toUpper = digit := by decide
  obtain ⟨hlimit, rfl | rfl⟩ := hdigit
  · exact hlower digit hlimit
  · exact hupper digit hlimit

/-- The character of four hexadecimal digits. -/
theorem ofHexCode_eq {first second third fourth : Char} {a b c d : Nat}
    (hfirst : HexDigit first a) (hsecond : HexDigit second b) (hthird : HexDigit third c)
    (hfourth : HexDigit fourth d) :
    ofHexCode [first, second, third, fourth] =
      codeChar (((a * 16 + b) * 16 + c) * 16 + d) := by
  have hcode : [first, second, third, fourth].foldl
      (fun total c => 16 * total + hexDigit c) 0 = ((a * 16 + b) * 16 + c) * 16 + d := by
    simp only [List.foldl, hfirst.read.2, hsecond.read.2, hthird.read.2, hfourth.read.2]
    omega
  have ha := hfirst.1
  have hb := hsecond.1
  have hc := hthird.1
  have hd := hfourth.1
  rw [ofHexCode, hcode, codeChar]
  by_cases hsurrogate : 0xD800 ≤ ((a * 16 + b) * 16 + c) * 16 + d ∧
      ((a * 16 + b) * 16 + c) * 16 + d ≤ 0xDFFF
  · rw [if_pos hsurrogate, if_neg]
    rintro (hbelow | habove) <;> omega
  · rw [if_neg hsurrogate, if_pos]
    by_cases hbelow : ((a * 16 + b) * 16 + c) * 16 + d < 0xD800
    · exact .inl hbelow
    · exact .inr ⟨by omega, by omega⟩

section Escapes

variable {pattern part : Pattern} {mark template : String} {kind : List Char → Prop}

/-- An escape takes a mark and what has to follow it, of which the factory makes a value. -/
theorem escape_sound
    (hform : pattern.form = .sequence [literal mark, part.demand template] (some [1]))
    (hpart : part.Copies text scope kind) (hsees : place.Sees text rest)
    (hmatches : pattern.Matches text scope place success) :
    ∃ run after raw, rest = mark.toList ++ run ++ after ∧ kind run ∧
      raw.spelling.toList = run ∧
      success = ⟨pattern.finishValue raw, place.past (mark.toList ++ run), scope⟩ := by
  obtain ⟨values, value, stop, inner, hrow, hpicked, rfl⟩ := row_of_matches hform hmatches
  obtain ⟨start, others, hstart, hothers, rfl⟩ := rowMatches_cons_iff.mp hrow
  obtain ⟨raw, hdemanded, rfl⟩ := rowMatches_singleton_iff.mp hothers
  obtain ⟨_, _, _, rfl, rfl, -, rfl⟩ := copies_literal _ _ _ _ _ _ hsees hstart
  obtain ⟨run, after, other, rfl, hkind, hspelled, hsuccess⟩ :=
    hpart _ _ _ hsees.past (matches_demand_iff.mp hdemanded)
  cases hsuccess
  cases hpicked
  refine ⟨run, after, _, (List.append_assoc _ _ _).symm, hkind, hspelled, ?_⟩
  rw [Position.past_append]
  rfl

theorem escape_complete
    (hform : pattern.form = .sequence [literal mark, part.demand template] (some [1]))
    (hsees : place.Sees text (mark.toList ++ after))
    (hpart : part.CopiesAt text scope (place.past mark.toList) run) :
    ∃ raw : Value, raw.spelling.toList = run ∧ pattern.Matches text scope place
      ⟨pattern.finishValue raw, place.past (mark.toList ++ run), scope⟩ := by
  obtain ⟨raw, hspelled, hmatched⟩ := hpart
  obtain ⟨start, hstart⟩ := literal_matches scope hsees
  rw [Position.past_append]
  exact ⟨raw, hspelled, matches_of_row hform
    (.cons hstart (.single (matches_demand_iff.mpr hmatched))) rfl⟩

theorem escape_misses
    (hform : pattern.form = .sequence [literal mark, part.demand template] (some [1]))
    (hsees : place.Sees text rest) (hother : ¬ mark.toList <+: rest) :
    pattern.Misses text scope place :=
  misses_of_row hform (rowMisses_of_first (literal_misses hsees hother))

end Escapes

theorem unicodeEscape_form :
    unicodeEscape.form = .sequence
      [literal "\\u", ((oneOf "0123456789abcdefABCDEF").exactly 4).demand
        "invalid unicode escape at line \x7bline\x7d, column \x7bcolumn\x7d"] (some [1]) :=
  rfl

theorem unicodeEscape_finishValue (raw : Value) :
    unicodeEscape.finishValue raw = .text (String.ofList [ofHexCode (spelled raw)]) :=
  rfl

theorem letterEscape_form :
    letterEscape.form = .sequence
      [literal "\\", (oneOf "\"\\/bfnrt").demand
        "invalid escape \x7bfound\x7d at line \x7bline\x7d, column \x7bcolumn\x7d"]
      (some [1]) :=
  rfl

theorem letterEscape_finishValue (raw : Value) :
    letterEscape.finishValue raw = .text (String.ofList [unescape (spelled raw)]) :=
  rfl

theorem unicodeEscape_sound (hsees : place.Sees text rest)
    (hmatches : unicodeEscape.Matches text scope place success) :
    ∃ run after c value, rest = run ++ after ∧ Piece run c ∧
      value.spelling.toList = [c] ∧ success = ⟨value, place.past run, scope⟩ := by
  obtain ⟨run, after, raw, rfl, ⟨hrun, hlength⟩, hspelled, rfl⟩ := escape_sound
    unicodeEscape_form (copies_times (Match.resolveBounds_some (Nat.le_refl 4) (by decide)))
    hsees hmatches
  obtain ⟨first, second, third, fourth, rfl⟩ := List.length_eq_four.mp hlength
  have hdigit (c : Char) (hc : c ∈ [first, second, third, fourth]) : HexDigit c (hexDigit c) :=
    hexDigit_of_mem (inClass_hexDigit_iff.mp (hrun c hc))
  have hfirst := hdigit first (by simp)
  have hsecond := hdigit second (by simp)
  have hthird := hdigit third (by simp)
  have hfourth := hdigit fourth (by simp)
  refine ⟨_, after, _, _, rfl, .code hfirst hsecond hthird hfourth, ?_, rfl⟩
  rw [unicodeEscape_finishValue, Value.toList_spelling_text, String.toList_ofList, spelled,
    hspelled, ofHexCode_eq hfirst hsecond hthird hfourth]

theorem inClass_letter_iff {letter : Char} :
    inClass "\"\\/bfnrt".toList false letter = true ↔
      letter ∈ ['"', '\\', '/', 'b', 'f', 'n', 'r', 't'] := by
  have hlist : "\"\\/bfnrt".toList = ['"', '\\', '/', 'b', 'f', 'n', 'r', 't'] :=
    String.toList_ofList
  rw [hlist, inClass, Bool.bne_false, List.contains_iff_mem]

/-- The letters of the class are those that denote a character. -/
theorem letterEscape_of_inClass {letter : Char}
    (hletter : inClass "\"\\/bfnrt".toList false letter = true) :
    LetterEscape letter (unescape [letter]) := by
  have hmem := inClass_letter_iff.mp hletter
  simp only [List.mem_cons, List.not_mem_nil, or_false] at hmem
  rcases hmem with rfl | rfl | rfl | rfl | rfl | rfl | rfl | rfl
  · exact .quote
  · exact .backslash
  · exact .slash
  · exact .backspace
  · exact .formFeed
  · exact .newline
  · exact .carriageReturn
  · exact .tab

theorem LetterEscape.read {letter c : Char} (hescape : LetterEscape letter c) :
    letter ∈ ['"', '\\', '/', 'b', 'f', 'n', 'r', 't'] ∧ unescape [letter] = c := by
  cases hescape <;> decide

theorem letterEscape_sound (hsees : place.Sees text rest)
    (hmatches : letterEscape.Matches text scope place success) :
    ∃ run after c value, rest = run ++ after ∧ Piece run c ∧
      value.spelling.toList = [c] ∧ success = ⟨value, place.past run, scope⟩ := by
  obtain ⟨run, after, raw, rfl, ⟨letter, rfl, hletter⟩, hspelled, rfl⟩ := escape_sound
    letterEscape_form (copies_class text scope _ _) hsees hmatches
  refine ⟨_, after, _, _, rfl, .letter (letterEscape_of_inClass hletter), ?_, rfl⟩
  rw [letterEscape_finishValue, Value.toList_spelling_text, String.toList_ofList, spelled,
    hspelled]

/-- A character of a string. -/
def stringChar : Pattern :=
  choice [unicodeEscape, letterEscape, noneOf "\"\\\n"]

theorem inClass_plain_iff {c : Char} :
    inClass "\"\\\n".toList true c = true ↔ c ≠ '"' ∧ c ≠ '\\' ∧ c ≠ '\n' := by
  simp [inClass]

theorem stringChar_sound (hsees : place.Sees text rest)
    (hmatches : stringChar.Matches text scope place success) :
    ∃ run after c value, rest = run ++ after ∧ Piece run c ∧
      value.spelling.toList = [c] ∧ success = ⟨value, place.past run, scope⟩ := by
  rcases Form.matches_choice_cons_iff.mp (matches_ofForm_iff.mp hmatches) with
    hcode | ⟨-, hmatches⟩
  · exact unicodeEscape_sound hsees hcode
  rcases Form.matches_choice_cons_iff.mp hmatches with hletter | ⟨-, hmatches⟩
  · exact letterEscape_sound hsees hletter
  rcases Form.matches_choice_cons_iff.mp hmatches with hplain | ⟨-, hmatches⟩
  · obtain ⟨_, after, value, rfl, ⟨c, rfl, hc⟩, hspelled, rfl⟩ :=
      copies_class _ _ _ _ _ _ _ hsees hplain
    exact ⟨[c], after, c, value, rfl, .plain (inClass_plain_iff.mp hc), hspelled, rfl⟩
  · exact absurd hmatches Form.not_matches_choice_nil

theorem toList_codeMark : "\\u".toList = ['\\', 'u'] :=
  String.toList_ofList

theorem toList_letterMark : "\\".toList = ['\\'] :=
  String.toList_ofList

theorem escapes_miss {c : Char} (hsees : place.Sees text (c :: after)) (hc : c ≠ '\\') :
    unicodeEscape.Misses text scope place ∧ letterEscape.Misses text scope place := by
  constructor
  · apply escape_misses unicodeEscape_form hsees
    rw [toList_codeMark, List.cons_prefix_cons]
    exact fun hprefix => hc hprefix.1.symm
  · apply escape_misses letterEscape_form hsees
    rw [toList_letterMark, List.cons_prefix_cons]
    exact fun hprefix => hc hprefix.1.symm

theorem stringChar_complete {c : Char} (hsees : place.Sees text (run ++ after))
    (hpiece : Piece run c) :
    ∃ value : Value, value.spelling.toList = [c] ∧
      stringChar.Matches text scope place ⟨value, place.past run, scope⟩ := by
  cases hpiece with
  | plain hplain =>
      obtain ⟨hcode, hletter⟩ : unicodeEscape.Misses text scope place ∧
          letterEscape.Misses text scope place := escapes_miss hsees hplain.2.1
      obtain ⟨value, hspelled, hmatched⟩ : (noneOf "\"\\\n").CopiesAt text scope place [c] :=
        copiesAt_class hsees (inClass_plain_iff.mpr hplain)
      refine ⟨value, hspelled, matches_ofForm_iff.mpr ?_⟩
      refine Form.matches_choice_cons_iff.mpr (.inr ⟨hcode, ?_⟩)
      refine Form.matches_choice_cons_iff.mpr (.inr ⟨hletter, ?_⟩)
      exact Form.matches_choice_cons_iff.mpr (.inl hmatched)
  | @letter letter c hescape =>
      obtain ⟨hletter, hread⟩ := hescape.read
      have hcode : unicodeEscape.Misses text scope place := by
        apply escape_misses unicodeEscape_form hsees
        rw [toList_codeMark]
        show ¬ ['\\', 'u'] <+: '\\' :: letter :: after
        rw [List.cons_prefix_cons, List.cons_prefix_cons]
        rintro ⟨-, rfl, -⟩
        revert hletter
        decide
      have hseen : place.Sees text ("\\".toList ++ (letter :: after)) := hsees
      obtain ⟨raw, hspelled, hmatched⟩ := escape_complete letterEscape_form hseen
        (copiesAt_class hseen.past (inClass_letter_iff.mpr hletter))
      refine ⟨_, ?_, matches_ofForm_iff.mpr (Form.matches_choice_cons_iff.mpr
        (.inr ⟨hcode, Form.matches_choice_cons_iff.mpr (.inl hmatched)⟩))⟩
      rw [letterEscape_finishValue, Value.toList_spelling_text, String.toList_ofList, spelled,
        hspelled, hread]
  | @code first second third fourth a b c d hfirst hsecond hthird hfourth =>
      have hseen : place.Sees text ("\\u".toList ++ ([first, second, third, fourth] ++ after)) :=
        hsees
      have hdigits (digit : Char) (hdigit : digit ∈ [first, second, third, fourth]) :
          inClass "0123456789abcdefABCDEF".toList false digit = true := by
        apply inClass_hexDigit_iff.mpr
        simp only [List.mem_cons, List.not_mem_nil, or_false] at hdigit
        rcases hdigit with rfl | rfl | rfl | rfl
        · exact hfirst.read.1
        · exact hsecond.read.1
        · exact hthird.read.1
        · exact hfourth.read.1
      obtain ⟨raw, hspelled, hmatched⟩ := escape_complete unicodeEscape_form hseen
        (copiesAt_times hseen.past (Match.resolveBounds_some (Nat.le_refl 4) (by decide)) hdigits
          rfl)
      refine ⟨_, ?_, matches_ofForm_iff.mpr (Form.matches_choice_cons_iff.mpr (.inl hmatched))⟩
      rw [unicodeEscape_finishValue, Value.toList_spelling_text, String.toList_ofList, spelled,
        hspelled, ofHexCode_eq hfirst hsecond hthird hfourth]

/-- No character of a string begins with the quote that ends it. -/
theorem stringChar_misses (hsees : place.Sees text ('"' :: after)) :
    stringChar.Misses text scope place := by
  obtain ⟨hcode, hletter⟩ : unicodeEscape.Misses text scope place ∧
      letterEscape.Misses text scope place := escapes_miss hsees (by decide)
  have hplain : (noneOf "\"\\\n").Misses text scope place := by
    apply class_misses hsees
    intro c hc
    cases hc
    exact Bool.eq_false_iff.mpr fun hplain => (inClass_plain_iff.mp hplain).1 rfl
  apply misses_of_form
  apply Form.choice_cons_misses hcode
  apply Form.choice_cons_misses hletter
  exact Form.choice_cons_misses hplain Form.choice_nil_misses

theorem Piece.ne_nil {c : Char} (hpiece : Piece run c) : run ≠ [] := by
  cases hpiece <;> simp

/-- The rounds over the characters of a string take what may stand between its quotes. -/
theorem body_of_series {count : Nat} {values : List Value} {stop : Position} {inner : Scope}
    (hseries : Series text stringChar none none count scope place values stop inner)
    (hsees : place.Sees text rest) :
    ∃ run after content, rest = run ++ after ∧ Body run content ∧
      (Value.list values).spelling.toList = content ∧ stop = place.past run ∧
      inner = scope := by
  have hnothing : (Value.list []).spelling.toList = [] := Value.toList_spelling_list []
  induction hseries generalizing rest with
  | full hfull => exact ⟨[], rest, _, rfl, .nil, hnothing, rfl, rfl⟩
  | missed hopen hmissed => exact ⟨[], rest, _, rfl, .nil, hnothing, rfl, rfl⟩
  | still hopen hrow hstill =>
      obtain ⟨run, after, c, value, rfl, hpiece, hspelled, hsuccess⟩ :=
        stringChar_sound hsees (rowMatches_part_iff.mp hrow).2
      cases hsuccess
      refine ⟨run, after, [c], rfl, ?_, ?_, rfl, rfl⟩
      · simpa using Body.cons hpiece .nil
      · rw [Value.toList_spelling_list, List.flatMap_singleton, hspelled]
  | moved hopen hrow hmoved hrest ih =>
      obtain ⟨piece, after, c, value, rfl, hpiece, hspelled, hsuccess⟩ :=
        stringChar_sound hsees (rowMatches_part_iff.mp hrow).2
      cases hsuccess
      obtain ⟨run, last, content, rfl, hbody, hvalues, rfl, rfl⟩ := ih hsees.past
      refine ⟨piece ++ run, last, c :: content, (List.append_assoc _ _ _).symm,
        .cons hpiece hbody, ?_, (Position.past_append _ _ _).symm, rfl⟩
      rw [Value.toList_spelling_list] at hvalues ⊢
      rw [List.flatMap_cons, hspelled, hvalues, List.singleton_append]

/-- What may stand between the quotes of a string, the rounds over its characters take,
up to the quote. -/
theorem series_of_body {content : List Char} (hbody : Body run content) (scope : Scope)
    (count : Nat) (hsees : place.Sees text (run ++ ('"' :: after))) :
    ∃ values, (Value.list values).spelling.toList = content ∧
      Series text stringChar none none count scope place values (place.past run) scope := by
  have hopen (count : Nat) : ¬ FullAt none count := by simp [FullAt]
  induction hbody generalizing place count with
  | nil =>
      refine ⟨[], Value.toList_spelling_list [], .missed (hopen count) ?_⟩
      exact rowMisses_part_iff.mpr (stringChar_misses hsees)
  | @cons piece run content c hpiece hrest ih =>
      have hseen : place.Sees text (piece ++ (run ++ ('"' :: after))) := by
        rwa [← List.append_assoc]
      obtain ⟨value, hspelled, hmatched⟩ : ∃ value : Value, value.spelling.toList = [c] ∧
          stringChar.Matches text scope place ⟨value, place.past piece, scope⟩ :=
        stringChar_complete hseen hpiece
      obtain ⟨values, hvalues, hseries⟩ := ih (count + 1) hseen.past
      have hmoved : (place.past piece).offset ≠ place.offset := by
        rw [Position.offset_past]
        have hlength := List.length_pos_iff.mpr hpiece.ne_nil
        omega
      refine ⟨value :: values, ?_, ?_⟩
      · rw [Value.toList_spelling_list] at hvalues ⊢
        rw [List.flatMap_cons, hspelled, hvalues, List.singleton_append]
      · rw [Position.past_append]
        exact .moved (hopen count) (rowMatches_part_iff.mpr ⟨rfl, hmatched⟩) hmoved hseries

theorem stringRule_form :
    stringRule.form = .sequence
      [literal "\"", stringChar.many,
        (literal "\"").demand "unterminated string at line \x7bline\x7d, column \x7bcolumn\x7d"]
      (some [1]) :=
  rfl

theorem stringRule_finishValue (raw : Value) :
    stringRule.finishValue raw = .text raw.spelling :=
  rfl

/-- A string takes a quote, a body and a quote, and its value is the text of the body. -/
theorem stringRule_sound (hsees : place.Sees text rest)
    (hmatches : stringRule.Matches text scope place success) :
    ∃ run after content, rest = '"' :: (run ++ ('"' :: after)) ∧ Body run content ∧
      success = ⟨.text (String.ofList content), place.past ('"' :: (run ++ ['"'])), scope⟩ := by
  obtain ⟨values, value, stop, inner, hrow, hpicked, rfl⟩ := row_of_matches stringRule_form hmatches
  obtain ⟨start, others, hstart, hothers, rfl⟩ := rowMatches_cons_iff.mp hrow
  obtain ⟨middle, others, hmiddle, hlast, rfl⟩ := rowMatches_cons_iff.mp hothers
  obtain ⟨final, hfinal, rfl⟩ := rowMatches_singleton_iff.mp hlast
  obtain ⟨_, _, _, rfl, rfl, -, rfl⟩ := copies_literal _ _ _ _ _ _ hsees hstart
  obtain ⟨characters, hseries, -, hcharacters⟩ := 
    (matches_atLeast_iff (Nat.zero_le _)).mp hmiddle
  obtain ⟨run, _, content, rfl, hbody, hspelled, hstop, hinner⟩ :=
    body_of_series hseries hsees.past
  rw [hstop, hinner] at hfinal
  obtain ⟨after, rfl, hsuccess⟩ :=
    (matches_literal_iff hsees.past.past).mp (matches_demand_iff.mp hfinal)
  cases hpicked
  refine ⟨run, after, content, rfl, hbody, ?_⟩
  obtain ⟨-, hlast, hscope⟩ := Match.mk.inj hsuccess
  subst hlast hscope
  rw [stringRule_finishValue, hcharacters, ← hspelled, String.ofList_toList]
  rw [← Position.past_append, ← Position.past_append]
  rfl

/-- A body is matched as a string wherever it stands between quotes. -/
theorem stringRule_complete {content : List Char} (hbody : Body run content)
    (hsees : place.Sees text ('"' :: (run ++ ('"' :: after)))) :
    stringRule.Matches text scope place
      ⟨.text (String.ofList content), place.past ('"' :: (run ++ ['"'])), scope⟩ := by
  have hseen : place.Sees text ("\"".toList ++ (run ++ ("\"".toList ++ after))) := hsees
  obtain ⟨start, hstart⟩ := literal_matches scope hseen
  obtain ⟨values, hspelled, hseries⟩ := series_of_body hbody scope 0 hseen.past
  obtain ⟨final, hfinal⟩ := literal_matches scope hseen.past.past
  have hcharacters : stringChar.many.Matches text scope (place.past "\"".toList)
      ⟨.list values, (place.past "\"".toList).past run, scope⟩ :=
    (matches_atLeast_iff (Nat.zero_le _)).mpr ⟨values, hseries, Nat.zero_le _, rfl⟩
  have hmatches := matches_of_row stringRule_form
    (.cons hstart (.cons hcharacters (.single (matches_demand_iff.mpr hfinal)))) rfl
  rw [stringRule_finishValue, ← Position.past_append, ← Position.past_append] at hmatches
  rw [← hspelled, String.ofList_toList]
  exact hmatches

theorem stringRule_misses (hsees : place.Sees text rest) (hrest : ∀ c ∈ rest.head?, c ≠ '"') :
    stringRule.Misses text scope place :=
  misses_of_row stringRule_form
    (rowMisses_of_first (literal_misses_of_head hsees rfl hrest))

end ScopedGrammar.Json
