/-
# What stands where a pattern does not match

An absence looks for its pattern first. Where this misses, it takes as many characters as the
absence is wide, or misses itself if fewer are left. To see whether the last of them is there,
the offset of that character is computed: offset and width are added, and one is taken off
again. It is the sum that has to fit the word of offsets. So close to the end of the word an
absence halts where it should miss, even if the offset of the last character would fit.

A text that fits the word never has the characters that such an absence asks for, so the halt
takes the place of a miss and of nothing else. Nothing is said here about where the pattern
itself misses.
-/

import ScopedGrammar.Proofs.Input.Advancing
import ScopedGrammar.Proofs.Match.Agreement
import ScopedGrammar.Proofs.Match.Characters
import ScopedGrammar.Proofs.Match.Halting

namespace ScopedGrammar

variable {π : Type} [Producer π]

namespace Match

variable {width : Nat} {place : Position}

/-- A complete text gives the characters that are there. -/
theorem captureToken_ofText {text : String} (hthere : width ≤ text.length - place.offset)
    (scope : Scope) :
    captureToken width scope place (Input.ofText text) =
      (.matched (taking ((text.toList.drop place.offset).take width) scope place),
        Input.ofText text) := by
  simp only [captureToken, Attempt.bind_eq_andThen, Attempt.andThen, Attempt.read,
    Token.capture_ofText hthere]
  rfl

/-- Within the word, the characters of a complete text are taken if all of them are there. -/
theorem wide_ofText (hword : width = 0 ∨ place.offset + width < offsetBound) (scope : Scope)
    (text : String) :
    wide width scope place (Input.ofText text) =
      (if width ≤ text.length - place.offset then
          .matched (taking ((text.toList.drop place.offset).take width) scope place)
        else .missed, Input.ofText text) := by
  by_cases hzero : width = 0
  · have hthere : width ≤ text.length - place.offset := hzero ▸ Nat.zero_le _
    rw [wide, if_pos hzero, if_pos hthere]
    exact captureToken_ofText hthere scope
  · have hfits := Nat.not_le.mpr (hword.resolve_left hzero)
    have hpos : 0 < width := Nat.pos_of_ne_zero hzero
    rw [wide, if_neg hzero, if_neg hfits]
    simp only [Attempt.bind_eq_andThen, Attempt.andThen, Attempt.read, Input.has,
      Input.charAt_ofText]
    by_cases hthere : width ≤ text.length - place.offset
    · have hlast : place.offset + width - 1 < text.toList.length := by
        rw [String.length_toList]
        omega
      rw [if_pos hthere, List.getElem?_eq_getElem hlast]
      exact captureToken_ofText hthere scope
    · have hlast : text.toList.length ≤ place.offset + width - 1 := by
        rw [String.length_toList]
        omega
      rw [if_neg hthere, List.getElem?_eq_none hlast]
      rfl

/-- Within the word, it does not matter how the characters arrive. -/
theorem wide_of_admits (hword : width = 0 ∨ place.offset + width < offsetBound) {scope : Scope}
    {input : Input π} {text : String} (hadmits : (wide width scope place input).2.Admits text) :
    (wide width scope place input).1 =
      if width ≤ text.length - place.offset then
        .matched (taking ((text.toList.drop place.offset).take width) scope place)
      else .missed := by
  have hagrees := (agrees_wide width scope place input).answers rfl hadmits
  rw [wide_ofText hword] at hagrees
  exact (congrArg Prod.fst hagrees).symm

/-- To take characters leaves the word exactly if the sum of offset and width does. -/
theorem wide_eq_overflow_iff (width : Nat) (scope : Scope) (place : Position)
    (input : Input π) :
    (wide width scope place input).1 = .halted .overflow ↔
      width ≠ 0 ∧ offsetBound ≤ place.offset + width := by
  constructor
  · intro hhalted
    obtain ⟨hwidth, hbeyond, -⟩ := wide_eq_halted (Prod.ext hhalted rfl)
    exact ⟨hwidth, hbeyond⟩
  · rintro ⟨hwidth, hbeyond⟩
    rw [wide, if_neg hwidth, if_pos hbeyond]
    rfl

end Match

namespace Pattern

/-- Where its pattern misses, an absence goes on to take the characters. -/
theorem run_absent_of_missed {granted : Nat} {inner : Pattern} {scope : Scope}
    {place : Position} {input between : Input π}
    (hmissed : inner.run granted scope place input = (.missed, between)) (width : Nat) :
    (inner.absent width).run (granted + 1) scope place input =
      Match.wide width scope place between := by
  have hform : (inner.absent width).run (granted + 1) scope place input =
      ((inner.run granted scope place).absent >>= fun _ => Match.wide width scope place) input :=
    congrFun (run_ofForm granted scope place _) input
  rw [hform, Attempt.bind_eq_andThen, Attempt.andThen, Attempt.absent, hmissed]

/-- Where its pattern misses, an absence overflows exactly if it has a width and the sum of offset
and width leaves the word. Otherwise it takes as many characters as it is wide, as one token, if
so many are left, and misses if fewer are. In a text that fits the word it overflows only where
fewer are left. -/
theorem absent_takes_width (granted : Nat) (inner : Pattern) (width : Nat) (scope : Scope)
    (place : Position) (input : Input π) {between : Input π}
    (hmissed : inner.run granted scope place input = (.missed, between)) :
    let ending := (inner.absent width).run (granted + 1) scope place input
    (ending.1 = .halted .overflow ↔ width ≠ 0 ∧ offsetBound ≤ place.offset + width) ∧
    ∀ text : String, ending.2.Admits text →
      (ending.1 ≠ .halted .overflow →
        ending.1 =
          if width ≤ text.length - place.offset then
            .matched (Match.taking ((text.toList.drop place.offset).take width) scope place)
          else .missed) ∧
      (ending.1 = .halted .overflow → text.length < offsetBound →
        text.length - place.offset < width) := by
  intro ending
  have hending : ending = Match.wide width scope place between :=
    run_absent_of_missed hmissed width
  have hoverflow : ending.1 = .halted .overflow ↔
      width ≠ 0 ∧ offsetBound ≤ place.offset + width := by
    rw [hending]
    exact Match.wide_eq_overflow_iff width scope place between
  refine ⟨hoverflow, fun text hadmits => ⟨?_, ?_⟩⟩
  · intro hwithin
    have hword : width = 0 ∨ place.offset + width < offsetBound := by
      have hsum := mt hoverflow.mpr hwithin
      omega
    rw [hending] at hadmits ⊢
    exact Match.wide_of_admits hword hadmits
  · intro hhalted hfits
    obtain ⟨hwidth, hbeyond⟩ := hoverflow.mp hhalted
    omega

/-- Three characters behind the first one, in three chunks. None of the letters that are looked for
stands there, and the text may go on in any way. -/
theorem absent_takes_width_over_chunks :
    let inner := oneOf "xyz"
    let place : Position := ⟨1, 2, 1⟩
    let input := Input.ofProducer (Script.ofChunks [some "ab", some "\n", some "é", some "more"])
    let between : Input Script :=
      ⟨#['a', 'b'], false, 1, ⟨[some "\n", some "é", some "more"], #[.primary]⟩⟩
    let ending := (inner.absent 3).run 2 Scope.empty place input
    inner.run 1 Scope.empty place input = (.missed, between) ∧
      ending.2.Admits "ab\né, or so" ∧
      ending.1 = .matched (Match.taking ['b', '\n', 'é'] Scope.empty place) := by
  intro inner place input between ending
  have hmissed : inner.run 1 Scope.empty place input = (.missed, between) := by cbv
  have hadmits : ending.2.Admits "ab\né, or so" := by
    have hlater : ((inner.absent 3).run 2 Scope.empty place input).2 =
        ⟨#['a', 'b', '\n', 'é'], false, 3,
          ⟨[some "more"], #[.primary, .continuation, .continuation]⟩⟩ := by cbv
    show ((inner.absent 3).run 2 Scope.empty place input).2.Admits _
    rw [hlater]
    exact ⟨by decide, by decide⟩
  obtain ⟨hword, htakes⟩ := absent_takes_width 1 inner 3 Scope.empty place input hmissed
  have hwithin : ending.1 ≠ .halted .overflow := fun hhalted =>
    absurd (hword.mp hhalted).2 (by decide)
  exact ⟨hmissed, hadmits, (htakes _ hadmits).1 hwithin⟩

/-- Behind one character, the greatest width leaves the word. The offset of the last character
that is asked for would fit it, and no character is there. -/
theorem not_absent_misses_within_word :
    ¬ ∀ (granted : Nat) (inner : Pattern) (width : Nat) (scope : Scope) (place : Position)
        (text : String), width < offsetBound → place.offset < offsetBound →
      (inner.run granted scope place (Input.ofText text)).1 = .missed →
        ((inner.absent width).run (granted + 1) scope place (Input.ofText text)).1 =
          if width ≤ text.length - place.offset then
            .matched (Match.taking ((text.toList.drop place.offset).take width) scope place)
          else .missed := by
  intro hall
  have hmissed : ((literal "x").run 1 Scope.empty ⟨1, 2, 1⟩ (Input.ofText "a")).1 = .missed := by
    cbv
  have hhalted : (((literal "x").absent 0xFFFFFFFFFFFFFFFF).run 2 Scope.empty ⟨1, 2, 1⟩
      (Input.ofText "a")).1 = .halted .overflow := by cbv
  have hmisses := hall 1 (literal "x") 0xFFFFFFFFFFFFFFFF Scope.empty ⟨1, 2, 1⟩ "a" (by decide)
    (by decide) hmissed
  rw [hhalted, if_neg (by decide)] at hmisses
  cases hmisses

end Pattern

end ScopedGrammar
