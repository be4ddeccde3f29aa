/-
# Tokens at a seam

No token goes on across a seam. What leads up to the seam is told by the characters that a token
is made of: after a character of a name, no name goes on; after the first half of an operator of
two characters, the other half does not come; and a string or a comment that begins before the
seam has ended there. So each token is matched in a program as in the program with the gap, and
if it ends at the seam, its last character tells.
-/

import ScopedGrammar.Proofs.Croco.Seams

namespace ScopedGrammar.Croco

open Pattern

variable {seam : Seam} {setting : Setting} {edge further : Prop} {scope otherScope : Scope}
  {place other : Position} {steps more : Nat} {kind narrower : Char → Bool}
  {word passed ahead run rest : List Char}

namespace Seam

/-- Neither what comes behind a seam nor the gap begins with a character of a kind. -/
def Bars (seam : Seam) (kind : Char → Bool) : Prop :=
  (∀ c ∈ seam.back.head?, kind c = false) ∧ ∀ c ∈ seam.gap.head?, kind c = false

theorem Bars.mono (hbars : seam.Bars kind) (hnarrower : ∀ c, narrower c = true → kind c = true) :
    seam.Bars narrower := by
  have hother (c : Char) (hc : kind c = false) : narrower c = false := by
    rw [Bool.eq_false_iff] at hc ⊢
    exact mt (hnarrower c) hc
  exact ⟨fun c hc => hother c (hbars.1 c hc), fun c hc => hother c (hbars.2 c hc)⟩

/-- What no gap begins with is barred if it does not come behind the seam. -/
theorem bars_of_back (hback : ∀ c ∈ seam.back.head?, kind c = false)
    (hgap : ∀ c ∈ gapStarts, kind c = false) : seam.Bars kind := by
  refine ⟨hback, fun c hc => ?_⟩
  obtain ⟨d, more, hsplit, hd⟩ := seam.head_gap
  rw [hsplit] at hc
  cases hc
  exact hgap _ hd

theorem gapStarts_apart :
    ∀ c ∈ gapStarts, isNameChar c = false ∧ c ∉ ['.', '(', '[', '*', '/', '='] := by
  decide

theorem bars_of_word (hended : seam.Ended isNameChar) : seam.Bars isNameChar := by
  obtain ⟨c, hc, hname⟩ := hended
  exact bars_of_back (seam.apart.word c hc hname) fun d hd => (gapStarts_apart d hd).1

end Seam

/-- Whether the characters of a text belong together: each two in a row are characters of names
or one operator. -/
def joined (word : List Char) : Bool :=
  (word.zip word.tail).all fun pair =>
    isNameChar pair.1 && isNameChar pair.2 || doubles.contains pair

theorem mem_zip_tail (front : List Char) (first second : Char) (back : List Char) :
    (first, second) ∈ (front ++ first :: second :: back).zip
      (front ++ first :: second :: back).tail := by
  induction front with
  | nil => exact List.mem_cons_self
  | cons c front ih =>
      cases front with
      | nil => exact List.mem_cons_of_mem _ ih
      | cons d front => exact List.mem_cons_of_mem _ ih

/-- No text whose characters belong together goes on across a seam. -/
theorem Seam.bars_of_joined {first second : Char} {back : List Char}
    (hword : joined (run ++ first :: second :: back) = true)
    (hfront : seam.front.getLast? = some first) : seam.Bars (· == second) := by
  have hpair := List.all_eq_true.mp hword _ (mem_zip_tail run first second back)
  simp only [Bool.or_eq_true, Bool.and_eq_true, List.contains_iff_mem] at hpair
  rcases hpair with ⟨hfirst, hsecond⟩ | hdouble
  · exact (bars_of_word ⟨first, hfront, hfirst⟩).mono fun c hc => by
      rw [beq_iff_eq.mp hc]
      exact hsecond
  · have hseconds : ∀ pair ∈ doubles, pair.2 ∈ ['*', '/', '='] := by decide
    refine bars_of_back (fun c hc => ?_) fun c hc => ?_
    · rw [beq_eq_false_iff_ne]
      rintro rfl
      exact seam.apart.operator _ hdouble hfront hc
    · rw [beq_eq_false_iff_ne]
      rintro rfl
      have hother := (gapStarts_apart c hc).2
      have hmem := hseconds _ hdouble
      simp only [List.mem_cons, List.not_mem_nil, or_false] at hother hmem
      tauto

/-- Whether a text ends with a character. -/
def endsWith (word : String) (c : Char) : Bool :=
  word.toList.getLast? == some c

/-- Whether a text begins with a character. -/
def beginsWith (word : String) (c : Char) : Bool :=
  word.toList.head? == some c

theorem not_prefix_of_bars {word rest : List Char} (hsome : word ≠ [])
    (hrest : ∀ c ∈ rest.head?, (word.head? == some c) = false) : ¬ word <+: rest := by
  obtain ⟨c, more, rfl⟩ := List.exists_cons_of_ne_nil hsome
  refine not_prefix_of_head rfl fun d hd => ?_
  have hother := hrest d hd
  rintro rfl
  simp at hother

/-- A text that does not stand before the seam does not go on across it either. -/
theorem Seam.not_prefix_across (hword : joined word = true) (hfront : seam.front = passed ++ ahead)
    (hahead : ahead ≠ []) (hnot : ¬ word <+: ahead) :
    ¬ word <+: ahead ++ seam.back ∧ ¬ word <+: ahead ++ (seam.gap ++ seam.back) := by
  have hacross {behind : List Char}
      (hbars : ∀ kind : Char → Bool, seam.Bars kind → ∀ c ∈ behind.head?, kind c = false) :
      ¬ word <+: ahead ++ behind := by
    rintro hprefix
    rcases List.prefix_or_prefix_of_prefix hprefix (List.prefix_append ahead behind) with
      hinside | ⟨back, rfl⟩
    · exact hnot hinside
    · have hback : back <+: behind := (List.prefix_append_right_inj ahead).mp hprefix
      cases back with
      | nil => exact hnot (by rw [List.append_nil])
      | cons second back =>
          obtain ⟨after, rfl⟩ := hback
          have hsplit := List.dropLast_append_getLast hahead
          have hlast : seam.front.getLast? = some (ahead.getLast hahead) := by
            rw [hfront, List.getLast?_append_of_ne_nil _ hahead,
              List.getLast?_eq_getLast_of_ne_nil hahead]
          rw [← hsplit, List.append_assoc] at hword
          have hnone := hbars _ (bars_of_joined hword hlast) second rfl
          rw [beq_self_eq_true] at hnone
          cases hnone
  exact ⟨hacross fun kind hbars => hbars.1,
    hacross fun kind hbars => seam.head?_gap_append seam.back ▸ hbars.2⟩

/-- A text whose characters belong together is matched on both sides or on neither. -/
theorem literal_lands (scope otherScope : Scope) {expected : String}
    (hword : joined expected.toList = true) (hsome : expected.toList ≠ [])
    (hfaces : seam.Faces edge place other) (hedge : edge → seam.Bars (beginsWith expected))
    (steps more : Nat) :
    seam.edit.Follows (Lands (seam.Faces (seam.Ended (endsWith expected))) Value.Alike)
      ((literal expected).run steps scope place)
      ((literal expected).run more otherScope other) := by
  have hmatches {text : String} {scope : Scope} {place : Position} {rest : List Char}
      (hsees : place.Sees text (expected.toList ++ rest)) :
      (literal expected).Matches text scope place
        ⟨.token ⟨expected, place, place.past expected.toList⟩, place.past expected.toList, scope⟩ :=
    (matches_literal_iff hsees).mpr ⟨rest, rfl, rfl⟩
  cases hfaces with
  | before hfront hahead hplace hother =>
      rename_i passed ahead
      subst hother
      obtain ⟨hsees, hsecond⟩ := Seam.sees_before hfront hplace
      by_cases hprefix : expected.toList <+: ahead
      · obtain ⟨behind, rfl⟩ := hprefix
        rw [List.append_assoc] at hsees hsecond
        refine Edit.of_matches (hmatches hsees) (hmatches hsecond)
          ⟨.token rfl, .past_before hfront hplace ?_⟩ steps more
        rintro rfl
        refine ⟨expected.toList.getLast hsome, ?_, ?_⟩
        · rw [hfront, List.append_nil, List.getLast?_append_of_ne_nil _ hsome]
          exact List.getLast?_eq_getLast_of_ne_nil hsome
        · rw [endsWith, List.getLast?_eq_getLast_of_ne_nil hsome, beq_self_eq_true]
      · obtain ⟨hfirst, hgap⟩ := seam.not_prefix_across hword hfront hahead hprefix
        exact Edit.of_misses (literal_misses hsees hfirst) (literal_misses hsecond hgap) steps more
  | within hreason hplace hother =>
      subst hother
      obtain ⟨hsees, hsecond⟩ := Seam.sees_within hplace
      have hbars := hedge hreason
      have hgap := not_prefix_of_bars hsome (seam.head?_gap_append seam.back ▸ hbars.2)
      exact Edit.of_misses (literal_misses hsees (not_prefix_of_bars hsome hbars.1))
        (literal_misses hsecond hgap) steps more
  | after hback hplace hother =>
      rename_i passed rest
      obtain ⟨hsees, hsecond⟩ := Seam.sees_after hback hplace hother
      by_cases hprefix : expected.toList <+: rest
      · obtain ⟨behind, rfl⟩ := hprefix
        exact Edit.of_matches (hmatches hsees) (hmatches hsecond)
          ⟨.token rfl, .past_after hback hplace hother⟩ steps more
      · exact Edit.of_misses (literal_misses hsees hprefix) (literal_misses hsecond hprefix)
          steps more

/-- Whether a class has a character. -/
abbrev isMember (members : String) : Char → Bool :=
  inClass members.toList false

variable {members : String}

theorem class_lands (hfaces : seam.Faces edge place other)
    (hedge : edge → seam.Bars (isMember members)) :
    seam.edit.Follows (Lands (seam.Faces (seam.Ended (isMember members))) Value.Alike)
      ((oneOf members).run steps scope place) ((oneOf members).run more otherScope other) := by
  have hmatches {text : String} {scope : Scope} {place : Position} {c : Char} {rest : List Char}
      (hsees : place.Sees text (c :: rest)) (hc : isMember members c = true) :
      (oneOf members).Matches text scope place
        ⟨.token ⟨String.ofList [c], place, place.step c⟩, place.past [c], scope⟩ :=
    matches_ofForm_iff.mpr ((Form.matches_charClass_iff hsees).mpr ⟨c, rest, rfl, hc, rfl⟩)
  cases hfaces with
  | before hfront hahead hplace hother =>
      rename_i passed ahead
      subst hother
      obtain ⟨hsees, hsecond⟩ := Seam.sees_before hfront hplace
      obtain ⟨c, behind, rfl⟩ := List.exists_cons_of_ne_nil hahead
      by_cases hc : isMember members c = true
      · refine Edit.of_matches (hmatches hsees hc) (hmatches hsecond hc)
          ⟨.token rfl, .past_before hfront hplace ?_⟩ steps more
        rintro rfl
        exact Seam.ended_of_front hfront (List.cons_ne_nil _ _) (List.forall_mem_singleton.mpr hc)
      · rw [Bool.not_eq_true] at hc
        exact Edit.of_misses (class_misses hsees (by rintro _ ⟨⟩; exact hc))
          (class_misses hsecond (by rintro _ ⟨⟩; exact hc)) steps more
  | within hreason hplace hother =>
      subst hother
      obtain ⟨hsees, hsecond⟩ := Seam.sees_within hplace
      have hbars := hedge hreason
      exact Edit.of_misses (class_misses hsees hbars.1)
        (class_misses hsecond (seam.head?_gap_append seam.back ▸ hbars.2)) steps more
  | after hback hplace hother =>
      rename_i passed rest
      obtain ⟨hsees, hsecond⟩ := Seam.sees_after hback hplace hother
      cases rest with
      | nil =>
          exact Edit.of_misses (class_misses hsees nofun) (class_misses hsecond nofun) steps more
      | cons c behind =>
          by_cases hc : isMember members c = true
          · exact Edit.of_matches (hmatches hsees hc) (hmatches hsecond hc)
              ⟨.token rfl, .past_after hback hplace hother⟩ steps more
          · rw [Bool.not_eq_true] at hc
            exact Edit.of_misses (class_misses hsees (by rintro _ ⟨⟩; exact hc))
              (class_misses hsecond (by rintro _ ⟨⟩; exact hc)) steps more

theorem alike_charTokens (place other : Position) (run : List Char) :
    (Value.list (charTokens place run)).Alike (.list (charTokens other run)) := by
  apply Value.Alike.list
  induction run generalizing place other with
  | nil => exact .nil
  | cons c run ih => exact .cons (.token rfl) (ih _ _)

/-- The same run of characters is taken on both sides, if it is long enough. -/
theorem run_follows {least : Nat} {after otherAfter : List Char}
    {ends : Position → Position → Prop} (hleast : least ≤ 1)
    (hsees : place.Sees seam.edit.text (run ++ after))
    (hother : other.Sees seam.edit.edited (run ++ otherAfter))
    (hrun : ∀ c ∈ run, isMember members c = true)
    (hafter : ∀ c ∈ after.head?, isMember members c = false)
    (hotherAfter : ∀ c ∈ otherAfter.head?, isMember members c = false)
    (hends : ends (place.past run) (other.past run)) :
    seam.edit.Follows (Lands ends Value.Alike)
      (((oneOf members).atLeast least).run steps scope place)
      (((oneOf members).atLeast least).run more otherScope other) := by
  have hbound (scope : Scope) : Match.resolveBounds scope (.ofCount least) none =
      .ok (least, none) := Match.resolveBounds_none (hleast.trans (by decide))
  by_cases henough : least ≤ run.length
  · exact Edit.of_matches (run_matches hsees (hbound _) hrun hafter henough)
      (run_matches hother (hbound _) hrun hotherAfter henough) ⟨alike_charTokens _ _ _, hends⟩
      steps more
  · obtain rfl : run = [] := List.eq_nil_of_length_eq_zero (by omega)
    have hlow : 0 < least := Nat.lt_of_not_le henough
    exact Edit.of_misses (run_misses_of_head hsees (hbound _) hlow hafter)
      (run_misses_of_head hother (hbound _) hlow hotherAfter) steps more

/-- A run of characters does not go on across a seam, if none that leads up to it does. -/
theorem run_lands (further : Prop) {least : Nat} (hleast : least ≤ 1)
    (hfaces : seam.Faces edge place other)
    (hseam : ∀ passed run, seam.front = passed ++ run → place.offset = passed.length →
      (∀ c ∈ run, isMember members c = true) → (run = [] → edge) →
        seam.Bars (isMember members) ∧ further) :
    seam.edit.Follows (Lands (seam.Faces further) Value.Alike)
      (((oneOf members).atLeast least).run steps scope place)
      (((oneOf members).atLeast least).run more otherScope other) := by
  have hgap (hbars : seam.Bars (isMember members)) :
      ∀ c ∈ (seam.gap ++ seam.back).head?, isMember members c = false :=
    seam.head?_gap_append seam.back ▸ hbars.2
  have htaken (rest : List Char) : ∀ c ∈ rest.takeWhile (isMember members),
      isMember members c = true := fun c hc => List.mem_takeWhile_imp hc
  have hleft (rest : List Char) : ∀ c ∈ (rest.dropWhile (isMember members)).head?,
      isMember members c = false := by
    intro c hc
    have hstop := List.head?_dropWhile_not (isMember members) rest
    rw [Option.mem_def.mp hc] at hstop
    exact hstop
  cases hfaces with
  | before hfront hahead hplace hother =>
      rename_i passed ahead
      subst hother
      have hsplit : ahead.takeWhile (isMember members) ++ ahead.dropWhile (isMember members) =
          ahead := List.takeWhile_append_dropWhile
      obtain ⟨hsees, hsecond⟩ := Seam.sees_before hfront hplace
      rw [← hsplit, List.append_assoc] at hsees hsecond
      have hfront' := hfront
      rw [← hsplit] at hfront'
      by_cases hmore : ahead.dropWhile (isMember members) = []
      · rw [hmore] at hsees hsecond hsplit hfront'
        rw [List.append_nil] at hsplit
        have hsome : ahead.takeWhile (isMember members) ≠ [] := hsplit.symm ▸ hahead
        obtain ⟨hbars, hfurther⟩ := hseam _ _ (hfront.trans (by rw [hsplit])) hplace
          (htaken ahead) fun hnone => absurd hnone hsome
        exact run_follows hleast hsees hsecond (htaken ahead) hbars.1 (hgap hbars)
          (.past_before hfront' hplace fun _ => hfurther)
      · obtain ⟨c, behind, hcons⟩ := List.exists_cons_of_ne_nil hmore
        have hstop := hleft ahead c (by rw [hcons]; rfl)
        rw [hcons] at hsees hsecond
        exact run_follows hleast hsees hsecond (htaken ahead) (by rintro _ ⟨⟩; exact hstop)
          (by rintro _ ⟨⟩; exact hstop) (.past_before hfront' hplace fun hnone =>
            absurd hnone hmore)
  | within hreason hplace hother =>
      subst hother
      obtain ⟨hsees, hsecond⟩ := Seam.sees_within hplace
      obtain ⟨hbars, hfurther⟩ := hseam seam.front [] (List.append_nil _).symm hplace
        (List.forall_mem_nil _) fun _ => hreason
      have hnone : other.Sees seam.edit.text ([] ++ seam.back) := hsees
      exact run_follows hleast hnone hsecond (List.forall_mem_nil _) hbars.1 (hgap hbars)
        (.within hfurther hplace rfl)
  | after hback hplace hother =>
      rename_i passed rest
      have hsplit : rest.takeWhile (isMember members) ++ rest.dropWhile (isMember members) =
          rest := List.takeWhile_append_dropWhile
      obtain ⟨hsees, hsecond⟩ := Seam.sees_after hback hplace hother
      rw [← hsplit] at hsees hsecond
      exact run_follows hleast hsees hsecond (htaken rest) (hleft rest) (hleft rest)
        (.past_after (hback.trans (by rw [hsplit])) hplace hother)

theorem joined_keywords : ∀ word ∈ keywords, joined word.toList = true ∧ word.toList ≠ [] ∧
    word.toList.getLast?.all isNameChar = true := by
  decide

theorem isMember_nameChar : isMember (nameStart ++ digits) = isNameChar :=
  funext inClass_nameChar

theorem isMember_nameStart : isMember nameStart = isNameStart :=
  funext inClass_nameStart

theorem ended_of_keyword {word : String} (hword : word ∈ keywords)
    (hended : seam.Ended (endsWith word)) : seam.Ended isNameChar := by
  have hlast := (joined_keywords word hword).2.2
  refine hended.mono fun c hc => ?_
  rw [beq_iff_eq.mp hc] at hlast
  exact hlast

/-- A reserved word ends at a seam on both sides or on neither. -/
theorem keyword_lands {word : String} (hword : word ∈ keywords) (hfree : seam.Free place other) :
    seam.edit.Follows (Lands (seam.Faces (seam.Ended isNameChar)) Value.Alike)
      ((keyword word).run steps scope place) ((keyword word).run more otherScope other) := by
  obtain ⟨hjoined, hsome, -⟩ := joined_keywords word hword
  refine Edit.follows_sequence (keyword_form word) fun fewer _ others => ?_
  refine Edit.follows_row_cons (literal_lands _ _ hjoined hsome hfree nofun _ _)
    fun success otherSuccess hlands => ?_
  have hfaces := hlands.2.mono (ended_of_keyword hword)
  have hends : seam.edit.Follows (Lands (seam.Faces (seam.Ended isNameChar)) fun _ _ => True)
      (nameChar.notAhead.run fewer success.scope success.position)
      (nameChar.notAhead.run others otherSuccess.scope otherSuccess.position) := by
    refine Edit.follows_notAhead (fun few _ further => ?_) ⟨trivial, hfaces⟩
    exact (class_lands hfaces fun hended => isMember_nameChar ▸ Seam.bars_of_word hended).mono
      fun _ _ _ => trivial
  exact Edit.follows_row_cons hends fun _ _ hend =>
    Edit.follows_row_nil ⟨_, _, rfl, rfl, hlands.1, hend.2⟩

theorem keywords_follow (hfree : seam.Free place other) :
    seam.edit.Follows (fun _ _ => True) ((choice (keywords.map keyword)).run steps scope place)
      ((choice (keywords.map keyword)).run more otherScope other) := by
  refine Edit.follows_choice rfl ?_
  rw [List.forall_mem_map]
  exact fun word hword few _ others => (keyword_lands hword hfree).mono fun _ _ _ => trivial

/-- A name that ends at a seam does not go on behind it. -/
theorem identifier_lands (hfree : seam.Free place other) :
    seam.edit.Follows (Lands (seam.Faces (seam.Ended isNameChar)) Value.Alike)
      (identifier.run steps scope place) (identifier.run more otherScope other) := by
  refine Edit.follows_sequence identifier_form fun fewer _ others => ?_
  have hreserved : seam.edit.Follows (Lands seam.Free fun _ _ => True)
      ((choice (keywords.map keyword)).notAhead.run fewer scope place)
      ((choice (keywords.map keyword)).notAhead.run others otherScope other) :=
    Edit.follows_notAhead (fun _ _ _ => keywords_follow hfree) ⟨trivial, hfree⟩
  refine Edit.follows_row_cons hreserved fun _ _ hnone => ?_
  refine Edit.follows_row_cons (class_lands hnone.2 nofun) fun first otherFirst hfirst => ?_
  have hstart : seam.Ended (isMember nameStart) → seam.Ended isNameChar := fun hended =>
    hended.mono fun c hc => by
      rw [isMember_nameStart] at hc
      rw [isNameChar, hc, Bool.true_or]
  refine Edit.follows_row_cons (run_lands (seam.Ended isNameChar) (Nat.zero_le 1)
    (hfirst.2.mono hstart) fun passed run hfront _ hrun hnone => ?_) fun rest otherRest hrest => ?_
  · rw [isMember_nameChar] at hrun ⊢
    have hended : seam.Ended isNameChar := by
      by_cases hsome : run = []
      · exact hnone hsome
      · exact Seam.ended_of_front hfront hsome hrun
    exact ⟨Seam.bars_of_word hended, hended⟩
  · refine Edit.follows_row_nil ⟨_, _, rfl, rfl, ?_, hrest.2⟩
    exact placeless_nameValue.alike (.list (.cons hfirst.1 (.cons hrest.1 .nil)))

/-- Whether a number may end with a character. -/
def isNumeral (c : Char) : Bool :=
  isNameChar c || c == '.'

/-- Where what is postfixed begins: not at the seam, and between brackets not right after a name
or a number. -/
def Begun (seam : Seam) (setting : Setting) (place other : Position) : Prop :=
  seam.Free place other ∧ (setting.multiline = true → Fresh seam place)

theorem isMember_digits : isMember digits = Decimal.isDigit :=
  funext inClass_digit

theorem isNameChar_of_isDigit {c : Char} (hc : Decimal.isDigit c = true) :
    isNameChar c = true := by
  rw [isNameChar, hc, Bool.or_true]

theorem isNeutral_of_isDigit {c : Char} (hc : Decimal.isDigit c = true) : isNeutral c = true := by
  have hall : digits.toList.all isNeutral = true := by decide
  rw [← isMember_digits, isMember, inClass, Bool.bne_false, List.contains_iff_mem] at hc
  exact List.all_eq_true.mp hall c hc

namespace Seam

theorem bars_of_digit (hended : seam.Ended Decimal.isDigit) : seam.Bars Decimal.isDigit :=
  (bars_of_word (hended.mono fun _ => isNameChar_of_isDigit)).mono fun _ => isNameChar_of_isDigit

/-- Digits that lead up to the seam from where an expression begins are a whole number. -/
theorem endsWhole_of_digits (hspot : Spot seam setting (Begun seam setting) scope place otherScope
      other) (hfront : seam.front = passed ++ run) (hplace : place.offset = passed.length)
    (hrun : ∀ c ∈ run, Decimal.isDigit c = true) (hsome : run ≠ []) :
    endsWhole seam.front = true := by
  by_cases hmultiline : setting.multiline = true
  · have hfresh := hspot.faces.2 hmultiline passed run hfront hsome hplace
    rw [hfront]
    exact endsWhole_append hsome hrun hfresh
  · have hclosed : setting.opened = [] := not_not.mp (mt Setting.multiline_iff.mpr hmultiline)
    obtain ⟨c, hc, hdigit⟩ := ended_of_front hfront hsome hrun
    have hnewline := newline_of_passed (hclosed ▸ hspot.clear) hfront hplace fun c hc =>
      isNeutral_of_isDigit (hrun c hc)
    cases hnewline.symm.trans hc
    cases hdigit

end Seam

section Numbers

variable (hspot : Spot seam setting (Begun seam setting) scope place otherScope other)

include hspot

/-- Digits that end at the seam are a whole number, which no point goes on with. -/
theorem digits_land : seam.edit.Follows
      (Lands (seam.Faces (endsWhole seam.front = true)) Value.Alike)
      (((oneOf digits).atLeast 1).run steps scope place)
      (((oneOf digits).atLeast 1).run more otherScope other) := by
  refine run_lands _ (Nat.le_refl 1) hspot.faces.1 fun passed run hfront hplace hrun hnone => ?_
  rw [isMember_digits] at hrun ⊢
  exact ⟨Seam.bars_of_digit (Seam.ended_of_front hfront hnone hrun),
    Seam.endsWhole_of_digits hspot hfront hplace hrun hnone⟩

omit hspot in
/-- Digits behind a point do not go on behind the seam. -/
theorem fraction_lands {least : Nat} (hleast : least ≤ 1)
    (hfaces : seam.Faces (seam.Ended (endsWith ".")) place other) :
    seam.edit.Follows (Lands (seam.Faces (seam.Ended isNumeral)) Value.Alike)
      (((oneOf digits).atLeast least).run steps scope place)
      (((oneOf digits).atLeast least).run more otherScope other) := by
  refine run_lands _ hleast hfaces fun passed run hfront _ hrun hnone => ?_
  rw [isMember_digits] at hrun ⊢
  by_cases hsome : run = []
  · obtain ⟨c, hc, hpoint⟩ := hnone hsome
    have hlast : '.' = c := Option.some.inj (beq_iff_eq.mp hpoint)
    subst hlast
    exact ⟨Seam.bars_of_back (seam.apart.fraction hc) (by decide), '.', hc, by decide⟩
  · have hended := Seam.ended_of_front hfront hsome hrun
    exact ⟨Seam.bars_of_digit hended,
      hended.mono fun c hc => by rw [isNumeral, isNameChar_of_isDigit hc, Bool.true_or]⟩

theorem float_lands : seam.edit.Follows (Lands (seam.Faces (seam.Ended isNumeral)) Value.Alike)
    (float.run steps scope place) (float.run more otherScope other) := by
  have hpoint : joined ".".toList = true ∧ ".".toList ≠ [] := by decide
  have hwhole : endsWhole seam.front = true → seam.Bars (beginsWith ".") := fun hended =>
    Seam.bars_of_back (fun c hc => beq_eq_false_iff_ne.mpr fun hsame =>
      seam.apart.whole hended ((Option.mem_def.mp hc).trans hsame.symm)) (by decide)
  refine Edit.follows_choice float_form ?_
  simp only [List.forall_mem_cons, List.not_mem_nil, false_implies, implies_true, and_true]
  constructor
  · intro fewer _ others
    refine Edit.follows_sequence rfl fun few _ further => ?_
    refine Edit.follows_row_cons (digits_land hspot) fun _ _ hfirst => ?_
    refine Edit.follows_row_cons (literal_lands _ _ hpoint.1 hpoint.2 hfirst.2 hwhole _ _)
      fun _ _ hmiddle => ?_
    refine Edit.follows_row_cons (fraction_lands (Nat.zero_le 1) hmiddle.2) fun _ _ hlast => ?_
    refine Edit.follows_row_nil ⟨_, _, rfl, rfl, ?_, hlast.2⟩
    exact placeless_floatValue.alike (.list (.cons hfirst.1 (.cons hmiddle.1 (.cons hlast.1 .nil))))
  · intro fewer _ others
    refine Edit.follows_sequence rfl fun few _ further => ?_
    refine Edit.follows_row_cons (literal_lands _ _ hpoint.1 hpoint.2 hspot.faces.1 nofun _ _)
      fun _ _ hfirst => ?_
    refine Edit.follows_row_cons (fraction_lands (Nat.le_refl 1) hfirst.2) fun _ _ hlast => ?_
    refine Edit.follows_row_nil ⟨_, _, rfl, rfl, ?_, hlast.2⟩
    exact placeless_floatValue.alike (.list (.cons hfirst.1 (.cons hlast.1 .nil)))

theorem number_lands : seam.edit.Follows (Lands (seam.Faces (seam.Ended isNumeral)) Value.Alike)
    ((float.orElse int).run steps scope place) ((float.orElse int).run more otherScope other) := by
  have hended (hwhole : endsWhole seam.front = true) : seam.Ended isNumeral := by
    obtain ⟨c, hc, hdigit⟩ := (Option.any_eq_true _ _).mp (Bool.and_eq_true_iff.mp hwhole).1
    exact ⟨c, hc, by rw [isNumeral, isNameChar_of_isDigit hdigit, Bool.true_or]⟩
  refine Edit.follows_choice rfl ?_
  simp only [List.forall_mem_cons, List.not_mem_nil, false_implies, implies_true, and_true]
  constructor
  · exact fun fewer _ others => float_lands hspot
  · intro fewer _ others
    refine Edit.follows_map ((digits_land hspot).mono fun _ _ hlands => ?_)
    exact ⟨placeless_intValue.alike hlands.1, hlands.2.mono hended⟩

end Numbers

/-- Whether a character is a quote. -/
def isQuote (c : Char) : Bool :=
  c == '\'' || c == '"'

/-- A string that is not closed stops the match. -/
theorem string_stops {text : String} {quote : Char} (scope : Scope)
    (hfits : text.length + 1 < offsetBound) (hquote : quote = '\'' ∨ quote = '"')
    (hsees : place.Sees text (quote :: rest)) (hopen : quote ∉ rest) :
    ∃ reason, string.Stops text scope place reason := by
  have hseen : place.Sees text ([quote] ++ (rest ++ [])) := by
    rw [List.append_nil]
    exact hsees
  have hopening := openingQuote_matches scope hquote hseen
  have hbound : (scope.bind "quote" (.value (quoteToken place quote))).find? "quote" =
      some (.value (quoteToken place quote)) := by
    rw [Scope.find?_bind, if_pos rfl]
  have hend : ((place.past [quote]).past rest).Sees text [] := hseen.past.past
  have hsome : (String.ofList [quote]).toList ≠ [] := by
    rw [String.toList_ofList]
    exact List.cons_ne_nil _ _
  have hnoQuote : (named "quote").Misses text
      (scope.bind "quote" (.value (quoteToken place quote))) ((place.past [quote]).past rest) :=
    named_text_misses hbound rfl
      (literal_misses hend fun hprefix => hsome (List.prefix_nil.mp hprefix))
  have hword : ((place.past [quote]).past rest).offset + 1 < offsetBound := by
    have hlength := congrArg List.length hsees
    rw [List.length_drop, String.length_toList, List.length_cons] at hlength
    rw [Position.offset_past, Position.offset_past, List.length_singleton]
    omega
  obtain ⟨taken, -, htaken⟩ := content_copiesAt hopen (by omega) hbound hseen.past
    (misses_of_form (Form.absence_one_misses hnoQuote hend hword))
  exact ⟨_, stops_of_row string_form (rowHalts_of_rest hopening (rowHalts_of_rest htaken
    (rowHalts_of_first (stops_of_form (Form.demand_stops hnoQuote)))))⟩

/-- What is opened before the seam is closed before it, since a reader there is inside no string
or comment. -/
theorem Seam.closed_before {mode : Mode} {first close : Char} {inside : List Char}
    (hclear : Clear seam.edit.text setting.opened place)
    (hfront : seam.front = passed ++ first :: inside) (hplace : place.offset = passed.length)
    (hnewline : first ≠ '\n') (hopens : Mode.plain.next first = mode) (hinside : mode ≠ .plain)
    (hstays : ∀ c, c ≠ close → mode.next c = mode) : close ∈ inside := by
  by_contra hopen
  have hmode := Seam.plain_before hclear hfront hplace hnewline
  have hbegin : ((Reader.start.past passed).step first).mode = mode := by
    rw [Reader.step, hmode]
    exact hopens
  obtain ⟨hlast, -⟩ := Reader.past_of_inside hbegin hinside fun c hc =>
    hstays c fun hsame => hopen (hsame ▸ hc)
  have hplain := seam.plain
  rw [hfront, Reader.past, List.foldl_append] at hplain
  exact hinside (hlast.symm.trans hplain)

theorem quoted_lands {quote : Char} {content rest otherRest : List Char}
    (hquote : quote = '\'' ∨ quote = '"') (hcontent : quote ∉ content)
    (hsees : place.Sees seam.edit.text ((quote :: (content ++ [quote])) ++ rest))
    (hsecond : other.Sees seam.edit.edited ((quote :: (content ++ [quote])) ++ otherRest))
    (hends : seam.Faces (seam.Ended isQuote) (place.past (quote :: (content ++ [quote])))
      (other.past (quote :: (content ++ [quote])))) :
    seam.edit.Follows (Lands (seam.Faces (seam.Ended isQuote)) Value.Alike)
      (string.run steps scope place) (string.run more otherScope other) := by
  have hfits := seam.text_fits
  have hotherFits := seam.edited_fits
  refine Edit.of_matches (quoted_matches scope hquote hcontent (by omega) hsees)
    (quoted_matches otherScope hquote hcontent (by omega) hsecond) ⟨?_, hends⟩ steps more
  rw [Value.Alike, Value.unplaced_node, Value.unplaced_node]

section Enclosing

variable (hspot : Spot seam setting seam.Free scope place otherScope other)

include hspot

/-- A string that begins before the seam ends there at most. -/
theorem string_lands : seam.edit.Follows (Lands (seam.Faces (seam.Ended isQuote)) Value.Alike)
    (string.run steps scope place) (string.run more otherScope other) := by
  have hmisses {rest otherRest : List Char} (hsees : place.Sees seam.edit.text rest)
      (hsecond : other.Sees seam.edit.edited otherRest)
      (hrest : ∀ c ∈ rest.head?, c ≠ '\'' ∧ c ≠ '"')
      (hotherRest : ∀ c ∈ otherRest.head?, c ≠ '\'' ∧ c ≠ '"') :
      seam.edit.Follows (Lands (seam.Faces (seam.Ended isQuote)) Value.Alike)
        (string.run steps scope place) (string.run more otherScope other) :=
    Edit.of_misses (string_misses hsees hrest) (string_misses hsecond hotherRest) steps more
  obtain ⟨hlevel, hotherLevel, hclear, hfaces⟩ := hspot
  cases hfaces with
  | before hfront hahead hplace hother =>
      rename_i passed ahead
      subst hother
      obtain ⟨hsees, hsecond⟩ := Seam.sees_before hfront hplace
      obtain ⟨c, inside, rfl⟩ := List.exists_cons_of_ne_nil hahead
      by_cases hquote : c = '\'' ∨ c = '"'
      · have hnewline : c ≠ '\n' := by rcases hquote with rfl | rfl <;> decide
        have hclosed : c ∈ inside := Seam.closed_before hclear hfront hplace hnewline
          (if_pos hquote) (by simp) fun _ hne => if_neg hne
        obtain ⟨content, behind, rfl, hcontent⟩ := List.eq_append_cons_of_mem hclosed
        have hwhole : c :: (content ++ c :: behind) = (c :: (content ++ [c])) ++ behind := by simp
        rw [hwhole] at hfront hsees hsecond
        rw [List.append_assoc] at hsees hsecond
        refine quoted_lands hquote hcontent hsees hsecond (.past_before hfront hplace ?_)
        rintro rfl
        refine ⟨c, ?_, by rcases hquote with rfl | rfl <;> decide⟩
        rw [hfront, List.append_nil, ← List.cons_append, ← List.append_assoc,
          List.getLast?_concat]
        rfl
      · have hnot : ∀ d ∈ (c :: inside).head?, d ≠ '\'' ∧ d ≠ '"' := by
          rintro d ⟨⟩
          exact not_or.mp hquote
        exact hmisses hsees hsecond hnot hnot
  | within hreason => exact hreason.elim
  | after hback hplace hother =>
      rename_i passed rest
      obtain ⟨hsees, hsecond⟩ := Seam.sees_after hback hplace hother
      by_cases hquote : ∃ c ∈ rest.head?, c = '\'' ∨ c = '"'
      · obtain ⟨c, hc, hquote⟩ := hquote
        obtain ⟨inside, rfl⟩ := List.head?_eq_some_iff.mp hc
        by_cases hclosed : c ∈ inside
        · obtain ⟨content, behind, rfl, hcontent⟩ := List.eq_append_cons_of_mem hclosed
          have hwhole : c :: (content ++ c :: behind) = (c :: (content ++ [c])) ++ behind := by simp
          rw [hwhole] at hback hsees hsecond
          exact quoted_lands hquote hcontent hsees hsecond (.past_after hback hplace hother)
        · obtain ⟨reason, hstops⟩ := string_stops scope seam.text_fits hquote hsees hclosed
          exact Edit.of_stops hstops steps more
      · have hnot : ∀ d ∈ rest.head?, d ≠ '\'' ∧ d ≠ '"' := fun d hd =>
          not_or.mp fun hsame => hquote ⟨d, hd, hsame⟩
        exact hmisses hsees hsecond hnot hnot

/-- A comment that begins before the seam ends before it. -/
theorem comment_lands : seam.edit.Follows (Lands seam.Free fun _ _ => True)
    ((named "COMMENT").run steps scope place) ((named "COMMENT").run more otherScope other) := by
  obtain ⟨hlevel, hotherLevel, hclear, hfaces⟩ := hspot
  have hmisses {rest otherRest : List Char} (hsees : place.Sees seam.edit.text rest)
      (hsecond : other.Sees seam.edit.edited otherRest) (hrest : ∀ c ∈ rest.head?, c ≠ '#')
      (hotherRest : ∀ c ∈ otherRest.head?, c ≠ '#') :
      seam.edit.Follows (Lands seam.Free fun _ _ => True)
        ((named "COMMENT").run steps scope place)
        ((named "COMMENT").run more otherScope other) :=
    Edit.of_misses (hlevel.ready.misses_rule comment_isRule (comment_misses hsees hrest))
      (hotherLevel.ready.misses_rule comment_isRule (comment_misses hsecond hotherRest))
      steps more
  have hmatches {note rest otherRest : List Char} (hnote : '\n' ∉ note)
      (hsees : place.Sees seam.edit.text ('#' :: (note ++ rest)))
      (hsecond : other.Sees seam.edit.edited ('#' :: (note ++ otherRest)))
      (hrest : ∀ c ∈ rest.head?, c = '\n') (hotherRest : ∀ c ∈ otherRest.head?, c = '\n')
      (hends : seam.Free (place.past ('#' :: note)) (other.past ('#' :: note))) :
      seam.edit.Follows (Lands seam.Free fun _ _ => True)
        ((named "COMMENT").run steps scope place)
        ((named "COMMENT").run more otherScope other) := by
    obtain ⟨value, hfirst⟩ := comment_matches seam.text_fits hsees hnote hrest
    obtain ⟨otherValue, hother⟩ := comment_matches seam.edited_fits hsecond hnote hotherRest
    exact Edit.of_matches (hlevel.ready.matches_rule comment_isRule hfirst)
      (hotherLevel.ready.matches_rule comment_isRule hother) ⟨trivial, hends⟩ steps more
  cases hfaces with
  | before hfront hahead hplace hother =>
      rename_i passed ahead
      subst hother
      obtain ⟨hsees, hsecond⟩ := Seam.sees_before hfront hplace
      obtain ⟨c, inside, rfl⟩ := List.exists_cons_of_ne_nil hahead
      by_cases hmark : c = '#'
      · subst hmark
        have hclosed : '\n' ∈ inside := Seam.closed_before hclear hfront hplace (by decide) rfl
          (by decide) fun _ hne => if_neg hne
        obtain ⟨note, behind, rfl, hnote⟩ := List.eq_append_cons_of_mem hclosed
        have hwhole : '#' :: (note ++ '\n' :: behind) = ('#' :: note) ++ '\n' :: behind := rfl
        rw [hwhole] at hfront hsees hsecond
        rw [List.append_assoc] at hsees hsecond
        exact hmatches hnote hsees hsecond (by rintro _ ⟨⟩; rfl) (by rintro _ ⟨⟩; rfl)
          (.past_before hfront hplace fun hnone => absurd hnone (List.cons_ne_nil _ _))
      · exact hmisses hsees hsecond (by rintro _ ⟨⟩; exact hmark) (by rintro _ ⟨⟩; exact hmark)
  | within hreason => exact hreason.elim
  | after hback hplace hother =>
      rename_i passed rest
      obtain ⟨hsees, hsecond⟩ := Seam.sees_after hback hplace hother
      by_cases hmark : ∀ c ∈ rest.head?, c ≠ '#'
      · exact hmisses hsees hsecond hmark hmark
      · simp only [not_forall, not_not] at hmark
        obtain ⟨_, hc, rfl⟩ := hmark
        obtain ⟨inside, rfl⟩ := List.head?_eq_some_iff.mp hc
        have hsplit : inside.takeWhile (· != '\n') ++ inside.dropWhile (· != '\n') = inside :=
          List.takeWhile_append_dropWhile
        have hnote : '\n' ∉ inside.takeWhile (· != '\n') := fun hmem => by
          simpa using List.mem_takeWhile_imp hmem
        have hafter : ∀ c ∈ (inside.dropWhile (· != '\n')).head?, c = '\n' := fun c hc => by
          have hstop := List.head?_dropWhile_not (· != '\n') inside
          rw [Option.mem_def.mp hc] at hstop
          simpa using hstop
        rw [← hsplit] at hback hsees hsecond
        exact hmatches hnote hsees hsecond hafter hafter
          (.past_after hback hplace hother)

end Enclosing

end ScopedGrammar.Croco
