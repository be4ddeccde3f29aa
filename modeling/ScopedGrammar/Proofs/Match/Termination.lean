/-
# Enough steps

Over a text of some length, a pattern within a ranking halts for want of steps only if it was
granted fewer than the ranking allows: its height, and the limit for every character that is
left. A step goes one pattern deeper, and the height with it, unless a character was taken;
then there is one character less, and whatever comes next is within the limit. A repetition
that uses up its rounds has taken a character in each of them.

So a pattern within a ranking ends, with a number of steps that is known from the length of
the text. If the ranking says that everything resolves, the only halts left are demands that
are not met and offsets that leave their word.
-/

import ScopedGrammar.Proofs.Match.Halting
import ScopedGrammar.Proofs.Match.Ranking
import ScopedGrammar.Proofs.Match.Steps

namespace ScopedGrammar

namespace Ranking

variable {ranking : Ranking}

/-- How many patterns are around each other in a task before a character is taken. -/
def taskHeight (ranking : Ranking) : Task → Nat
  | .form shape => ranking.formHeight shape
  | .pattern pattern => ranking.patternHeight pattern
  | .parts parts => ranking.rowHeight parts

/-- So many steps are enough for a task where so many characters are left. -/
def enough (ranking : Ranking) (left : Nat) (task : Task) : Nat :=
  ranking.limit * left + ranking.taskHeight task

/-- What a halt says about a task within the ranking, in a text of some length. -/
def Allows (ranking : Ranking) (length granted : Nat) (place : Position) (task : Task) :
    Halt → Prop
  | .diagnostic _ => True
  | .defect _ => ranking.resolves = false
  | .overflow => 0 < ranking.width ∧ offsetBound ≤ length + ranking.width
  | .exhausted => granted < ranking.enough (length - place.offset) task

theorem patternHeight_le_limit {pattern : Pattern} (hadmits : pattern.all ranking.admits = true) :
    ranking.patternHeight pattern ≤ ranking.limit := by
  rw [patternHeight_eq]
  exact lt_limit_of_admits (Pattern.all_iff.mp hadmits).1

theorem rowHeight_le_limit {parts : List Pattern}
    (hadmits : ∀ part ∈ parts, part.all ranking.admits = true) :
    ranking.rowHeight parts ≤ ranking.limit := by
  induction parts with
  | nil => exact Nat.zero_le _
  | cons first rest ih =>
      have hfirst := patternHeight_le_limit (hadmits first List.mem_cons_self)
      have hrest := ih fun part hpart => hadmits part (List.mem_cons_of_mem _ hpart)
      rw [rowHeight]
      split
      · exact hfirst
      · exact Nat.max_le.mpr ⟨hfirst, hrest⟩

theorem taskHeight_le_limit {task : Task} (hadmits : ranking.Admits task) :
    ranking.taskHeight task ≤ ranking.limit := by
  cases task with
  | form shape => exact (lt_limit_of_admits hadmits.1).le
  | pattern pattern => exact patternHeight_le_limit hadmits
  | parts parts => exact rowHeight_le_limit hadmits

/-- Fewer characters are left after one is taken, and then any task is within the limit. -/
theorem enough_le_of_lt {task later : Task} {left fewer : Nat} (hfewer : fewer < left)
    (hadmits : ranking.Admits later) :
    ranking.enough fewer later ≤ ranking.enough left task := by
  obtain ⟨more, rfl⟩ := Nat.exists_eq_add_of_lt hfewer
  have hlimit := taskHeight_le_limit hadmits
  unfold enough
  rw [Nat.mul_add, Nat.mul_add]
  omega

theorem enough_le_of_le {task later : Task} {left fewer : Nat} (hfewer : fewer ≤ left)
    (hheight : ranking.taskHeight later ≤ ranking.taskHeight task) :
    ranking.enough fewer later ≤ ranking.enough left task :=
  Nat.add_le_add (Nat.mul_le_mul_left _ hfewer) hheight

theorem Allows.mono {length granted : Nat} {place later : Position} {task inner : Task}
    {reason : Halt} (hallows : ranking.Allows length granted later inner reason)
    (henough : ranking.enough (length - later.offset) inner ≤
      ranking.enough (length - place.offset) task) :
    ranking.Allows length granted place task reason := by
  cases reason with
  | exhausted => exact Nat.lt_of_lt_of_le hallows henough
  | diagnostic diagnostic => trivial
  | defect defect => exact hallows
  | overflow => exact hallows

theorem allows_defect {length granted : Nat} {place : Position} {task : Task} {defect : Defect}
    (hunsound : ranking.resolves = true → False) :
    ranking.Allows length granted place task (.defect defect) :=
  Bool.eq_false_iff.mpr hunsound

theorem admits_unrolled {part : Pattern} {least : Term} {most : Option Term}
    {separator : Option Pattern} {keepSeparators : Bool}
    (hadmits : ranking.Admits (.form (.repetition part least most separator keepSeparators)))
    (count : Nat) : ranking.Admits (.parts (unrolled part separator count)) := by
  have hinside := hadmits.2
  rw [Form.allInside, Bool.and_eq_true] at hinside
  intro other hother
  rcases mem_unrolled hother with rfl | hseparator
  · exact hinside.1
  · rw [hseparator] at hinside
    exact hinside.2

/-- The patterns of the next round are among those of one round more. -/
theorem admits_round {part : Pattern} {least : Term} {most : Option Term}
    {separator : Option Pattern} {keepSeparators : Bool}
    (hadmits : ranking.Admits (.form (.repetition part least most separator keepSeparators)))
    (count : Nat) : ranking.Admits (.parts (dueAfter separator count ++ [part])) :=
  fun other hother => admits_unrolled hadmits (count + 1) other (List.mem_append_right _ hother)

theorem asText?_of_sound {term : Term} (hsound : ranking.sound (.literal term) = true)
    {scope : Scope} {defect : Defect} : term.textOf scope ≠ .error defect := by
  intro hdefect
  cases term with
  | const content =>
      rw [sound, Option.isSome_iff_exists] at hsound
      obtain ⟨expected, hexpected⟩ := hsound
      simp only [Term.textOf, Term.value, hexpected] at hdefect
      cases hdefect
  | _ => cases hsound

theorem pickValues_ne_error {parts : List Pattern} {picks : Option (List Nat)}
    (hsound : ranking.sound (.sequence parts picks) = true) {values : List Value}
    (hlength : values.length = parts.length) {defect : Defect} :
    Match.pickValues values picks ≠ .error defect := by
  intro hdefect
  cases picks with
  | none => cases hdefect
  | some indexes =>
      rw [sound, List.all_eq_true] at hsound
      unfold Match.pickValues at hdefect
      dsimp only at hdefect
      split at hdefect
      next index hfound =>
        have hmem := List.mem_of_find?_eq_some hfound
        have hbeyond := List.find?_some hfound
        have hwithin := hsound index hmem
        simp only [decide_eq_true_eq] at hbeyond hwithin
        omega
      next => split at hdefect <;> cases hdefect

theorem resolveBounds_ne_error {part : Pattern} {least : Term} {most : Option Term}
    {separator : Option Pattern} {keepSeparators : Bool}
    (hsound : ranking.sound (.repetition part least most separator keepSeparators) = true)
    {scope : Scope} {defect : Defect} :
    Match.resolveBounds scope least most ≠ .error defect := by
  have hcount (content : Value) :
      (Term.const content).count scope = (Term.const content).count Scope.empty := by
    simp only [Term.count, Term.value]
  intro hdefect
  cases least with
  | const low =>
      cases most with
      | none =>
          have hempty : Match.resolveBounds Scope.empty (.const low) none = .error defect := by
            rw [← hdefect]
            cases hlow : (Term.const low).count Scope.empty <;>
              simp only [Match.resolveBounds, hcount, hlow]
          rw [sound, hempty] at hsound
          cases hsound
      | some upper =>
          cases upper with
          | const high =>
              have hempty : Match.resolveBounds Scope.empty (.const low)
                  (some (.const high)) = .error defect := by
                rw [← hdefect]
                cases hlow : (Term.const low).count Scope.empty <;>
                  simp only [Match.resolveBounds, hcount, hlow]
              rw [sound, hempty] at hsound
              cases hsound
          | _ => cases hsound
  | _ => cases hsound

/-- In a ranked scope, a term with an entry resolves. -/
theorem Ranks.resolve_ne_error {scope : Scope} (hranks : ranking.Ranks scope) (term : Term)
    (hentry : (ranking.termPromise? term).isSome = true) {defect : Defect} :
    term.resolve scope ≠ .error defect := by
  intro hdefect
  cases term with
  | rule pattern => cases hdefect
  | name looked =>
      have hname := hranks looked
      obtain ⟨promised, hpromised⟩ := Option.isSome_iff_exists.mp hentry
      rw [termPromise?] at hpromised
      rw [hpromised] at hname
      obtain ⟨rule, hfound, -⟩ := hname
      rw [Term.resolve, Scope.lookup, hfound] at hdefect
      cases hdefect
  | _ => cases hentry

theorem Ranks.resolveAll_ne_error {scope : Scope} (hranks : ranking.Ranks scope)
    {bindings : List (String × Term)}
    (hsurely : (bindings.all fun binding => ranking.surelyResolves binding.2) = true)
    {defect : Defect} : scope.resolveAll bindings ≠ .error defect := by
  induction bindings with
  | nil =>
      intro hdefect
      cases hdefect
  | cons first rest ih =>
      obtain ⟨name, term⟩ := first
      rw [List.all_cons, Bool.and_eq_true] at hsurely
      have hterm : ∀ other, term.resolve scope ≠ .error other := by
        intro other
        cases term with
        | const content =>
            intro hother
            cases hother
        | rule pattern => exact hranks.resolve_ne_error (.rule pattern) hsurely.1
        | name looked => exact hranks.resolve_ne_error (.name looked) hsurely.1
        | _ => cases hsurely.1
      intro hdefect
      rw [Scope.resolveAll] at hdefect
      split at hdefect
      next other hother => exact hterm other hother
      next binding _ =>
        split at hdefect
        next other hother =>
          cases hdefect
          exact ih hsurely.2 hother
        next => cases hdefect

end Ranking

theorem Derives.settles {task : Task} {here there : Spot Silence} {values : List Value}
    {text : String} (derived : Derives task here values there)
    (hinput : here.input = Input.ofText text)
    (hplace : here.position.offset ≤ text.length) :
    there.input = Input.ofText text ∧ here.position.offset ≤ there.position.offset ∧
      there.position.offset ≤ text.length := by
  have hsame : there.input = here.input := derived.growsTo.settled (by rw [hinput]; rfl)
  have hleads := derived.leads
  rw [hsame, hinput, Input.ofText, List.toList_toArray] at hleads
  have hmax := hleads.offset_le_max
  rw [String.length_toList, Nat.max_eq_right hplace] at hmax
  exact ⟨hsame.trans hinput, hleads.offset_le, hmax⟩

/-- A halt of a task within the ranking, over a complete text, is one that the ranking
allows. -/
theorem Halts.allowed {ranking : Ranking} {text : String} {granted : Nat} {task : Task}
    {here : Spot Silence} {reason : Halt} {after : Input Silence}
    (halted : Halts granted task here reason after)
    (hinput : here.input = Input.ofText text) (hplace : here.position.offset ≤ text.length)
    (hranks : ranking.Ranks here.scope) (hadmits : ranking.Admits task) :
    ranking.Allows text.length granted here.position task reason := by
  induction halted with
  | exhausted =>
      show 0 < ranking.limit * _ + ranking.patternHeight _
      rw [Ranking.patternHeight_eq]
      omega
  | @pattern granted pattern here reason after raw ih =>
      have hform := ih hinput hplace hranks (Pattern.all_iff.mp hadmits)
      cases reason with
      | exhausted =>
          have hless : granted < ranking.limit * _ + ranking.formHeight pattern.form := hform
          show granted + 1 < ranking.limit * _ + ranking.patternHeight pattern
          rw [Ranking.patternHeight_eq]
          omega
      | diagnostic diagnostic => trivial
      | defect defect => exact hform
      | overflow => exact hform
  | @head granted part parts here reason after first ih =>
      have hpart := ih hinput hplace hranks (hadmits part List.mem_cons_self)
      apply hpart.mono
      apply Ranking.enough_le_of_le (Nat.le_refl _)
      show ranking.patternHeight part ≤ ranking.rowHeight (part :: parts)
      rw [Ranking.rowHeight]
      split
      · exact Nat.le_refl _
      · exact Nat.le_max_left _ _
  | @tail granted part parts here middle value reason after first rest ih =>
      have hparts : ranking.Admits (.parts parts) :=
        fun other hother => hadmits other (List.mem_cons_of_mem _ hother)
      obtain ⟨hmiddle, hleads, hthere⟩ := first.settles hinput hplace
      obtain ⟨hscope, hmoved⟩ := first.ranked (hadmits part List.mem_cons_self) hranks
      apply (ih hmiddle hthere hscope hparts).mono
      by_cases hmoves : ranking.patternMoves part = true
      · apply Ranking.enough_le_of_lt _ hparts
        have hless := hmoved hmoves
        omega
      · apply Ranking.enough_le_of_le (by omega)
        show ranking.rowHeight parts ≤ ranking.rowHeight (part :: parts)
        rw [Ranking.rowHeight, if_neg hmoves]
        exact Nat.le_max_right _ _
  | literal unknown =>
      apply Ranking.allows_defect
      intro hresolves
      exact Ranking.asText?_of_sound (Ranking.sound_of_admits hadmits.1 hresolves) unknown
  | @choice granted earlier later option here between after reason missed chosen ih =>
      have hmem : option ∈ earlier ++ option :: later := by simp
      have hbetween : between = here.input :=
        ((Match.grows_firstOf (grows_run _) _ _ _).after missed).settled (by rw [hinput]; rfl)
      have hoption := ih (hbetween.trans hinput) hplace hranks
        (Pattern.allOfList_iff.mp hadmits.2 option hmem)
      apply hoption.mono
      exact Ranking.enough_le_of_le (Nat.le_refl _) (ranking.height_le_of_mem hmem)
  | sequence all ih => exact ih hinput hplace hranks (Pattern.allOfList_iff.mp hadmits.2)
  | picks all unpicked =>
      apply Ranking.allows_defect
      intro hresolves
      exact Ranking.pickValues_ne_error (Ranking.sound_of_admits hadmits.1 hresolves)
        all.length_eq unpicked
  | bounds unbounded =>
      apply Ranking.allows_defect
      intro hresolves
      exact Ranking.resolveBounds_ne_error (Ranking.sound_of_admits hadmits.1 hresolves)
        unbounded
  | @round granted part least most separator keepSeparators turns here there reason after
      rounds moved next ih =>
      have hunrolled := Ranking.admits_unrolled hadmits turns.length
      have hround := Ranking.admits_round hadmits turns.length
      obtain ⟨hthere, -, hlast⟩ := rounds.settles hinput hplace
      apply (ih hthere hlast (rounds.ranked hunrolled hranks).1 hround).mono
      cases hturns : turns.length with
      | zero =>
          apply Ranking.enough_le_of_le (by omega)
          show ranking.rowHeight [part] ≤ ranking.patternHeight part
          rw [Ranking.rowHeight]
          split
          · exact Nat.le_refl _
          · exact Nat.max_le.mpr ⟨Nat.le_refl _, Nat.zero_le _⟩
      | succ count =>
          rw [hturns] at hround moved
          exact Ranking.enough_le_of_lt (by omega) hround
  | @rounds granted part least most separator keepSeparators turns here there all rounds
      moved =>
      obtain ⟨-, -, hlast⟩ := rounds.settles hinput hplace
      have hlimit := Ranking.lt_limit_of_admits hadmits.1
      have hrounds : granted ≤ text.length - here.position.offset := by omega
      show granted < ranking.limit * _ + ranking.formHeight _
      have hheight : 0 < ranking.formHeight
          (.repetition part least most separator keepSeparators) := by
        rw [Ranking.formHeight, Ranking.patternHeight_eq]
        exact Nat.succ_pos _
      have hleft := Nat.le_mul_of_pos_left (text.length - here.position.offset)
        (Nat.zero_lt_of_lt hlimit)
      omega
  | absence looked ih => exact ih hinput hplace hranks hadmits.2
  | overflow positive beyond missed =>
      have hwidth := Ranking.admits_absence hadmits.1
      exact ⟨by omega, by omega⟩
  | unmet missed rendered raised => trivial
  | demand demanded ih => exact ih hinput hplace hranks hadmits.2
  | capture captured ih => exact ih hinput hplace hranks hadmits.2
  | bindings unknown =>
      apply Ranking.allows_defect
      intro hresolves
      exact hranks.resolveAll_ne_error (Ranking.sound_of_admits hadmits.1 hresolves) unknown
  | overlay known overlaid ih =>
      have hinside := hadmits.2
      rw [Form.allInside, Bool.and_eq_true] at hinside
      exact ih hinput hplace
        (hranks.overlaid (Ranking.admits_overlay hadmits.1) hinside.2 known) hinside.1
  | target unknown =>
      apply Ranking.allows_defect
      intro hresolves
      exact hranks.resolve_ne_error _ (Ranking.sound_of_admits hadmits.1 hresolves) unknown
  | @unparsable granted term content here known unspelled =>
      apply Ranking.allows_defect
      intro hresolves
      have hsound : (ranking.termPromise? term).isSome = true :=
        Ranking.sound_of_admits hadmits.1 hresolves
      rw [hranks.entry_eq_none_of_resolve known] at hsound
      cases hsound
  | @rule granted term pattern here reason after known followed ih =>
      obtain ⟨promised, hpromised, hkeeps⟩ := hranks.keeps_of_resolve hadmits.2 known
      apply (ih hinput hplace hranks hkeeps.admitted).mono
      apply Ranking.enough_le_of_le (Nat.le_refl _)
      show ranking.patternHeight pattern ≤ ranking.formHeight (.reference term)
      rw [Ranking.formHeight_reference, hpromised]
      exact (Entry.keeps_iff.mp hkeeps.kept).1

/-- A run that is granted enough steps does not run out of them. -/
theorem Ranking.run_not_exhausted {ranking : Ranking} {text : String} {granted : Nat}
    {pattern : Pattern} {scope : Scope} {place : Position} (hranks : ranking.Ranks scope)
    (hadmits : pattern.all ranking.admits = true) (hplace : place.offset ≤ text.length)
    (henough : ranking.limit * (text.length - place.offset + 1) ≤ granted) :
    (pattern.run granted scope place (Input.ofText text)).1.isExhausted = false := by
  cases hrun : pattern.run granted scope place (Input.ofText text) with
  | mk verdict after =>
      cases verdict with
      | matched success => rfl
      | missed => rfl
      | halted reason =>
          have hallowed := (halts_of_run granted hrun).allowed rfl hplace hranks hadmits
          cases reason with
          | exhausted =>
              have hless : granted < ranking.limit * (text.length - place.offset) +
                  ranking.patternHeight pattern := hallowed
              have hlimit := patternHeight_le_limit hadmits
              rw [Nat.mul_add] at henough
              omega
          | _ => rfl

end ScopedGrammar
