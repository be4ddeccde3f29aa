/-
# What attempts come to

Over a complete text, an attempt comes to the same with every number of steps that is not
too small. So what it comes to can be told without one. Attempts with more and more steps
are steady: each lets the input grow, which a complete text does not, and each is kept by
the next. Steady attempts come to one verdict at most, any number of steps that does not run
out is enough to see it, and attempts in a row come to what their steps come to.

What an attempt reads of a text is what a position sees of it: the characters from there on.
-/

import ScopedGrammar.Proofs.Input.Advancing
import ScopedGrammar.Proofs.Match.Steps

namespace ScopedGrammar

variable {α β : Type} {text : String}

namespace Position

/-- The characters of a text from a position on. -/
def Sees (text : String) (place : Position) (rest : List Char) : Prop :=
  text.toList.drop place.offset = rest

instance (text : String) (place : Position) (rest : List Char) :
    Decidable (place.Sees text rest) :=
  inferInstanceAs (Decidable (text.toList.drop place.offset = rest))

namespace Sees

variable {place : Position} {run rest : List Char}

theorem start (text : String) : Position.start.Sees text text.toList :=
  rfl

/-- After a run of characters, a position sees what comes after the run. -/
theorem past (hsees : place.Sees text (run ++ rest)) : (place.past run).Sees text rest := by
  rw [Sees, offset_past, ← List.drop_drop, hsees, List.drop_left]

theorem charAt (hsees : place.Sees text rest) :
    (Input.ofText text).charAt place.offset = (rest.head?, Input.ofText text) := by
  rw [Input.charAt_ofText, ← hsees, List.head?_drop]

theorem startsWith (hsees : place.Sees text rest) (expected : List Char) :
    (Input.ofText text).startsWith place.offset expected =
      (expected.isPrefixOf rest, Input.ofText text) := by
  rw [Input.startsWith_of_finished rfl, ← hsees]
  simp [Input.ofText]

/-- A token of a run of characters that a position sees. -/
theorem capture (hsees : place.Sees text (run ++ rest)) :
    Token.capture place run.length (Input.ofText text) =
      (⟨String.ofList run, place, place.past run⟩, Input.ofText text) := by
  have hthere : run.length ≤ text.length - place.offset := by
    rw [← String.length_toList, ← List.length_drop, hsees, List.length_append]
    exact Nat.le_add_right _ _
  rw [Token.capture_ofText hthere, hsees, List.take_left]

end Sees

end Position

/-- Attempts that only let the input grow, and each of which is kept by the next. -/
structure Steady (attempt : Nat → Attempt Silence α) : Prop where
  grows : ∀ granted, (attempt granted).Grows
  kept : ∀ granted, (attempt granted).KeptBy (attempt (granted + 1))

/-- What attempts with more and more steps come to over a text, once there are enough. -/
def Comes (text : String) (attempt : Nat → Attempt Silence α) (verdict : Verdict α) : Prop :=
  verdict.isExhausted = false ∧
    ∃ granted, attempt granted (Input.ofText text) = (verdict, Input.ofText text)

namespace Steady

variable {attempt : Nat → Attempt Silence α}

theorem const {attempt : Attempt Silence α} (hgrows : attempt.Grows) :
    Steady fun _ => attempt :=
  ⟨fun _ => hgrows, fun _ => .refl attempt⟩

theorem bind {next : Nat → α → Attempt Silence β} (hfirst : Steady attempt)
    (hnext : ∀ result, Steady fun granted => next granted result) :
    Steady fun granted => attempt granted >>= next granted :=
  ⟨fun granted => .bind (hfirst.grows granted) fun result => (hnext result).grows granted,
    fun granted => .bind (hfirst.kept granted) fun result => (hnext result).kept granted⟩

theorem run (pattern : Pattern) (scope : Scope) (place : Position) :
    Steady fun granted => pattern.run granted scope place :=
  ⟨fun granted => grows_run granted pattern scope place,
    fun granted => keptBy_run_succ granted pattern scope place⟩

theorem form (shape : Form) (scope : Scope) (place : Position) :
    Steady fun granted => Match.form (Pattern.run granted) granted shape scope place :=
  ⟨fun granted => Match.grows_form (grows_run granted) granted shape scope place,
    fun granted => Match.keptBy_form (keptBy_run_succ granted) granted shape scope place⟩

theorem allOf (parts : List Pattern) (scope : Scope) (place : Position) :
    Steady fun granted => Match.allOf (Pattern.run granted) parts scope place :=
  ⟨fun granted => Match.grows_allOf (grows_run granted) parts scope place,
    fun granted => Match.keptBy_allOf (keptBy_run_succ granted) parts scope place⟩

theorem firstOf (options : List Pattern) (scope : Scope) (place : Position) :
    Steady fun granted => Match.firstOf (Pattern.run granted) options scope place :=
  ⟨fun granted => Match.grows_firstOf (grows_run granted) options scope place,
    fun granted => Match.keptBy_firstOf (keptBy_run_succ granted) options scope place⟩

/-- A complete text is the input after an attempt as it was before. -/
theorem settled (hsteady : Steady attempt) {granted : Nat} {verdict : Verdict α}
    {after : Input Silence}
    (hending : attempt granted (Input.ofText text) = (verdict, after)) :
    after = Input.ofText text :=
  ((hsteady.grows granted).after hending).settled rfl

/-- Attempts that have come to something come to it with more steps too. -/
theorem kept_of_le (hsteady : Steady attempt) {granted more : Nat} (hmore : granted ≤ more)
    {input : Input Silence} (hrun : (attempt granted input).1.isExhausted = false) :
    attempt more input = attempt granted input := by
  induction hmore with
  | refl => rfl
  | @step more _ ih =>
      rw [← ih] at hrun ⊢
      exact hsteady.kept more input hrun

end Steady

namespace Comes

variable {attempt : Nat → Attempt Silence α} {verdict : Verdict α}

/-- What does not depend on the number of steps. -/
theorem const {attempt : Attempt Silence α} (hverdict : verdict.isExhausted = false)
    (hending : attempt (Input.ofText text) = (verdict, Input.ofText text)) :
    Comes text (fun _ => attempt) verdict :=
  ⟨hverdict, 0, hending⟩

/-- With enough steps, attempts come to what they come to. -/
theorem eventually (hcomes : Comes text attempt verdict) (hsteady : Steady attempt) :
    ∃ enough, ∀ granted, enough ≤ granted →
      attempt granted (Input.ofText text) = (verdict, Input.ofText text) := by
  obtain ⟨hverdict, enough, hending⟩ := hcomes
  refine ⟨enough, fun granted hgranted => ?_⟩
  have hrun : (attempt enough (Input.ofText text)).1.isExhausted = false := by
    rw [hending]
    exact hverdict
  rw [hsteady.kept_of_le hgranted hrun, hending]

/-- Any number of steps that does not run out is enough. -/
theorem eq_of_run (hcomes : Comes text attempt verdict) (hsteady : Steady attempt)
    {granted : Nat}
    (hrun : (attempt granted (Input.ofText text)).1.isExhausted = false) :
    attempt granted (Input.ofText text) = (verdict, Input.ofText text) := by
  obtain ⟨enough, henough⟩ := hcomes.eventually hsteady
  have hmore := henough (max enough granted) (Nat.le_max_left _ _)
  rwa [hsteady.kept_of_le (Nat.le_max_right _ _) hrun] at hmore

theorem unique {other : Verdict α} (hcomes : Comes text attempt verdict)
    (hother : Comes text attempt other) (hsteady : Steady attempt) : verdict = other := by
  obtain ⟨hverdict, granted, hending⟩ := hcomes
  have hrun : (attempt granted (Input.ofText text)).1.isExhausted = false := by
    rw [hending]
    exact hverdict
  have hsame := hother.eq_of_run hsteady hrun
  rw [hending] at hsame
  exact congrArg Prod.fst hsame

end Comes

variable {first : Nat → Attempt Silence α} {next : Nat → α → Attempt Silence β}

/-- Attempts in a row come to a match exactly if each does. -/
theorem comes_bind_matched_iff (hfirst : Steady first)
    (hnext : ∀ result, Steady fun granted => next granted result) {result : β} :
    Comes text (fun granted => first granted >>= next granted) (.matched result) ↔
      ∃ middle, Comes text first (.matched middle) ∧
        Comes text (fun granted => next granted middle) (.matched result) := by
  constructor
  · rintro ⟨-, granted, hending⟩
    obtain ⟨middle, between, hmiddle, hresult⟩ :=
      Attempt.andThen_eq_matched_iff.mp hending
    have hsame := hfirst.settled hmiddle
    subst hsame
    exact ⟨middle, ⟨rfl, granted, hmiddle⟩, ⟨rfl, granted, hresult⟩⟩
  · rintro ⟨middle, hmiddle, hresult⟩
    obtain ⟨enough, henough⟩ := hmiddle.eventually hfirst
    obtain ⟨further, hfurther⟩ := hresult.eventually (hnext middle)
    refine ⟨rfl, max enough further, Attempt.andThen_eq_matched_iff.mpr ?_⟩
    exact ⟨middle, _, henough _ (Nat.le_max_left _ _), hfurther _ (Nat.le_max_right _ _)⟩

theorem comes_bind_missed_of_first (hmissed : Comes text first .missed) :
    Comes text (fun granted => first granted >>= next granted) .missed := by
  obtain ⟨-, granted, hending⟩ := hmissed
  exact ⟨rfl, granted, Attempt.andThen_eq_missed_iff.mpr (.inl hending)⟩

theorem comes_bind_missed_of_next (hfirst : Steady first)
    (hnext : ∀ result, Steady fun granted => next granted result) {middle : α}
    (hmiddle : Comes text first (.matched middle))
    (hmissed : Comes text (fun granted => next granted middle) .missed) :
    Comes text (fun granted => first granted >>= next granted) .missed := by
  obtain ⟨enough, henough⟩ := hmiddle.eventually hfirst
  obtain ⟨further, hfurther⟩ := hmissed.eventually (hnext middle)
  refine ⟨rfl, max enough further, Attempt.andThen_eq_missed_iff.mpr (.inr ?_)⟩
  exact ⟨middle, _, henough _ (Nat.le_max_left _ _), hfurther _ (Nat.le_max_right _ _)⟩

/-- A step that succeeds with what an answer is made into. -/
theorem comes_bind_succeed_iff (hfirst : Steady first) {make : α → β} {result : β} :
    Comes text (fun granted => first granted >>= fun middle => pure (make middle))
        (.matched result) ↔
      ∃ middle, Comes text first (.matched middle) ∧ make middle = result := by
  have hnext : ∀ middle, Steady fun _ => (pure (make middle) : Attempt Silence β) :=
    fun middle => .const (.succeed (make middle))
  refine (comes_bind_matched_iff hfirst hnext).trans ?_
  constructor
  · rintro ⟨middle, hmiddle, -, granted, hending⟩
    exact ⟨middle, hmiddle, (Attempt.succeed_eq_matched_iff.mp hending).1⟩
  · rintro ⟨middle, hmiddle, rfl⟩
    exact ⟨middle, hmiddle, .const rfl rfl⟩

end ScopedGrammar
