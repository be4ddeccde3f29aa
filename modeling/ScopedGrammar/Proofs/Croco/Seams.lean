/-
# Where something is inserted

A seam is a place in a program where a gap is inserted: one blank between two tokens inside
brackets, or an empty line between two lines. The program and the program with the gap are
matched side by side. Up to the seam both are at the same position, and behind the gap they are
at positions that are as far apart as the gap is long. In between, at the seam itself, the one
sees the gap where the other sees what comes behind it; so whoever is there says why.

A pattern keeps pace if both matches of it come from positions that correspond to such positions,
in scopes where the rules mean what they mean in the grammar, and to values that are told apart
by nothing but where they stand.
-/

import ScopedGrammar.Proofs.Croco.Margins
import ScopedGrammar.Proofs.Croco.Parts
import ScopedGrammar.Proofs.Croco.Unclosed
import ScopedGrammar.Proofs.Croco.Unplaced
import ScopedGrammar.Proofs.Match.Edits

namespace ScopedGrammar.Croco

open Pattern

/-- The pairs of characters that are one operator. -/
def doubles : List (Char × Char) :=
  [('*', '*'), ('/', '/'), ('<', '='), ('>', '='), ('!', '='), ('=', '=')]

/-- Whether a text ends with a whole number, which a point would go on with. Digits behind a
point or in a name are none. -/
def endsWhole (front : List Char) : Bool :=
  front.getLast?.any Decimal.isDigit &&
    (front.reverse.dropWhile Decimal.isDigit).head?.all fun c => !(isNameChar c || c == '.')

/-- A place is not inside a token, as far as the characters around it tell: no name, no number
and no operator goes on across it, and no backslash stands before it. -/
structure Apart (front back : List Char) : Prop where
  word : ∀ c ∈ front.getLast?, isNameChar c = true → EndsWord back
  fraction : front.getLast? = some '.' → ∀ c ∈ back.head?, Decimal.isDigit c = false
  whole : endsWhole front = true → back.head? ≠ some '.'
  operator : ∀ pair ∈ doubles, front.getLast? = some pair.1 → back.head? ≠ some pair.2
  continuation : front.getLast? ≠ some '\\'

theorem endsWhole_append {passed digits : List Char} (hsome : digits ≠ [])
    (hdigits : ∀ c ∈ digits, Decimal.isDigit c = true)
    (hpassed : ∀ c ∈ passed.getLast?, isNameChar c = false ∧ c ≠ '.') :
    endsWhole (passed ++ digits) = true := by
  have hlast : (passed ++ digits).getLast?.any Decimal.isDigit = true := by
    rw [List.getLast?_append_of_ne_nil _ hsome, List.getLast?_eq_getLast_of_ne_nil hsome]
    exact hdigits _ (List.getLast_mem hsome)
  have hdropped : (passed ++ digits).reverse.dropWhile Decimal.isDigit = passed.reverse := by
    rw [List.reverse_append, List.dropWhile_append_of_pos (by simpa using hdigits)]
    cases hreverse : passed.reverse with
    | nil => rfl
    | cons c more =>
        have hc := hpassed c (by rw [List.getLast?_eq_head?_reverse, hreverse]; rfl)
        rw [List.dropWhile_cons_of_neg]
        simp [isDigit_of_isNameChar hc.1]
  rw [endsWhole, hlast, hdropped, Bool.true_and, ← List.getLast?_eq_head?_reverse]
  cases hpassedLast : passed.getLast? with
  | none => rfl
  | some c => simp [hpassed c hpassedLast]

/-- A place is not inside a token if no token goes on after the character before it. -/
theorem Apart.of_last {front back : List Char} {c : Char} (hlast : front.getLast? = some c)
    (hc : isNameChar c = false ∧ c ≠ '.' ∧ c ≠ '\\')
    (hoperator : ∀ pair ∈ doubles, pair.1 ≠ c) : Apart front back := by
  obtain ⟨hname, hpoint, hescape⟩ := hc
  refine ⟨?_, ?_, ?_, ?_, ?_⟩
  · intro d hd hword
    cases hlast.symm.trans hd
    exact absurd hword (by rw [hname]; decide)
  · intro hlastPoint
    exact absurd (Option.some.inj (hlast.symm.trans hlastPoint)) hpoint
  · intro hwhole
    rw [endsWhole, hlast, Option.any_some, isDigit_of_isNameChar hname] at hwhole
    cases hwhole
  · intro pair hpair hfirst
    exact absurd (Option.some.inj (hfirst.symm.trans hlast)) (hoperator pair hpair)
  · rw [hlast]
    exact fun hsame => hescape (Option.some.inj hsame)

/-- A blank is inserted between two tokens inside brackets. -/
structure Enclosed (front gap back : List Char) : Prop where
  opened : openBrackets front ≠ []
  apart : Apart front back
  blank : ∃ c, gap = [c] ∧ isBlankChar true c = true

/-- What may stand on a line in front of its end without being a statement. -/
def IsNote (note : List Char) : Prop :=
  note = [] ∨ ∃ more, note = '#' :: more ∧ '\n' ∉ more

/-- An empty line is inserted between two lines, with blanks and a comment on it if need be. At
the end of the text its newline may be missing. No branch comes next. -/
structure Interline (front gap back : List Char) : Prop where
  closed : openBrackets front = []
  newline : front.getLast? = some '\n'
  ended : ∀ before, front = before ++ ['\\', '\n'] → (Reader.start.past before).mode ≠ .plain
  line : ∃ blanks note ending, gap = blanks ++ (note ++ ending) ∧ Blank blanks ∧ IsNote note ∧
    EndsLine ending back
  something : gap ≠ []
  unbranched : ∀ blanks rest, back = blanks ++ rest → Blank blanks → Lacks ["elif", "else"] rest

/-- A place in a program, and what is inserted there. -/
structure Seam where
  front : List Char
  gap : List Char
  back : List Char
  plain : (Reader.start.past front).mode = .plain
  kind : Enclosed front gap back ∨ Interline front gap back
  fits : (front ++ (gap ++ back)).length + 1 < offsetBound

/-- Whether a postfix operation begins with a character. -/
def beginsSuffix (c : Char) : Bool :=
  c == '.' || c == '(' || c == '['

/-- Whether a call or an index ends with a character. -/
def endsSuffix (c : Char) : Bool :=
  c == ')' || c == ']'

/-- A postfix operation comes right after what may be a call or an index. -/
def Resumes (front back : List Char) : Prop :=
  (∃ c ∈ front.getLast?, endsSuffix c = true) ∧ ∃ c ∈ back.head?, beginsSuffix c = true

/-- The diagnostic of a bracket that is open before a gap, and is not closed behind it. -/
structure ReportsUnclosed (front gap : List Char) (diagnostic : Diagnostic) : Prop where
  message : ∃ bracket line, (openBrackets front).head? = some (bracket, line) ∧
    diagnostic.message = unclosedReport bracket.closing bracket.opening line
  position : diagnostic.position.offset = front.length + gap.length

/-- The diagnostic of blanks in a gap that are taken for too much of an indentation. -/
structure ReportsIndent (front gap : List Char) (diagnostic : Diagnostic) : Prop where
  message : diagnostic.message = indentReport diagnostic.position
  position : ∃ passed c rest, gap = passed ++ (c :: rest) ∧ Blank passed ∧ (c = ' ' ∨ c = '\t') ∧
    diagnostic.position.offset = front.length + passed.length

namespace Seam

variable {seam : Seam}

/-- The diagnostics that a program with a gap may be refused with. -/
def Fair (seam : Seam) (diagnostic : Diagnostic) : Prop :=
  (Enclosed seam.front seam.gap seam.back ∧ Resumes seam.front seam.back ∧
    ReportsUnclosed seam.front seam.gap diagnostic) ∨
  (Interline seam.front seam.gap seam.back ∧ ReportsIndent seam.front seam.gap diagnostic)

/-- A program, and the program with the gap. -/
def edit (seam : Seam) : Edit where
  text := String.ofList (seam.front ++ seam.back)
  edited := String.ofList (seam.front ++ (seam.gap ++ seam.back))
  fair := seam.Fair

theorem text_fits (seam : Seam) : seam.edit.text.length + 1 < offsetBound := by
  have hfits := seam.fits
  rw [edit, ← String.length_toList, String.toList_ofList]
  simp only [List.length_append] at hfits ⊢
  omega

theorem edited_fits (seam : Seam) : seam.edit.edited.length + 1 < offsetBound := by
  rw [edit, ← String.length_toList, String.toList_ofList]
  exact seam.fits

theorem Interline.apart {front gap back : List Char} (hline : Interline front gap back) :
    Apart front back :=
  .of_last hline.newline (by decide) (by decide)

theorem apart (seam : Seam) : Apart seam.front seam.back :=
  seam.kind.elim (fun henclosed => henclosed.apart) Interline.apart

/-- The characters that gaps begin with. -/
def gapStarts : List Char :=
  [' ', '\t', '\r', '\n', '#']

/-- A gap begins with a blank, the end of a line or a comment. -/
theorem head_gap (seam : Seam) : ∃ c more, seam.gap = c :: more ∧ c ∈ gapStarts := by
  rcases seam.kind with ⟨-, -, c, hgap, hblank⟩ | hline
  · refine ⟨c, [], hgap, ?_⟩
    simp only [isBlankChar, Bool.true_and, Bool.or_eq_true, beq_iff_eq] at hblank
    rcases hblank with (rfl | rfl) | rfl | rfl <;> decide
  · obtain ⟨blanks, note, ending, hgap, hblanks, hnote, hending⟩ := hline.line
    have hsome := hline.something
    rw [hgap] at hsome ⊢
    cases blanks with
    | cons c more =>
        refine ⟨c, _, rfl, ?_⟩
        rcases hblanks c List.mem_cons_self with rfl | rfl <;> decide
    | nil =>
        rcases hnote with rfl | ⟨more, rfl, -⟩
        · rcases hending with rfl | ⟨rfl, -⟩
          · exact ⟨'\n', [], rfl, by decide⟩
          · exact absurd rfl hsome
        · exact ⟨'#', _, rfl, by decide⟩

theorem head?_gap_append (seam : Seam) (rest : List Char) :
    (seam.gap ++ rest).head? = seam.gap.head? := by
  obtain ⟨c, more, hgap, -⟩ := seam.head_gap
  rw [hgap]
  rfl

/-- Where the two matches are: both at a position before the seam, or at positions behind the
gap, or both at the seam, for a reason. -/
inductive Faces (seam : Seam) (edge : Prop) (place other : Position) : Prop
  | before {passed ahead : List Char} (hfront : seam.front = passed ++ ahead)
      (hahead : ahead ≠ []) (hplace : place.offset = passed.length) (hother : other = place)
  | within (hedge : edge) (hplace : place.offset = seam.front.length) (hother : other = place)
  | after {passed rest : List Char} (hback : seam.back = passed ++ rest)
      (hplace : place.offset = seam.front.length + passed.length)
      (hother : other.offset = seam.front.length + seam.gap.length + passed.length)

/-- The two matches are not at the seam. -/
abbrev Free (seam : Seam) : Position → Position → Prop :=
  seam.Faces False

/-- The last character before the seam is of a kind. -/
def Ended (seam : Seam) (kind : Char → Bool) : Prop :=
  ∃ c ∈ seam.front.getLast?, kind c = true

variable {edge further : Prop} {place other : Position} {passed ahead run rest more : List Char}
  {kind : Char → Bool}

theorem ended_of_front (hfront : seam.front = passed ++ run) (hsome : run ≠ [])
    (hrun : ∀ c ∈ run, kind c = true) : seam.Ended kind := by
  refine ⟨run.getLast hsome, ?_, hrun _ (List.getLast_mem hsome)⟩
  rw [hfront, List.getLast?_append_of_ne_nil _ hsome]
  exact List.getLast?_eq_getLast_of_ne_nil hsome

theorem Ended.mono {wider : Char → Bool} (hended : seam.Ended kind)
    (hwider : ∀ c, kind c = true → wider c = true) : seam.Ended wider := by
  obtain ⟨c, hc, hkind⟩ := hended
  exact ⟨c, hc, hwider c hkind⟩

theorem sees_before (hfront : seam.front = passed ++ ahead)
    (hplace : place.offset = passed.length) :
    place.Sees seam.edit.text (ahead ++ seam.back) ∧
      place.Sees seam.edit.edited (ahead ++ (seam.gap ++ seam.back)) := by
  constructor <;>
    rw [Position.Sees, hplace, edit, String.toList_ofList, hfront, List.append_assoc,
      List.drop_left]

theorem sees_within (hplace : place.offset = seam.front.length) :
    place.Sees seam.edit.text seam.back ∧
      place.Sees seam.edit.edited (seam.gap ++ seam.back) := by
  constructor <;> rw [Position.Sees, hplace, edit, String.toList_ofList, List.drop_left]

theorem sees_after (hback : seam.back = passed ++ rest)
    (hplace : place.offset = seam.front.length + passed.length)
    (hother : other.offset = seam.front.length + seam.gap.length + passed.length) :
    place.Sees seam.edit.text rest ∧ other.Sees seam.edit.edited rest := by
  constructor
  · rw [Position.Sees, hplace, edit, String.toList_ofList, hback, ← List.drop_drop,
      List.drop_left, List.drop_left]
  · rw [Position.Sees, hother, edit, String.toList_ofList, hback, ← List.drop_drop,
      ← List.drop_drop, List.drop_left, List.drop_left, List.drop_left]

namespace Faces

theorem mono (hfaces : seam.Faces edge place other) (hfurther : edge → further) :
    seam.Faces further place other := by
  cases hfaces with
  | before hfront hahead hplace hother => exact .before hfront hahead hplace hother
  | within hedge hplace hother => exact .within (hfurther hedge) hplace hother
  | after hback hplace hother => exact .after hback hplace hother

/-- What is passed over before the seam may end there. -/
theorem past_before (hfront : seam.front = passed ++ (run ++ more))
    (hplace : place.offset = passed.length) (hend : more = [] → edge) :
    seam.Faces edge (place.past run) (place.past run) := by
  have hpast : (place.past run).offset = (passed ++ run).length := by
    rw [Position.offset_past, hplace, List.length_append]
  by_cases hmore : more = []
  · subst hmore
    refine .within (hend rfl) ?_ rfl
    rw [hpast, hfront, List.append_nil]
  · exact .before (by rw [hfront, List.append_assoc]) hmore hpast rfl

theorem past_after (hback : seam.back = passed ++ (run ++ rest))
    (hplace : place.offset = seam.front.length + passed.length)
    (hother : other.offset = seam.front.length + seam.gap.length + passed.length) :
    seam.Faces edge (place.past run) (other.past run) := by
  refine .after (by rw [hback, List.append_assoc] : seam.back = (passed ++ run) ++ rest) ?_ ?_
  · rw [Position.offset_past, hplace, List.length_append, Nat.add_assoc]
  · rw [Position.offset_past, hother, List.length_append, Nat.add_assoc]

/-- From the seam, one match goes over what comes behind it and the other over the gap first. -/
theorem past_within (hback : seam.back = run ++ rest)
    (hplace : place.offset = seam.front.length) :
    seam.Faces edge (place.past run) (place.past (seam.gap ++ run)) := by
  refine .after hback ?_ ?_
  · rw [Position.offset_past, hplace]
  · rw [Position.offset_past, hplace, List.length_append, Nat.add_assoc]

/-- Matches that are not at the seam have moved both or neither, as long as they do not go
back. -/
theorem samePlace {later otherLater : Position} (hfaces : seam.Free place other)
    (hlater : seam.Faces edge later otherLater) (hle : other.offset ≤ otherLater.offset) :
    later.samePlace place = otherLater.samePlace other := by
  have hgap : 0 < seam.gap.length := by
    obtain ⟨c, more, hgap, -⟩ := seam.head_gap
    simp [hgap]
  rw [Position.samePlace, Position.samePlace, Bool.eq_iff_iff, beq_iff_eq, beq_iff_eq]
  rcases hfaces with ⟨hfront, hahead, hplace, rfl⟩ | ⟨⟨⟩, -, -⟩ | ⟨hback, hplace, hother⟩ <;>
    rcases hlater with ⟨hfront', hahead', hplace', rfl⟩ | ⟨-, hplace', rfl⟩ |
      ⟨hback', hplace', hother'⟩
  · rfl
  · rfl
  · have hlength := congrArg List.length hfront
    have hpositive := List.length_pos_iff.mpr hahead
    rw [List.length_append] at hlength
    omega
  · have hlength := congrArg List.length hfront'
    rw [List.length_append] at hlength
    omega
  · omega
  · omega

end Faces

section Clear

variable {opened : List (Bracket × Nat)}

/-- At the seam, the brackets are open that are open after what stands before it. -/
theorem openBrackets_front (hclear : Clear seam.edit.text opened place)
    (hplace : place.offset = seam.front.length) : openBrackets seam.front = opened := by
  rw [← hclear.opened_eq, hplace, edit, String.toList_ofList, List.take_left]

theorem enclosed (hclear : Clear seam.edit.text opened place)
    (hplace : place.offset = seam.front.length) (hopened : opened ≠ []) :
    Enclosed seam.front seam.gap seam.back :=
  seam.kind.resolve_right fun hline =>
    hopened ((openBrackets_front hclear hplace).symm.trans hline.closed)

theorem interline (hclear : Clear seam.edit.text [] place)
    (hplace : place.offset = seam.front.length) : Interline seam.front seam.gap seam.back :=
  seam.kind.resolve_left fun henclosed =>
    henclosed.opened (openBrackets_front hclear hplace)

/-- Where no brackets are open, what leads up to the seam ends a line. -/
theorem newline_of_passed (hclear : Clear seam.edit.text [] place)
    (hfront : seam.front = passed ++ run) (hplace : place.offset = passed.length)
    (hrun : ∀ c ∈ run, isNeutral c = true) : seam.front.getLast? = some '\n' := by
  have hsees := (sees_before hfront hplace).1
  refine (interline (hclear.past hsees hrun) ?_).newline
  rw [Position.offset_past, hplace, hfront, List.length_append]

/-- Where no brackets are open, only the end of a line leads to the seam. -/
theorem Faces.free (hfaces : seam.Faces (seam.Ended kind) place other)
    (hclear : Clear seam.edit.text [] place) (hkind : kind '\n' = false) :
    seam.Free place other := by
  cases hfaces with
  | before hfront hahead hplace hother => exact .before hfront hahead hplace hother
  | within hedge hplace hother =>
      obtain ⟨c, hc, hended⟩ := hedge
      cases (interline hclear hplace).newline.symm.trans hc
      rw [hkind] at hended
      cases hended
  | after hback hplace hother => exact .after hback hplace hother

/-- A reader at a clear position before the seam is in the middle of nothing, but at the end of
a comment at most. -/
theorem reader_before (hclear : Clear seam.edit.text opened place)
    (hfront : seam.front = passed ++ ahead) (hplace : place.offset = passed.length) :
    (Reader.start.past passed).opened = opened ∧ ((Reader.start.past passed).mode = .plain ∨
      (Reader.start.past passed).mode = .comment ∧ ∀ c ∈ (ahead ++ seam.back).head?, c = '\n') := by
  obtain ⟨reader, rest, hreaches, rfl, hmode⟩ := hclear
  cases (sees_before hfront hplace).1.symm.trans hreaches.sees
  obtain ⟨before, htext, hstart, rfl⟩ := hreaches
  have hbefore : before = passed := by
    have hlength : before.length = passed.length := by
      rw [← hplace, hstart, Position.offset_past]
      exact (Nat.zero_add _).symm
    rw [edit, String.toList_ofList, hfront, List.append_assoc] at htext
    exact (List.append_inj_left htext hlength.symm).symm
  rw [← hbefore]
  exact ⟨rfl, hmode⟩

theorem plain_before {c : Char} (hclear : Clear seam.edit.text opened place)
    (hfront : seam.front = passed ++ (c :: more)) (hplace : place.offset = passed.length)
    (hc : c ≠ '\n') : (Reader.start.past passed).mode = .plain :=
  (reader_before hclear hfront hplace).2.resolve_right fun hend => hc (hend.2 c rfl)

end Clear

end Seam

/-- No name and no number stands right before a place that is before the seam. -/
def Fresh (seam : Seam) (place : Position) : Prop :=
  ∀ passed ahead, seam.front = passed ++ ahead → ahead ≠ [] → place.offset = passed.length →
    ∀ c ∈ passed.getLast?, isNameChar c = false ∧ c ≠ '.'

theorem fresh_of_le {seam : Seam} {place : Position} (hle : seam.front.length ≤ place.offset) :
    Fresh seam place := by
  intro passed ahead hfront hahead hplace
  have hpositive := List.length_pos_iff.mpr hahead
  rw [hfront, List.length_append] at hle
  omega

/-- What ends with neither a name nor a number leaves no name and no number before a place. -/
theorem fresh_past {seam : Seam} {place : Position} {passed run ahead : List Char}
    (hfront : seam.front = passed ++ (run ++ ahead)) (hplace : place.offset = passed.length)
    (hsome : run ≠ []) (hlast : ∀ c ∈ run.getLast?, isNameChar c = false ∧ c ≠ '.') :
    Fresh seam (place.past run) := by
  intro before behind hsplit _ hbefore
  have hsame : before = passed ++ run := by
    rw [hfront, ← List.append_assoc] at hsplit
    refine (List.append_inj_left hsplit ?_).symm
    rw [← hbefore, Position.offset_past, hplace, List.length_append]
  rw [hsame, List.getLast?_append_of_ne_nil _ hsome]
  exact hlast

/-- The depth of the block around a place, and the brackets that are open there. -/
structure Setting where
  depth : Nat
  opened : List (Bracket × Nat)

/-- Whether newlines are blanks, as they are inside brackets. -/
def Setting.multiline (setting : Setting) : Bool :=
  !setting.opened.isEmpty

theorem Setting.multiline_iff {setting : Setting} :
    setting.multiline = true ↔ setting.opened ≠ [] := by
  rw [multiline, Bool.not_eq_true', List.isEmpty_eq_false_iff]

/-- No brackets are open around the statements of a block. -/
abbrev Setting.line (depth : Nat) : Setting :=
  ⟨depth, []⟩

/-- Rules that mean what they mean in the grammar leave brackets as they are. -/
theorem Level.bound {multiline : Bool} {depth : Nat} {scope : Scope}
    (hlevel : Level multiline depth scope) : Bound scope := by
  intro name hname
  rcases List.mem_cons.mp hname with rfl | hrule
  · exact ⟨_, hlevel.blanks, .inl (by cases multiline <;> decide +kernel)⟩
  · obtain ⟨rule, hmeans, hsound⟩ := bound_grammar name hname
    exact ⟨rule, (hlevel.rules name hrule).trans hmeans, hsound⟩

/-- Two matches are at positions that correspond, in scopes where the rules mean what they mean
in the grammar, and at a place that is clear. -/
structure Spot (seam : Seam) (setting : Setting) (faces : Position → Position → Prop)
    (scope : Scope) (place : Position) (otherScope : Scope) (other : Position) : Prop where
  level : Level setting.multiline setting.depth scope
  otherLevel : Level setting.multiline setting.depth otherScope
  clear : Clear seam.edit.text setting.opened place
  faces : faces place other

/-- Two matches have come to values and positions that correspond. -/
def Lands (faces : Position → Position → Prop) (values : Value → Value → Prop)
    (success other : Match) : Prop :=
  values success.value other.value ∧ faces success.position other.position

/-- Two matches have come to values and spots that correspond. -/
def Arrives (seam : Seam) (setting : Setting) (faces : Position → Position → Prop)
    (values : Value → Value → Prop) (success other : Match) : Prop :=
  values success.value other.value ∧
    Spot seam setting faces success.scope success.position other.scope other.position

/-- From spots that correspond, the matches of a pattern come to results that do. -/
def Paces (seam : Seam) (setting : Setting) (granted : Nat) (pattern : Pattern)
    (faces : Position → Position → Prop) (results : Match → Match → Prop) : Prop :=
  ∀ ⦃scope place otherScope other⦄, Spot seam setting faces scope place otherScope other →
    ∀ steps ≤ granted, ∀ more, seam.edit.Follows results (pattern.run steps scope place)
      (pattern.run more otherScope other)

section Contracts

variable {seam : Seam} {setting : Setting} {faces ends wider : Position → Position → Prop}
  {values further : Value → Value → Prop} {scope otherScope : Scope} {place other : Position}
  {pattern rule : Pattern} {results : Match → Match → Prop} {granted steps more : Nat}
  {name : String} {success otherSuccess : Match}

theorem Spot.mono (hspot : Spot seam setting faces scope place otherScope other)
    (hwider : faces place other → wider place other) :
    Spot seam setting wider scope place otherScope other :=
  ⟨hspot.level, hspot.otherLevel, hspot.clear, hwider hspot.faces⟩

theorem Arrives.mono (harrives : Arrives seam setting faces values success otherSuccess)
    (hwider : faces success.position otherSuccess.position →
      wider success.position otherSuccess.position)
    (hfurther : values success.value otherSuccess.value →
      further success.value otherSuccess.value) :
    Arrives seam setting wider further success otherSuccess :=
  ⟨hfurther harrives.1, harrives.2.mono hwider⟩

/-- The scopes that were handed in are as good as those where the matches ended. -/
theorem Arrives.back (harrives : Arrives seam setting ends values success otherSuccess)
    (hspot : Spot seam setting faces scope place otherScope other) :
    Arrives seam setting ends values { success with scope }
      { otherSuccess with scope := otherScope } :=
  ⟨harrives.1, hspot.level, hspot.otherLevel, harrives.2.clear, harrives.2.faces⟩

theorem Paces.mono {wide : Match → Match → Prop}
    (hpaces : Paces seam setting granted pattern faces results)
    (hwide : ∀ success other, results success other → wide success other) :
    Paces seam setting granted pattern faces wide :=
  fun _ _ _ _ hspot steps hsteps more => (hpaces hspot steps hsteps more).mono hwide

theorem Paces.le {fewer : Nat} (hpaces : Paces seam setting granted pattern faces results)
    (hfewer : fewer ≤ granted) : Paces seam setting fewer pattern faces results :=
  fun _ _ _ _ hspot steps hsteps more => hpaces hspot steps (hsteps.trans hfewer) more

theorem Paces.of_faces (hpaces : Paces seam setting granted pattern faces results)
    (hfaces : ∀ place other, wider place other → faces place other) :
    Paces seam setting granted pattern wider results :=
  fun _ _ _ _ hspot steps hsteps more => hpaces (hspot.mono (hfaces _ _)) steps hsteps more

theorem matches_of_run {text : String} {after : Input Silence}
    (hrun : pattern.run steps scope place (Input.ofText text) = (.matched success, after)) :
    pattern.Matches text scope place success := by
  obtain rfl := (Steady.run pattern scope place).settled hrun
  exact ⟨rfl, steps, hrun⟩

theorem Level.after {text : String} {multiline : Bool} {depth : Nat}
    (hlevel : Level multiline depth scope) (hmatches : pattern.Matches text scope place success)
    (hexposed : pattern.exposed ⊆ captures) : Level multiline depth success.scope :=
  hlevel.extends (hmatches.extends.mono fun _ hname => hexposed hname)

theorem Clear.after {text : String} {opened : List (Bracket × Nat)} {multiline : Bool}
    {depth : Nat} (hclear : Clear text opened place) (hlevel : Level multiline depth scope)
    (hmatches : pattern.Matches text scope place success) (hsound : Sound pattern) :
    Clear text opened success.position := by
  obtain ⟨-, steps, hrun⟩ := hmatches
  obtain ⟨verdict, hending, hkept⟩ :=
    sound_respects steps hsound opened scope place ⟨hlevel.bound, hclear⟩
  cases hrun.symm.trans hending
  exact hkept.2

/-- A pattern that leaves brackets as they are, and captures no name of a rule, leads to spots
that correspond if it leads to positions that do. -/
theorem Spot.arrives (hspot : Spot seam setting faces scope place otherScope other)
    (hsound : Sound pattern) (hexposed : pattern.exposed ⊆ captures)
    (hlands : seam.edit.Follows (Lands ends values) (pattern.run steps scope place)
      (pattern.run more otherScope other)) :
    seam.edit.Follows (Arrives seam setting ends values) (pattern.run steps scope place)
      (pattern.run more otherScope other) := by
  have hfirst := hlands.promised (fun success =>
    Level setting.multiline setting.depth success.scope ∧
      Clear seam.edit.text setting.opened success.position) fun success after hrun => by
    have hmatches := matches_of_run hrun
    exact ⟨hspot.level.after hmatches hexposed,
      hspot.clear.after hspot.level hmatches hsound⟩
  have hboth := hfirst.promised_other (fun success =>
    Level setting.multiline setting.depth success.scope) fun success after hrun =>
      hspot.otherLevel.after (matches_of_run hrun) hexposed
  exact hboth.mono fun success otherSuccess ⟨⟨hlands, hlevel, hclear⟩, hother⟩ =>
    ⟨hlands.1, hlevel, hother, hclear, hlands.2⟩

/-- What is known of the places where the first match ends may be added. -/
theorem follows_arrives_at (hfollows : seam.edit.Follows (Arrives seam setting ends values)
      (pattern.run steps scope place) (pattern.run more otherScope other))
    (promise : Position → Prop)
    (hpromise : ∀ success, pattern.Matches seam.edit.text scope place success →
      promise success.position) :
    seam.edit.Follows (Arrives seam setting (fun here there => ends here there ∧ promise here)
      values) (pattern.run steps scope place) (pattern.run more otherScope other) :=
  (hfollows.promised _ fun _ _ hrun => hpromise _ (matches_of_run hrun)).mono
    fun _ _ ⟨harrives, hkept⟩ => harrives.mono (fun hends => ⟨hends, hkept⟩) id

/-- A name is matched as its rule in the grammar. -/
theorem Paces.named {wide : Match → Match → Prop} (hname : name ∈ ruleNames)
    (hrule : grammar.scope.rule? name = some (rule.labelled name))
    (hpaces : Paces seam setting granted rule faces results)
    (hback : ∀ ⦃scope place otherScope other success otherSuccess⦄,
      Spot seam setting faces scope place otherScope other → results success otherSuccess →
        wide { success with scope } { otherSuccess with scope := otherScope }) :
    Paces seam setting (granted + 1) (named name) faces wide := by
  intro scope place otherScope other hspot steps hsteps more
  refine Edit.follows_named (hspot.level.rule?_eq hname hrule)
    (hspot.otherLevel.rule?_eq hname hrule) fun fewer hfewer more => ?_
  have hfollows := hpaces hspot fewer (Nat.le_of_lt_succ (hfewer.trans_le hsteps)) more
  exact Edit.follows_labelled name (hfollows.mono fun _ _ hresults => hback hspot hresults)

end Contracts

end ScopedGrammar.Croco
