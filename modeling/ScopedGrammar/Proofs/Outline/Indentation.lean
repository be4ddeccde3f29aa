/-
# Lines that are indented too deep

After some lines of an outline it is settled how deep the next one may stand: one level deeper
than a line that opens a block, and otherwise no deeper than the line before. A line deeper
than that is an error, whatever comes after its spaces and whatever came before.

The innermost block that is still open is the first to look at the line, and its depth is the
greatest that is allowed. It takes that many spaces, sees another one, and complains; no block
around it is asked. The induction is on the lines that are left: a block at a depth complains
about the last of them, or leaves a line that is not as deep.
-/

import ScopedGrammar.Proofs.Match.Stopping
import ScopedGrammar.Proofs.Outline.Inverse

namespace ScopedGrammar.Outline

open Pattern

variable {text : String} {scope : Scope} {place : Position}

/-- A line of an outline: its indentation, its text, and whether it opens a block. -/
structure Row where
  depth : Nat
  heading : String
  opens : Bool

namespace Row

/-- A line as it is written, with the newline that ends it. -/
def written (row : Row) : List Char :=
  spaces row.depth ++ (row.heading.toList ++ ((if row.opens then [':'] else []) ++ ['\n']))

/-- The greatest indentation of the next line. -/
def below (row : Row) : Nat :=
  if row.opens then row.depth + 1 else row.depth

/-- Whether a line may come right after another one. The first line of a block stands exactly
one level deeper than the line that opens the block. -/
def Precedes (row next : Row) : Prop :=
  if row.opens then next.depth = row.depth + 1 else next.depth ≤ row.depth

end Row

/-- Lines as they are written, one after the other. -/
def writtenAll (rows : List Row) : List Char :=
  rows.flatMap Row.written

theorem writtenAll_cons (row : Row) (rows : List Row) :
    writtenAll (row :: rows) = row.written ++ writtenAll rows :=
  List.flatMap_cons

theorem writtenAll_append (first second : List Row) :
    writtenAll (first ++ second) = writtenAll first ++ writtenAll second :=
  List.flatMap_append

theorem writtenAll_ne_nil {rows : List Row} (hsome : rows ≠ []) : writtenAll rows ≠ [] := by
  obtain ⟨row, rest, rfl⟩ := List.exists_cons_of_ne_nil hsome
  simp [writtenAll_cons, Row.written]

/-- The greatest indentation of a line after others. -/
def allowed (rows : List Row) : Nat :=
  rows.getLast?.elim 0 Row.below

/-- Lines of an outline, from the first one on. -/
structure Outlined (rows : List Row) : Prop where
  headings : ∀ row ∈ rows, Heading row.heading
  first : ∀ row ∈ rows.head?, row.depth = 0
  follows : rows.IsChain Row.Precedes

/-- Lines that may come next where one may be as deep as a limit, such that another one may be
as deep as `last` after them all. -/
inductive Laid (last : Nat) : Nat → List Row → Prop
  | nil : Laid last last []
  | cons {limit : Nat} {row : Row} {rows : List Row} (heading : Heading row.heading)
      (within : row.depth ≤ limit)
      (opened : row.opens = true → ∀ next ∈ rows.head?, next.depth = row.below)
      (rest : Laid last row.below rows) : Laid last limit (row :: rows)

namespace Laid

variable {last limit other : Nat} {row : Row} {rows : List Row}

/-- The limit matters to the first line only. -/
theorem relimit (hlaid : Laid last limit (row :: rows)) (hother : row.depth ≤ other) :
    Laid last other (row :: rows) := by
  cases hlaid with
  | cons heading within opened rest => exact .cons heading hother opened rest

theorem of_chain (hheadings : ∀ row ∈ rows, Heading row.heading)
    (hfirst : ∀ row ∈ rows.head?, row.depth ≤ limit) (hfollows : rows.IsChain Row.Precedes) :
    Laid (rows.getLast?.elim limit Row.below) limit rows := by
  induction rows generalizing limit with
  | nil => exact .nil
  | cons row rest ih =>
      obtain ⟨hheading, hrest⟩ := List.forall_mem_cons.mp hheadings
      obtain ⟨hnext, hchain⟩ := List.isChain_cons.mp hfollows
      have hlast : (row :: rest).getLast?.elim limit Row.below =
          rest.getLast?.elim row.below Row.below := by
        rw [List.getLast?_cons]
        cases rest.getLast? <;> rfl
      rw [hlast]
      refine .cons hheading (hfirst row rfl) (fun hopens next hmem => ?_)
        (ih hrest (fun next hmem => ?_) hchain)
      · have hprecedes := hnext next hmem
        rw [Row.Precedes, if_pos hopens] at hprecedes
        rw [hprecedes, Row.below, if_pos hopens]
      · have hprecedes := hnext next hmem
        unfold Row.Precedes at hprecedes
        unfold Row.below
        split at hprecedes
        next hopens => rw [if_pos hopens, hprecedes]
        next hopens => rwa [if_neg hopens]

end Laid

theorem Outlined.laid {rows : List Row} (houtlined : Outlined rows) :
    Laid (allowed rows) 0 rows :=
  .of_chain houtlined.headings (fun row hmem => (houtlined.first row hmem).le) houtlined.follows

/-- The complaint about a line that goes on with a space where it may not. -/
def overindented (text : String) (place : Position) : Diagnostic :=
  (Diagnostic.expected ("unexpected indentation on line " ++ toString place.line) place
    (Input.ofText text)).1

theorem complaint_indentation (text : String) (scope : Scope) (place : Position) :
    complaint text (Message.ofTemplate "unexpected indentation on line \x7bline\x7d") scope place =
      overindented text place := by
  have hpieces : Message.ofTemplate "unexpected indentation on line \x7bline\x7d" =
      ⟨"unexpected indentation on line ".toList.map .char ++ [.line]⟩ := by
    decide +kernel
  have hline : (Message.renderPieces scope place [.line] (Input.ofText text)).1 =
      toString place.line := String.append_empty
  rw [complaint, Message.render, hpieces, Message.renderPieces_plain_append, hline,
    String.ofList_toList]
  rfl

/-- A line with more spaces than its block has is complained about where they begin to be
too many. -/
theorem indentation_stops {depth extra : Nat} {after : List Char} (hlevel : Level scope depth)
    (hdeep : depth < extra) (hsees : place.Sees text (spaces extra ++ after)) :
    indentation.Stops text scope place
      (.diagnostic (overindented text (place.past (spaces depth)))) := by
  obtain ⟨more, rfl⟩ : ∃ more, extra = depth + (more + 1) :=
    ⟨extra - depth - 1, by omega⟩
  have hsplit : spaces (depth + (more + 1)) ++ after =
      spaces depth ++ (' ' :: (spaces more ++ after)) := by
    simp [spaces, List.replicate_add, List.replicate_succ]
  rw [hsplit] at hsees
  have hfirst : ((oneOf " ").times (.name "indent")).Matches text scope place
      ⟨.list (charTokens place (spaces depth)), place.past (spaces depth), scope⟩ :=
    times_matches hsees hlevel.bounds
      (fun c hc => inClass_space_iff.mpr (List.eq_of_mem_replicate hc)) List.length_replicate
  obtain ⟨_, -, hspace⟩ := copiesAt_class hsees.past (inClass_space_iff.mpr rfl)
  have hdemand : (((oneOf " ").notAhead).demand
      "unexpected indentation on line \x7bline\x7d").Stops text scope (place.past (spaces depth))
      (.diagnostic (overindented text (place.past (spaces depth)))) := by
    rw [← complaint_indentation text scope]
    exact stops_of_form (Form.demand_stops (notAhead_misses hspace))
  exact stops_of_row rfl (rowHalts_of_rest hfirst (rowHalts_of_first hdemand))

section Blocks

variable {last extra limit count : Nat} {row : Row} {rows : List Row} {after : List Char}

/-- The characters from some lines on, up to a line with too many spaces. -/
def unread (rows : List Row) (extra : Nat) (after : List Char) : List Char :=
  writtenAll rows ++ (spaces extra ++ after)

theorem unread_cons (row : Row) (rows : List Row) (extra : Nat) (after : List Char) :
    unread (row :: rows) extra after =
      spaces row.depth ++ (row.heading.toList ++ ((if row.opens then [':'] else []) ++
        ('\n' :: unread rows extra after))) := by
  simp [unread, writtenAll, Row.written]

theorem unread_append (taken rows : List Row) (extra : Nat) (after : List Char) :
    unread (taken ++ rows) extra after = writtenAll taken ++ unread rows extra after := by
  simp [unread, writtenAll]

/-- The complaint about the line after some lines. -/
def complaintAfter (text : String) (place : Position) (rows : List Row) (last : Nat) : Halt :=
  .diagnostic (overindented text ((place.past (writtenAll rows)).past (spaces last)))

theorem complaintAfter_append (text : String) (place : Position) (taken rows : List Row)
    (last : Nat) :
    complaintAfter text place (taken ++ rows) last =
      complaintAfter text (place.past (writtenAll taken)) rows last := by
  rw [complaintAfter, complaintAfter, writtenAll_append, Position.past_append]

theorem complaintAfter_cons (text : String) (place : Position) (row : Row) (rows : List Row)
    (last : Nat) :
    complaintAfter text place (row :: rows) last =
      complaintAfter text (place.past row.written) rows last := by
  rw [complaintAfter, complaintAfter, writtenAll_cons, Position.past_append]

/-- What a pattern for lines comes to: it complains about the line after them all, or it takes
some of them and leaves one that meets a condition. -/
inductive Outcome (text : String) (pattern : Pattern) (scope : Scope) (place : Position)
    (rows : List Row) (last : Nat) (leaves : List Row → Prop) : Prop
  | complains (stops : pattern.Stops text scope place (complaintAfter text place rows last))
  | takes {taken more : List Row} {value : Value} (split : rows = taken ++ more)
      (some : taken ≠ []) (leaves : leaves more)
      (matched : pattern.Matches text scope place ⟨value, place.past (writtenAll taken), scope⟩)

/-- Where the text of a line ends. -/
def Row.headingEnd (row : Row) (place : Position) : Position :=
  (place.past (spaces row.depth)).past row.heading.toList

/-- A line at the depth of its block is matched up to where its text ends. -/
theorem front_matches (hheading : Heading row.heading) (hlevel : Level scope row.depth)
    (hsees : place.Sees text (unread (row :: rows) extra after)) :
    ∃ indent, indentation.Matches text scope place
        ⟨indent, place.past (spaces row.depth), scope⟩ ∧
      lineText.Matches text scope (place.past (spaces row.depth))
        ⟨.text row.heading, row.headingEnd place, scope⟩ := by
  rw [unread_cons] at hsees
  obtain ⟨indent, -, hindent⟩ :=
    indentation_complete hlevel hsees (unspaced_heading hheading _)
  have hends : EndsText ((if row.opens then [':'] else []) ++ '\n' :: unread rows extra after) := by
    cases row.opens <;> rintro c ⟨⟩ <;> decide
  have htext : lineText.Matches text scope (place.past (spaces row.depth))
      ⟨.text (String.ofList row.heading.toList), row.headingEnd place, scope⟩ :=
    lineText_complete hsees.past hheading.nonempty hheading.inner hends
  rw [String.ofList_toList] at htext
  exact ⟨indent, hindent, htext⟩

theorem sees_headingEnd (hsees : place.Sees text (unread (row :: rows) extra after)) :
    (row.headingEnd place).Sees text
      ((if row.opens then [':'] else []) ++ '\n' :: unread rows extra after) := by
  rw [unread_cons] at hsees
  exact hsees.past.past

theorem past_written (row : Row) (place : Position) :
    place.past row.written =
      (row.headingEnd place).past ((if row.opens then [':'] else []) ++ ['\n']) := by
  rw [Row.written, Position.past_append, Position.past_append, Row.headingEnd]

theorem line_stops_of_ending (hheading : Heading row.heading) (hlevel : Level scope row.depth)
    (hsees : place.Sees text (unread (row :: rows) extra after)) {reason : Halt}
    (hstops : ending.Stops text scope (row.headingEnd place) reason) :
    (named "LINE").Stops text scope place reason := by
  obtain ⟨indent, hindent, htext⟩ := front_matches hheading hlevel hsees
  exact named_stops hlevel.line (labelled_stops "LINE" (stops_of_row line_form
    (rowHalts_of_rest hindent (rowHalts_of_rest htext (rowHalts_of_first hstops)))))

theorem line_matches_of_ending (hheading : Heading row.heading) (hlevel : Level scope row.depth)
    (hsees : place.Sees text (unread (row :: rows) extra after)) {value : Value} {stop : Position}
    (hmatches : ending.Matches text scope (row.headingEnd place) ⟨value, stop, scope⟩) :
    ∃ item, (named "LINE").Matches text scope place ⟨item, stop, scope⟩ := by
  obtain ⟨indent, hindent, htext⟩ := front_matches hheading hlevel hsees
  have hline := matches_of_row line_form (.cons hindent (.cons htext (.single hmatches))) rfl
  exact ⟨_, (matches_named_iff hlevel.line).mpr
    ⟨scope, (matches_labelled_iff "LINE").mpr hline, rfl⟩⟩

/-- A line that opens no block is taken. -/
theorem closed_line_matches (hheading : Heading row.heading) (hclosed : row.opens = false)
    (hlevel : Level scope row.depth)
    (hsees : place.Sees text (unread (row :: rows) extra after)) :
    ∃ item, (named "LINE").Matches text scope place ⟨item, place.past row.written, scope⟩ := by
  have hend := sees_headingEnd hsees
  have hpast := past_written row place
  rw [hclosed] at hend hpast
  rw [hpast]
  exact line_matches_of_ending hheading hlevel hsees (newline_ends scope hend)

/-- A line that opens a block comes to what the block comes to. -/
theorem opened_line_outcome (hfits : text.length < 2 ^ 63) (hheading : Heading row.heading)
    (hopens : row.opens = true) (hlevel : Level scope row.depth)
    (hsees : place.Sees text (unread (row :: rows) extra after))
    (hblock : ∀ (scope : Scope) (place : Position), Level scope (row.depth + 1) →
      place.Sees text (unread rows extra after) →
      Outcome text (named "BLOCK") scope place rows last (Laid last row.depth)) :
    Outcome text (named "LINE") scope place (row :: rows) last (Laid last row.depth) := by
  have hend := sees_headingEnd hsees
  have hpast := past_written row place
  rw [hopens] at hend hpast
  have hcolon : (row.headingEnd place).Sees text (":\n".toList ++ unread rows extra after) := hend
  obtain ⟨start, hstart⟩ := literal_matches scope hcolon
  have hdepth : row.depth + 1 < 2 ^ 63 := by
    have hlength := congrArg List.length hsees
    rw [unread_cons, List.length_drop, String.length_toList] at hlength
    simp only [List.length_append, List.length_cons, spaces, List.length_replicate] at hlength
    omega
  obtain ⟨next, hnext⟩ := Value.exists_ofInt?_next hdepth
  have hframe : scope.resolveAll deeper = .ok [("indent", .value next)] := by
    rw [deeper_eq, hlevel.counts.resolveAll_next, hnext]
  have hbelow : (row.headingEnd place).past ":\n".toList = place.past row.written := hpast.symm
  rcases hblock _ _ (hlevel.push hnext) hcolon.past with
    hstops | @⟨taken, more, value, hsplit, hsome, hleaves, hmatched⟩
  · refine .complains (line_stops_of_ending hheading hlevel hsees ?_)
    rw [complaintAfter_cons, ← hbelow]
    exact stops_of_form (Form.choice_stops_of_first (stops_of_row block_form (rowHalts_of_rest hstart
      (rowHalts_of_first (stops_of_form (Form.overlay_stops hframe hstops))))))
  · have hending : ending.Matches text scope (row.headingEnd place)
        ⟨value, place.past (writtenAll (row :: taken)), scope⟩ := by
      have hplace : place.past (writtenAll (row :: taken)) =
          ((row.headingEnd place).past ":\n".toList).past (writtenAll taken) := by
        rw [hbelow, writtenAll_cons, Position.past_append]
      rw [hplace]
      exact matches_ofForm_iff.mpr (Form.matches_choice_cons_iff.mpr (.inl
        (matches_of_row block_form (.cons hstart (.single (matches_ofForm_iff.mpr
          (Form.matches_overlay_iff.mpr ⟨_, _, hframe, hmatched, rfl⟩)))) rfl)))
    obtain ⟨item, hitem⟩ := line_matches_of_ending hheading hlevel hsees hending
    exact .takes (by rw [hsplit, List.cons_append]) (List.cons_ne_nil row taken) hleaves hitem

/-- A line with more spaces than its block has is where the block complains. -/
theorem line_stops (hlevel : Level scope last) (hextra : last < extra)
    (hsees : place.Sees text (unread [] extra after)) :
    (named "LINE").Stops text scope place (complaintAfter text place [] last) :=
  named_stops hlevel.line (labelled_stops "LINE" (stops_of_row line_form
    (rowHalts_of_first (indentation_stops hlevel hextra hsees))))

/-- The lines that a block at a depth is matched with: it complains about the line after them
all, or it takes some of them and leaves one that is not as deep. -/
inductive Course (text : String) (scope : Scope) (place : Position) (count : Nat)
    (rows : List Row) (last limit : Nat) : Prop
  | complains (broken : Broken text (named "LINE") none none
      (complaintAfter text place rows last) count scope place)
  | takes {taken more : List Row} {next : Row} {values : List Value}
      (split : rows = taken ++ next :: more) (left : next.depth < limit)
      (leaves : Laid last limit (next :: more)) (some : taken ≠ [] → values ≠ [])
      (series : Series text (named "LINE") none none count scope place values
        (place.past (writtenAll taken)) scope)

/-- A block whose first line is as deep as the block comes to what its course is. -/
theorem block_outcome (hlevel : Level scope (limit + 1))
    (hfirst : ∀ next ∈ rows.head?, next.depth = limit + 1)
    (hcourse : Course text scope place 0 rows last (limit + 1)) :
    Outcome text (named "BLOCK") scope place rows last (Laid last limit) := by
  rcases hcourse with hbroken | @⟨taken, more, next, values, hsplit, hleft, hleaves, hsome, hseries⟩
  · exact .complains (named_stops hlevel.block (labelled_stops "BLOCK"
      (stops_of_form (Form.repetition_stops (Match.resolveBounds_none (by decide)) hbroken))))
  · have htaken : taken ≠ [] := by
      rintro rfl
      have hdepth := hfirst next (by rw [hsplit]; rfl)
      omega
    have hlines : lines.Matches text scope place
        ⟨.list values, place.past (writtenAll taken), scope⟩ :=
      (matches_atLeast_iff (by decide)).mpr
        ⟨values, hseries, List.length_pos_iff.mpr (hsome htaken), rfl⟩
    exact .takes hsplit htaken (hleaves.relimit (Nat.le_of_lt_succ hleft))
      ((matches_named_iff hlevel.block).mpr
        ⟨scope, (matches_labelled_iff "BLOCK").mpr hlines, rfl⟩)

/-- A block complains about the line after all lines, or leaves one that is not as deep. -/
theorem course (hfits : text.length < 2 ^ 63) (hextra : last < extra)
    (hlaid : Laid last limit rows) (hlevel : Level scope limit)
    (hsees : place.Sees text (unread rows extra after)) :
    Course text scope place count rows last limit := by
  generalize hlength : rows.length = length
  induction length using Nat.strong_induction_on generalizing rows limit scope place count with
  | _ length ih =>
  cases hlaid with
  | nil => exact .complains (.now not_fullAt_none (rowHalts_part (line_stops hlevel hextra hsees)))
  | @cons _ row rest hheading hwithin hopened hrest =>
      rcases Nat.lt_or_eq_of_le hwithin with hless | rfl
      · have hmisses : (named "LINE").Misses text scope place := by
          refine line_misses hlevel hsees ?_
          rw [unread_cons]
          exact dedents_of_unspaced hless (unspaced_heading hheading _)
        exact .takes rfl hless (.cons hheading hwithin hopened hrest) (absurd rfl)
          (.missed not_fullAt_none (rowMisses_part_iff.mpr hmisses))
      · have hshorter : rest.length < length := by
          rw [← hlength, List.length_cons]
          exact Nat.lt_succ_self _
        have hline : Outcome text (named "LINE") scope place (row :: rest) last
            (Laid last row.depth) := by
          by_cases hopens : row.opens = true
          · have hbelow : row.below = row.depth + 1 := if_pos hopens
            rw [hbelow] at hrest hopened
            exact opened_line_outcome hfits hheading hopens hlevel hsees
              fun scope place hlevel hsees => block_outcome hlevel (hopened hopens)
                (ih rest.length hshorter hrest hlevel hsees rfl)
          · have hclosed := Bool.eq_false_iff.mpr hopens
            have hbelow : row.below = row.depth := if_neg hopens
            obtain ⟨item, hitem⟩ := closed_line_matches hheading hclosed hlevel hsees
            rw [hbelow] at hrest
            rw [← List.append_nil row.written] at hitem
            exact .takes (List.singleton_append).symm (List.cons_ne_nil row []) hrest hitem
        rcases hline with hstops | @⟨taken, more, value, hsplit, hsome, hleaves, hmatched⟩
        · exact .complains (.now not_fullAt_none (rowHalts_part hstops))
        · have hfewer : more.length < length := by
            rw [← hlength, hsplit, List.length_append]
            exact Nat.lt_add_of_pos_left (List.length_pos_iff.mpr hsome)
          have hround : RowMatches text (dueAfter none count ++ [named "LINE"]) scope place
              ([] ++ [value]) (place.past (writtenAll taken)) scope :=
            rowMatches_part_iff.mpr ⟨rfl, hmatched⟩
          have hmoved := Position.offset_past_ne place (writtenAll_ne_nil hsome)
          rw [hsplit, unread_append] at hsees
          rw [hsplit]
          rcases ih more.length hfewer hleaves hlevel hsees.past rfl with
            hbroken | @⟨further, left, next, values, hrest, hnext, hlaid, -, hseries⟩
          · rw [← complaintAfter_append] at hbroken
            exact .complains (.later not_fullAt_none hround hmoved hbroken)
          · rw [← Position.past_append, ← writtenAll_append] at hseries
            exact .takes (by rw [hrest, List.append_assoc]) hnext hlaid
              (fun _ => List.cons_ne_nil value values)
              (.moved not_fullAt_none hround hmoved hseries)

end Blocks

theorem past_spaces (place : Position) (depth : Nat) :
    place.past (spaces depth) = ⟨place.line, place.column + depth, place.offset + depth⟩ := by
  induction depth generalizing place with
  | zero => rfl
  | succ depth ih =>
      have hstep : place.past (spaces (depth + 1)) = (place.step ' ').past (spaces depth) := rfl
      rw [hstep, ih, Position.step, if_neg (by decide)]
      simp only [Position.mk.injEq, true_and]
      omega

/-- Every line opens the next one. -/
theorem past_writtenAll {rows : List Row} (hheadings : ∀ row ∈ rows, Heading row.heading)
    {place : Position} (hcolumn : place.column = 1) :
    (place.past (writtenAll rows)).line = place.line + rows.length ∧
      (place.past (writtenAll rows)).column = 1 := by
  induction rows generalizing place with
  | nil => exact ⟨rfl, hcolumn⟩
  | cons row rest ih =>
      obtain ⟨hheading, hrest⟩ := List.forall_mem_cons.mp hheadings
      have hend : (row.headingEnd place).line = place.line := line_past_heading hheading.inner
      have hline : (place.past row.written).line = place.line + 1 := by
        rw [past_written, Position.line_past, hend]
        cases row.opens <;> rfl
      have hstart : (place.past row.written).column = 1 := by
        rw [past_written, Position.past_append]
        rfl
      obtain ⟨hlines, hlast⟩ := ih hrest hstart
      rw [writtenAll_cons, Position.past_append, hlines, hline, List.length_cons]
      exact ⟨by omega, hlast⟩

/-- A line that is indented too deep is an error on that line, at the first space too many,
whatever lines come before it and whatever comes after its spaces. A text is one with fewer
than 2^63 characters. -/
theorem parse_overindented {rows : List Row} (houtlined : Outlined rows) {extra : Nat}
    (hextra : allowed rows < extra) (after : List Char)
    (hfits : (String.ofList (writtenAll rows ++ (spaces extra ++ after))).length < 2 ^ 63) :
    ∃ diagnostic, parse (String.ofList (writtenAll rows ++ (spaces extra ++ after))) =
        .error (.diagnostic diagnostic) ∧
      diagnostic.cause = .expected ∧
      diagnostic.message =
        "unexpected indentation on line " ++ toString (rows.length + 1) ∧
      diagnostic.position.line = rows.length + 1 ∧
      diagnostic.position.column = allowed rows + 1 := by
  generalize htext : String.ofList (writtenAll rows ++ (spaces extra ++ after)) = text at hfits ⊢
  have hsees : Position.start.Sees text (unread rows extra after) := by
    rw [← htext, Position.Sees, String.toList_ofList]
    rfl
  have hbroken : Broken text (named "LINE") none none
      (complaintAfter text .start rows (allowed rows)) 0 grammar.scope .start := by
    rcases course hfits hextra houtlined.laid level_start hsees with
      hbroken | ⟨-, hnext, -, -, -⟩
    · exact hbroken
    · exact absurd hnext (Nat.not_lt_zero _)
  have hstops : ((named "BLOCK").labelled "start").Stops text grammar.scope .start
      (complaintAfter text .start rows (allowed rows)) :=
    labelled_stops "start" (named_stops level_start.block (labelled_stops "BLOCK"
      (stops_of_form (Form.repetition_stops (Match.resolveBounds_none (by decide)) hbroken))))
  have hparse := Ranking.parse_eq_error ranking_admits ranking_start (limit_le_stepsFor _)
    rule_start hstops
  obtain ⟨hline, hcolumn⟩ : (Position.start.past (writtenAll rows)).line = 1 + rows.length ∧
      (Position.start.past (writtenAll rows)).column = 1 :=
    past_writtenAll houtlined.headings rfl
  have hposition : (overindented text ((Position.start.past (writtenAll rows)).past
      (spaces (allowed rows)))).position = ⟨rows.length + 1, allowed rows + 1,
        (Position.start.past (writtenAll rows)).offset + allowed rows⟩ := by
    rw [overindented, Diagnostic.expected, Diagnostic.position_raise, past_spaces, hline, hcolumn,
      Nat.add_comm 1, Nat.add_comm 1]
  refine ⟨_, hparse, Diagnostic.cause_raise _ _ _ _, ?_, congrArg Position.line hposition,
    congrArg Position.column hposition⟩
  rw [overindented, Diagnostic.expected, Diagnostic.message_raise, past_spaces, hline,
    Nat.add_comm 1]

/-- A block, a line that leaves it, and a line two spaces deep after that. -/
theorem parse_overindented_after_block :
    ∃ diagnostic, parse "a:\n b\nc\n  d" = .error (.diagnostic diagnostic) ∧
      diagnostic.cause = .expected ∧
      diagnostic.message = "unexpected indentation on line 4" ∧
      diagnostic.position.line = 4 ∧ diagnostic.position.column = 1 := by
  have hheading (c : Char) (hc : c ≠ ':' ∧ c ≠ '\n' ∧ c ≠ ' ') :
      Heading (String.ofList [c]) := by
    constructor <;> simp [hc]
  have houtlined : Outlined [⟨0, "a", true⟩, ⟨1, "b", false⟩, ⟨0, "c", false⟩] := by
    refine ⟨?_, by simp, by simp [Row.Precedes]⟩
    rintro row (_ | ⟨_, _ | ⟨_, _ | ⟨_, ⟨⟩⟩⟩⟩)
    · exact hheading 'a' (by decide)
    · exact hheading 'b' (by decide)
    · exact hheading 'c' (by decide)
  have hextra : allowed [⟨0, "a", true⟩, ⟨1, "b", false⟩, ⟨0, "c", false⟩] < 2 := by decide
  exact parse_overindented houtlined hextra ['d'] (by decide)

end ScopedGrammar.Outline
