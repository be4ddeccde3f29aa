/-
# The lines of expressions

The node of an expression is tagged with a line where the expression stands, and the nodes
beneath it with that line or later ones. Operators are tagged with the line of their left
operand. An attribute access, a call and an index are tagged with the line where they go on
after their object, so the object may be on an earlier line.
-/

import ScopedGrammar.Proofs.Croco.Bodies

namespace ScopedGrammar.Croco

open Pattern

variable {text : String} {multiline : Bool} {depth line low lower high higher : Nat}
  {scope inner : Scope} {place stop here there middle : Position} {success : Match}
  {header : Pattern} {value object body raw : Value} {values children : List Value}
  {kind : String} {rest : List Char}

/-- The kinds of nodes that are made by an operation on an object, their first child. -/
def operationKinds : List String :=
  ["getattr", "call", "getitem"]

/-- The children of a node, except for the object that an operation is applied to. -/
def ownChildren (kind : String) (children : List Value) : List Value :=
  if kind ∈ operationKinds then children.tail else children

/-- A tree lies beneath another, and no object of an operation is on the way. -/
inductive Beneath (tree : Value) : Value → Prop
  | child {kind : String} {line : Nat} {children : List Value}
      (mem : tree ∈ ownChildren kind children) : Beneath tree (.node kind line children)
  | deeper {kind : String} {line : Nat} {children : List Value} {child : Value}
      (mem : child ∈ ownChildren kind children) (beneath : Beneath tree child) :
      Beneath tree (.node kind line children)

/-- The lines of the nodes of a tree lie between two lines, except that objects of operations
may begin before the first of them, and that blocks without statements have no line. No
node has a later line than its own children, and none an earlier one than its object. -/
inductive Tagged : Nat → Value → Nat → Prop
  | leaf {low high : Nat} {value : Value}
      (hleaf : ∀ kind line children, value ≠ .node kind line children) : Tagged low value high
  | bare {low high : Nat} : Tagged low (.node "block" 0 []) high
  | node {low high line : Nat} {kind : String} {children : List Value}
      (hkind : kind ∉ operationKinds) (hlow : low ≤ line) (hhigh : line ≤ high)
      (hchildren : ∀ child ∈ children, Tagged line child high) :
      Tagged low (.node kind line children) high
  | operation {low high line : Nat} {kind : String} {object : Value} {own : List Value}
      (hkind : kind ∈ operationKinds) (hlow : low ≤ line) (hhigh : line ≤ high)
      (hobject : Tagged 1 object line) (hown : ∀ child ∈ own, Tagged line child high) :
      Tagged low (.node kind line (object :: own)) high

namespace Tagged

theorem mono (htagged : Tagged low value high) (hlow : lower ≤ low) (hhigh : high ≤ higher) :
    Tagged lower value higher := by
  induction htagged generalizing lower higher with
  | leaf hleaf => exact .leaf hleaf
  | bare => exact .bare
  | node hkind hfirst hlast _ ih =>
      exact .node hkind (hlow.trans hfirst) (hlast.trans hhigh)
        fun child hchild => ih child hchild (Nat.le_refl _) hhigh
  | operation hkind hfirst hlast hobject _ _ ih =>
      exact .operation hkind (hlow.trans hfirst) (hlast.trans hhigh) hobject
        fun child hchild => ih child hchild (Nat.le_refl _) hhigh

theorem of_text (content : String) : Tagged low (.text content) high :=
  .leaf fun _ _ _ => nofun

/-- Nothing beneath a node is on an earlier line, so bounds may be narrowed to its line. -/
theorem raise (htagged : Tagged low (.node kind line children) high) :
    Tagged line (.node kind line children) high := by
  cases htagged with
  | leaf hleaf => exact absurd rfl (hleaf _ _ _)
  | bare => exact .bare
  | node hkind _ hhigh hchildren => exact .node hkind (Nat.le_refl line) hhigh hchildren
  | operation hkind _ hhigh hobject hown =>
      exact .operation hkind (Nat.le_refl line) hhigh hobject hown

/-- The own children of a node begin on its line or later. -/
theorem own (htagged : Tagged low (.node kind line children) high) :
    ∀ child ∈ ownChildren kind children, Tagged line child high := by
  cases htagged with
  | leaf hleaf => exact absurd rfl (hleaf _ _ _)
  | bare => exact fun _ hnone => nomatch hnone
  | node hkind _ _ hchildren =>
      rw [ownChildren, if_neg hkind]
      exact hchildren
  | operation hkind _ _ _ hown =>
      rw [ownChildren, if_pos hkind]
      exact hown

/-- A node within bounds has a line within bounds, if it is not a block without statements. -/
theorem line_bounds (htagged : Tagged low (.node kind line children) high) :
    Value.node kind line children = .node "block" 0 [] ∨ low ≤ line ∧ line ≤ high := by
  cases htagged with
  | leaf hleaf => exact absurd rfl (hleaf _ _ _)
  | bare => exact .inl rfl
  | node _ hlow hhigh _ => exact .inr ⟨hlow, hhigh⟩
  | operation _ hlow hhigh _ _ => exact .inr ⟨hlow, hhigh⟩

/-- What lies beneath a tree is tagged within the same bounds. -/
theorem beneath {tree : Value} (htagged : Tagged low value high) (hbeneath : Beneath tree value) :
    Tagged low tree high := by
  induction hbeneath generalizing low with
  | child hmem =>
      rcases htagged.line_bounds with hbare | ⟨hlow, -⟩
      · cases hbare
        cases hmem
      · exact (htagged.own _ hmem).mono hlow (Nat.le_refl _)
  | deeper hmem _ ih =>
      rcases htagged.line_bounds with hbare | ⟨hlow, -⟩
      · cases hbare
        cases hmem
      · exact ih ((htagged.own _ hmem).mono hlow (Nat.le_refl _))

/-- What occurs in a tree is tagged with lines of the text. -/
theorem occurs {tree : Value} (htagged : Tagged low value high) (hlow : 1 ≤ low)
    (hoccurs : Occurs tree value) : Tagged 1 tree high := by
  induction hoccurs generalizing low high with
  | whole => exact htagged.mono hlow (Nat.le_refl _)
  | child hmem _ ih =>
      cases htagged with
      | leaf hleaf => exact absurd rfl (hleaf _ _ _)
      | bare => cases hmem
      | node _ hfirst _ hchildren => exact ih (hchildren _ hmem) (hlow.trans hfirst)
      | operation _ hfirst hlast hobject hown =>
          rcases List.mem_cons.mp hmem with rfl | hmem
          · exact (ih hobject (Nat.le_refl 1)).mono (Nat.le_refl 1) hlast
          · exact ih (hown _ hmem) (hlow.trans hfirst)

end Tagged

/-- The number of lines of a text, where the empty text has one. -/
def lineCount (text : String) : Nat :=
  max 1 (Text.lines text.toList).length

/-- The line of a place. A place after the last newline is on the line before it, unless
something comes there. -/
def lineAt (text : String) (place : Position) : Nat :=
  min place.line (lineCount text)

theorem lineAt_mono (hleads : here.Leads text.toList there) :
    lineAt text here ≤ lineAt text there :=
  min_le_min hleads.line_le (Nat.le_refl _)

theorem lineAt_start (text : String) : lineAt text Position.start = 1 :=
  min_eq_left (le_max_left 1 _)

/-- Every newline ends a line, and there is one more line if anything follows. -/
theorem count_newline_lt (run : List Char) (hrest : rest ≠ []) :
    run.count '\n' < (Text.lines (run ++ rest)).length := by
  rw [Text.lines, List.length_map]
  induction run with
  | nil =>
      rw [List.count_nil, List.length_pos_iff, List.nil_append]
      intro hnone
      have hflat := Text.flatten_cutAfter (· == '\n') rest
      rw [hnone] at hflat
      exact hrest hflat.symm
  | cons c more ih =>
      rw [List.count_cons, List.cons_append, Text.cutAfter, List.foldr_cons, ← Text.cutAfter]
      split
      · rw [List.length_cons]
        exact Nat.succ_lt_succ ih
      · rw [Nat.add_zero]
        cases hpieces : Text.cutAfter (· == '\n') (more ++ rest) with
        | nil =>
            rw [hpieces] at ih
            exact absurd ih (Nat.not_lt_zero _)
        | cons piece others =>
            rw [hpieces] at ih
            exact ih

/-- Where something is seen, there is a line. -/
theorem line_le_lineCount (hfrom : Position.start.Leads text.toList place)
    (hsees : ¬ place.Sees text []) : place.line ≤ lineCount text := by
  obtain ⟨run, after, htext, rfl, hafter⟩ := hfrom.split (Position.Sees.start text)
  have hsome : after ≠ [] := by
    rintro rfl
    exact hsees hafter
  have hcount := count_newline_lt run hsome
  rw [← htext] at hcount
  rw [Position.line_past, show Position.start.line = 1 from rfl, Nat.add_comm]
  exact Nat.le_trans hcount (le_max_right 1 _)

theorem lineAt_of_sees (hfrom : Position.start.Leads text.toList place)
    (hsees : ¬ place.Sees text []) : lineAt text place = place.line :=
  min_eq_left (line_le_lineCount hfrom hsees)

theorem one_le_lineAt (hfrom : Position.start.Leads text.toList place) : 1 ≤ lineAt text place := by
  rw [← lineAt_start text]
  exact lineAt_mono hfrom

/-- A tree has a line, which is one of those between two places, and so have the trees beneath
it, from that line on. -/
def Located (text : String) (here : Position) (value : Value) (there : Position) : Prop :=
  ∃ line, value.line? = some line ∧ lineAt text here ≤ line ∧ line ≤ lineAt text there ∧
    Tagged line value (lineAt text there)

/-- A node that is no operation on an object is located, with all its children. It may take
further children. -/
def Rooted (text : String) (here : Position) (value : Value) (there : Position) : Prop :=
  ∃ kind line children, value = .node kind line children ∧ kind ∉ operationKinds ∧
    lineAt text here ≤ line ∧ line ≤ lineAt text there ∧
    ∀ child ∈ children, Tagged line child (lineAt text there)

/-- An operation is located, still without its object. -/
def Operates (text : String) (here : Position) (value : Value) (there : Position) : Prop :=
  ∃ kind line children, value = .node kind line children ∧ kind ∈ operationKinds ∧
    lineAt text here ≤ line ∧ line ≤ lineAt text there ∧
    ∀ child ∈ children, Tagged line child (lineAt text there)

theorem Rooted.located (hrooted : Rooted text here value there) :
    Located text here value there := by
  obtain ⟨kind, line, children, rfl, hkind, hlow, hhigh, hchildren⟩ := hrooted
  exact ⟨line, rfl, hlow, hhigh, .node hkind (Nat.le_refl line) hhigh hchildren⟩

/-- Where something is seen, a node may begin. -/
theorem rooted_at (hreached : Reached text multiline depth scope place)
    (hsees : ¬ place.Sees text []) (hleads : place.Leads text.toList there)
    (hkind : kind ∉ operationKinds)
    (hchildren : ∀ child ∈ children, Tagged (lineAt text place) child (lineAt text there)) :
    Rooted text place (.node kind place.line children) there := by
  have hline := lineAt_of_sees hreached.fromStart hsees
  refine ⟨kind, place.line, children, rfl, hkind, hline.le, ?_, hline ▸ hchildren⟩
  rw [← hline]
  exact lineAt_mono hleads

theorem Rooted.widen {earlier later : Position} (hrooted : Rooted text here value there)
    (hbefore : earlier.Leads text.toList here) (hafter : there.Leads text.toList later) :
    Rooted text earlier value later := by
  obtain ⟨kind, line, children, hvalue, hkind, hlow, hhigh, hchildren⟩ := hrooted
  have hlast := lineAt_mono hafter
  exact ⟨kind, line, children, hvalue, hkind, (lineAt_mono hbefore).trans hlow,
    hhigh.trans hlast, fun child hchild => (hchildren child hchild).mono (Nat.le_refl _) hlast⟩

namespace Located

theorem le (hlocated : Located text here value there) : lineAt text here ≤ lineAt text there := by
  obtain ⟨line, -, hlow, hhigh, -⟩ := hlocated
  exact hlow.trans hhigh

theorem tagged (hlocated : Located text here value there) :
    Tagged (lineAt text here) value (lineAt text there) := by
  obtain ⟨line, -, hlow, -, htagged⟩ := hlocated
  exact htagged.mono hlow (Nat.le_refl _)

theorem widen {earlier later : Position} (hlocated : Located text here value there)
    (hbefore : earlier.Leads text.toList here) (hafter : there.Leads text.toList later) :
    Located text earlier value later := by
  obtain ⟨line, hline, hlow, hhigh, htagged⟩ := hlocated
  have hlast := lineAt_mono hafter
  exact ⟨line, hline, (lineAt_mono hbefore).trans hlow, hhigh.trans hlast,
    htagged.mono (Nat.le_refl _) hlast⟩

end Located

/-- Trees that are taken one after the other are tagged in the order of the text. -/
theorem tagged_of_trail (htrail : Trail text.toList (Located text) place values stop) :
    lineAt text place ≤ lineAt text stop ∧
      ∀ value ∈ values, Tagged (lineAt text place) value (lineAt text stop) := by
  induction htrail with
  | nil rest => exact ⟨lineAt_mono rest, List.forall_mem_nil _⟩
  | cons gap located _ ih =>
      have hfirst := lineAt_mono gap
      refine ⟨hfirst.trans (located.le.trans ih.1), List.forall_mem_cons.mpr
        ⟨located.tagged.mono hfirst ih.1, fun value hvalue => ?_⟩⟩
      exact (ih.2 value hvalue).mono (hfirst.trans located.le) (Nat.le_refl _)

theorem located_of_singleton (htrail : Trail text.toList (Located text) place [value] stop) :
    Located text place value stop := by
  cases htrail with
  | cons gap hlocated hlast =>
      cases hlast with
      | nil rest => exact hlocated.widen gap rest

/-- An operator with its right operand is located where the operand is. -/
def Steps (text : String) (here : Position) (value : Value) (there : Position) : Prop :=
  ∃ spelling right middle, value = .list [.text spelling, right] ∧
    here.Leads text.toList middle ∧ Located text middle right there

/-- What operators are folded to begins on the line of the first operand. -/
theorem located_foldOperators (hkind : kind ∉ operationKinds)
    (hfirst : Located text place value middle)
    (hsteps : Trail text.toList (Steps text) middle values stop) :
    Located text place (foldOperators kind (.list [value, .list values])) stop := by
  show Located text place (values.foldl (applyOperator kind) value) stop
  induction hsteps generalizing value with
  | nil rest => exact hfirst.widen (.refl _ _) rest
  | cons gap hstep _ ih =>
      apply ih
      obtain ⟨spelling, right, between, rfl, hbetween, hright⟩ := hstep
      obtain ⟨line, hline, hlow, hhigh, htagged⟩ := hfirst
      have hgap := lineAt_mono (gap.trans hbetween)
      have hlast := hgap.trans hright.le
      have hnode : applyOperator kind value (.list [.text spelling, right]) =
          .node kind line [.text spelling, value, right] := by
        rw [applyOperator, nodeFrom, Value.lineOrZero, hline]
        rfl
      rw [hnode]
      refine ⟨line, rfl, hlow, hhigh.trans hlast,
        .node hkind (Nat.le_refl line) (hhigh.trans hlast) ?_⟩
      simp only [List.forall_mem_cons]
      exact ⟨.of_text spelling, htagged.mono (Nat.le_refl _) hlast,
        hright.tagged.mono (hhigh.trans hgap) (Nat.le_refl _), List.forall_mem_nil _⟩

/-- Operations are located where they go on after their objects. -/
theorem located_foldPostfix (hfrom : Position.start.Leads text.toList place)
    (hfirst : Located text place object middle)
    (hoperations : Trail text.toList (Operates text) middle values stop) :
    Located text place (foldPostfix (.list [object, .list values])) stop := by
  show Located text place (values.foldl applyPostfix object) stop
  induction hoperations generalizing object with
  | nil rest => exact hfirst.widen (.refl _ _) rest
  | cons gap hoperation _ ih =>
      apply ih
      obtain ⟨kind, line, children, rfl, hkind, hlow, hhigh, hchildren⟩ := hoperation
      obtain ⟨begun, -, hbegun, hended, htagged⟩ := hfirst
      have hgap := lineAt_mono gap
      have hobject : Tagged 1 object line :=
        htagged.mono ((one_le_lineAt hfrom).trans hbegun) (hgap.trans hlow)
      exact ⟨line, rfl, hbegun.trans (hended.trans (hgap.trans hlow)), hhigh,
        .operation hkind (Nat.le_refl line) hhigh hobject hchildren⟩

/-- The raw match of a number begins with a token where the number begins. -/
theorem number_begins (hmatches : (float.orElse int).Matches text scope place success) :
    ∃ raw, (success.value = floatValue raw ∨ success.value = intValue raw) ∧
      raw.lineOrZero = place.line ∧ ¬ place.Sees text [] := by
  have hsees : place.Sees text (text.toList.drop place.offset) := rfl
  have hdigits {taken : Match} (hrun : ((oneOf digits).atLeast 1).Matches text scope place taken) :
      ∃ c more, taken.value = .list (charTokens place (c :: more)) ∧ ¬ place.Sees text [] := by
    obtain ⟨run, after, hsplit, -, -, hsome, rfl⟩ :=
      run_split hsees (Match.resolveBounds_none (by decide)) hrun
    obtain ⟨c, more, rfl⟩ := List.exists_cons_of_ne_nil (List.ne_nil_of_length_pos hsome)
    exact ⟨c, more, rfl, not_sees_nil (hsplit ▸ hsees)⟩
  have hline (c : Char) (more : List Char) (others : List Value) :
      (Value.list (.list (charTokens place (c :: more)) :: others)).lineOrZero = place.line := by
    simp [Value.lineOrZero, Value.line?, Value.lineOfList?, charTokens]
  rcases Form.matches_choice_cons_iff.mp (matches_ofForm_iff.mp hmatches) with hfloat | ⟨-, hmore⟩
  · obtain ⟨raw, hraw, rfl⟩ := matches_iff.mp hfloat
    refine ⟨raw.value, .inl rfl, ?_⟩
    rw [float_form] at hraw
    rcases Form.matches_choice_cons_iff.mp hraw with hlong | ⟨-, hrest⟩
    · obtain ⟨_, _, _, _, hrow, hpicked, rfl⟩ := row_of_matches rfl hlong
      obtain ⟨front, _, hfront, -, rfl⟩ := rowMatches_cons_iff.mp hrow
      obtain ⟨c, more, hvalue, hsome⟩ := hdigits hfront
      cases hpicked
      exact ⟨hvalue ▸ hline c more _, hsome⟩
    rcases Form.matches_choice_cons_iff.mp hrest with hshort | ⟨-, hnever⟩
    · obtain ⟨_, _, _, _, hrow, hpicked, rfl⟩ := row_of_matches rfl hshort
      obtain ⟨point, _, hpoint, -, rfl⟩ := rowMatches_cons_iff.mp hrow
      obtain ⟨after, hafter, rfl⟩ := (matches_literal_iff hsees).mp hpoint
      cases hpicked
      exact ⟨lineOrZero_list_token _ _, not_sees_nil (hafter ▸ hsees)⟩
    · exact absurd hnever Form.not_matches_choice_nil
  rcases Form.matches_choice_cons_iff.mp hmore with hint | ⟨-, hnever⟩
  · obtain ⟨raw, hraw, rfl⟩ := matches_iff.mp hint
    obtain ⟨c, more, hvalue, hsome⟩ := hdigits (matches_ofForm_iff.mpr hraw)
    refine ⟨raw.value, .inr rfl, ?_, hsome⟩
    rw [hvalue, charTokens, lineOrZero_list_token]
  · exact absurd hnever Form.not_matches_choice_nil

theorem rooted_number (hreached : Reached text multiline depth scope place)
    (hmatches : (float.orElse int).Matches text scope place success) :
    Rooted text place success.value success.position := by
  obtain ⟨raw, hvalue, hline, hsees⟩ := number_begins hmatches
  have hnode : ∃ content, success.value = .node "number" place.line [content] ∧
      ∀ kind line children, content ≠ .node kind line children := by
    rcases hvalue with hvalue | hvalue <;> rw [hvalue, ← hline]
    · refine ⟨_, rfl, fun kind line children => ?_⟩
      split <;> exact nofun
    · refine ⟨_, rfl, fun kind line children => ?_⟩
      split <;> exact nofun
  obtain ⟨content, hnumber, hleaf⟩ := hnode
  rw [hnumber]
  exact rooted_at hreached hsees hmatches.leads (by decide) (by simpa using .leaf hleaf)

theorem rooted_string (hreached : Reached text multiline depth scope place)
    (hmatches : Croco.string.Matches text scope place success) :
    Rooted text place success.value success.position := by
  obtain ⟨_, raw, stop, last, hrow, hpicked, hsuccess⟩ := row_of_matches string_form hmatches
  obtain ⟨opening, others, hopening, -, rfl⟩ := rowMatches_cons_iff.mp hrow
  cases hpicked
  have hsees : place.Sees text (text.toList.drop place.offset) := rfl
  obtain ⟨mark, hmark, rfl⟩ := matches_capture_iff.mp hopening
  obtain ⟨c, after, hafter, -, rfl⟩ :=
    (Form.matches_charClass_iff hsees).mp (matches_ofForm_iff.mp hmark)
  obtain ⟨content, hvalue⟩ : ∃ content,
      success.value = .node "string" place.line [.text content] := by
    rw [hsuccess]
    exact ⟨_, congrArg (Value.node "string" · _) (lineOrZero_list_token _ _)⟩
  rw [hvalue]
  exact rooted_at hreached (not_sees_nil (hafter ▸ hsees)) hmatches.leads (by decide)
    (by simpa using .of_text _)

theorem rooted_identifier (hreached : Reached text multiline depth scope place)
    (hmatches : identifier.Matches text scope place success) :
    Rooted text place success.value success.position := by
  obtain ⟨_, raw, stop, last, hrow, hpicked, hsuccess⟩ := row_of_matches identifier_form hmatches
  obtain ⟨ahead, _, hahead, hword, rfl⟩ := rowMatches_cons_iff.mp hrow
  obtain ⟨-, rfl⟩ := Form.matches_absence_zero_iff.mp (matches_ofForm_iff.mp hahead)
  obtain ⟨first, _, hfirst, hmore, rfl⟩ := rowMatches_cons_iff.mp hword
  obtain ⟨tail, -, rfl⟩ := rowMatches_singleton_iff.mp hmore
  cases hpicked
  have hsees : place.Sees text (text.toList.drop place.offset) := rfl
  obtain ⟨c, after, hafter, -, rfl⟩ :=
    (Form.matches_charClass_iff hsees).mp (matches_ofForm_iff.mp hfirst)
  obtain ⟨content, hvalue⟩ : ∃ content,
      success.value = .node "name" place.line [.text content] := by
    rw [hsuccess]
    exact ⟨_, congrArg (Value.node "name" · _) (lineOrZero_list_token _ _)⟩
  rw [hvalue]
  exact rooted_at hreached (not_sees_nil (hafter ▸ hsees)) hmatches.leads (by decide)
    (by simpa using .of_text _)

/-- All expressions beyond a place are located. -/
def LocatedBeyond (text : String) (place : Position) : Prop :=
  ∀ ⦃multiline : Bool⦄ ⦃depth : Nat⦄ ⦃here : Position⦄ ⦃value : Value⦄ ⦃there : Position⦄,
    place.offset < here.offset → Takes text multiline depth (named "EXPRESSION") here value there →
    Located text here value there

theorem LocatedBeyond.moved (hbeyond : LocatedBeyond text place)
    (hleads : place.Leads text.toList here) : LocatedBeyond text here :=
  fun _ _ _ _ _ hless => hbeyond (Nat.lt_of_le_of_lt hleads.offset_le hless)

theorem LocatedBeyond.trail (hbeyond : LocatedBeyond text place)
    (hless : place.offset < here.offset)
    (htrail : Trail text.toList (Takes text multiline depth (named "EXPRESSION")) here values
      stop) :
    Trail text.toList (Located text) here values stop := by
  induction htrail with
  | nil rest => exact .nil rest
  | cons gap htakes _ ih =>
      have hfurther := Nat.lt_of_lt_of_le hless gap.offset_le
      exact .cons gap (hbeyond hfurther htakes)
        (ih (Nat.lt_of_lt_of_le hfurther htakes.leads.offset_le))

theorem located_collection (bracket : Bracket) (hbeyond : LocatedBeyond text place)
    (hreached : Reached text multiline depth scope place)
    (hmatches : bracket.pattern.Matches text scope place success) :
    Located text place success.value success.position := by
  obtain ⟨members, trailing, here, hvalue, hsees, hleads, hless, htrail⟩ :=
    hreached.collection bracket hmatches
  have hmembers := (hbeyond.trail hless htrail).before hleads
  have hnode : Located text place (nodeFrom bracket.kind
      (.list [bracket.token place, .list [.list members, trailing]]) members)
      success.position := by
    rw [nodeFrom, Bracket.token, lineOrZero_list_token]
    exact (rooted_at hreached hsees hmatches.leads (by cases bracket <;> decide)
      (tagged_of_trail hmembers).2).located
  rw [hvalue]
  unfold collectionValue
  dsimp only
  split
  next member _ hmember =>
    have hsingle : members = [member] := hmember
    rw [hsingle] at hmembers
    exact located_of_singleton hmembers
  next => exact hnode

/-- A primary is located within the blanks around it. -/
theorem located_primary (hbeyond : LocatedBeyond text place)
    (htakes : Takes text multiline depth (named "PRIMARY") place value there) :
    Located text place value there := by
  obtain ⟨scope, inner, hreached, hmatches⟩ := htakes
  obtain ⟨here, last, within, hlead, hhere, hchoice, htrail⟩ := hreached.primary hmatches
  refine Located.widen ?_ hlead htrail
  have hbracket (bracket : Bracket) (hcollection : bracket.pattern.Matches text scope here
      ⟨value, last, within⟩) : Located text here value last :=
    located_collection bracket (hbeyond.moved hlead) hhere hcollection
  rcases Form.matches_choice_cons_iff.mp (matches_ofForm_iff.mp hchoice) with hnumber | ⟨-, hmore⟩
  · obtain ⟨_, hnumber⟩ := hhere.of_named (by decide) rfl hnumber
    exact (rooted_number hhere hnumber).located
  rcases Form.matches_choice_cons_iff.mp hmore with hstring | ⟨-, hmore⟩
  · obtain ⟨_, hstring⟩ := hhere.of_named (by decide) rfl hstring
    exact (rooted_string hhere hstring).located
  rcases Form.matches_choice_cons_iff.mp hmore with hname | ⟨-, hmore⟩
  · obtain ⟨_, hname⟩ := hhere.of_named (by decide) rfl hname
    exact (rooted_identifier hhere hname).located
  rcases Form.matches_choice_cons_iff.mp hmore with htuple | ⟨-, hmore⟩
  · exact hbracket .tuple htuple
  rcases Form.matches_choice_cons_iff.mp hmore with hlist | ⟨-, hmore⟩
  · exact hbracket .list hlist
  rcases Form.matches_choice_cons_iff.mp hmore with hset | ⟨-, hnever⟩
  · exact hbracket .set hset
  · exact absurd hnever Form.not_matches_choice_nil

/-- Where something is seen, an operation may begin. -/
theorem operates_at (hreached : Reached text multiline depth scope place)
    (hsees : ¬ place.Sees text []) (hleads : place.Leads text.toList there)
    (hkind : kind ∈ operationKinds)
    (hchildren : ∀ child ∈ children, Tagged (lineAt text place) child (lineAt text there)) :
    Operates text place (.node kind place.line children) there := by
  have hline := lineAt_of_sees hreached.fromStart hsees
  refine ⟨kind, place.line, children, rfl, hkind, hline.le, ?_, hline ▸ hchildren⟩
  rw [← hline]
  exact lineAt_mono hleads

theorem operates_postfixStep (hbeyond : LocatedBeyond text place)
    (htakes : Takes text multiline depth postfixStep place value there) :
    Operates text place value there := by
  obtain ⟨scope, inner, hreached, hmatches⟩ := htakes
  rcases Form.matches_choice_cons_iff.mp (matches_ofForm_iff.mp hmatches) with
    hattribute | ⟨-, hmore⟩
  · obtain ⟨_, raw, stop, last, hrow, hpicked, hsuccess⟩ :=
      row_of_matches attributeAccess_form hattribute
    obtain ⟨point, _, hpoint, hrest, rfl⟩ := rowMatches_cons_iff.mp hrow
    obtain ⟨name, hname, rfl⟩ := rowMatches_singleton_iff.mp hrest
    cases hpicked
    have hsees : place.Sees text (text.toList.drop place.offset) := rfl
    obtain ⟨after, hafter, rfl⟩ := (matches_literal_iff hsees).mp hpoint
    obtain ⟨here, last, within, -, hhere, hname, -⟩ :=
      (hreached.after hpoint (by decide)).spaced (matches_demand_iff.mp hname)
    obtain ⟨_, hname⟩ := hhere.of_named (by decide) rfl hname
    obtain ⟨line, word, hword⟩ := identifier_sound hname
    have hvalue : value = attributeValue (.list [_, name]) := congrArg Match.value hsuccess
    rw [hvalue, show name = .node "name" line _ from hword, attributeValue, nodeFrom,
      lineOrZero_list_token]
    exact operates_at hreached (not_sees_nil (hafter ▸ hsees)) hattribute.leads (by decide)
      (by simpa [Value.item, Value.child?] using .of_text _)
  rcases Form.matches_choice_cons_iff.mp hmore with hcall | ⟨-, hmore⟩
  · obtain ⟨raw, here, last, hvalue, hsees, hlead, hless, ⟨within, inside, hhere, hitems⟩, hend⟩ :=
      hreached.around .tuple hcall
    obtain ⟨arguments, hraw, htrail⟩ := hhere.items hitems
    have harguments := ((hbeyond.trail hless htrail).before hlead).after hend
    cases hraw
    have hnode : value = .node "call" place.line arguments :=
      hvalue.trans (congrArg (Value.node "call" · arguments) (lineOrZero_list_token _ _))
    rw [hnode]
    exact operates_at hreached hsees hcall.leads (by decide) (tagged_of_trail harguments).2
  rcases Form.matches_choice_cons_iff.mp hmore with hindex | ⟨-, hnever⟩
  · obtain ⟨position, here, last, hvalue, hsees, hlead, hless, ⟨within, inside, hhere, hinner⟩,
      hend⟩ := hreached.around .list hindex
    have hposition : Located text place position there :=
      (hbeyond hless ⟨within, inside, hhere, matches_demand_iff.mp hinner⟩).widen hlead hend
    have hnode : value = .node "getitem" place.line [position] :=
      hvalue.trans (congrArg (Value.node "getitem" · [position]) (lineOrZero_list_token _ _))
    rw [hnode]
    exact operates_at hreached hsees hindex.leads (by decide)
      (List.forall_mem_singleton.mpr hposition.tagged)
  · exact absurd hnever Form.not_matches_choice_nil

/-- Expressions that bind at least so tightly are located, if those further on are. -/
def Locates (text : String) (multiline : Bool) (depth rank : Nat) : Prop :=
  ∀ ⦃here : Position⦄ ⦃value : Value⦄ ⦃there : Position⦄, LocatedBeyond text here →
    Takes text multiline depth (named (ruleAt rank)) here value there →
    Located text here value there

theorem locates_postfixed (text : String) (multiline : Bool) (depth : Nat) :
    Locates text multiline depth postfixRank := by
  rintro place value there hbeyond ⟨scope, inner, hreached, hmatches⟩
  obtain ⟨object, operations, middle, hvalue, hobject, htrail⟩ := hreached.postfixed hmatches
  have hoperations : Trail text.toList (Operates text) middle operations there :=
    htrail.along hobject.leads (fun _ _ _ => Takes.leads)
      fun here _ _ hlead => operates_postfixStep (hbeyond.moved hlead)
  cases hvalue
  exact located_foldPostfix hreached.fromStart (located_primary hbeyond hobject) hoperations

theorem locates_tier (tier : Tier) (hoperand : Locates text multiline depth (tier.rank + 1)) :
    Locates text multiline depth tier.rank := by
  rintro place value there hbeyond ⟨scope, inner, hreached, hmatches⟩
  obtain ⟨first, steps, middle, hvalue, hfirst, htrail⟩ := hreached.tier tier hmatches
  have hsteps : Trail text.toList (Steps text) middle steps there := by
    refine htrail.along hfirst.leads (fun _ _ _ => Takes.leads) ?_
    rintro here step last hlead ⟨within, inside, hhere, hstep⟩
    obtain ⟨spelling, right, between, hpair, hbetween, hright⟩ := hhere.step tier hstep
    exact ⟨spelling, right, between, hpair, hbetween,
      hoperand (hbeyond.moved (hlead.trans hbetween)) hright⟩
  cases hvalue
  exact located_foldOperators (by cases tier <;> decide) (hoperand hbeyond hfirst) hsteps

theorem locates_expression (text : String) (multiline : Bool) (depth : Nat) :
    Locates text multiline depth 0 :=
  locates_tier .comparison (locates_tier .sum (locates_tier .product
    (locates_tier .power (locates_postfixed text multiline depth))))

/-- Wherever expressions are taken, those further on are located. -/
theorem locatedBeyond (text : String) (place : Position) : LocatedBeyond text place := by
  -- What is in the brackets of an expression stands further on in the text than it begins.
  induction hleft : text.length - place.offset using Nat.strong_induction_on
    generalizing place with
  | _ left ih =>
  subst hleft
  rintro multiline depth here value there hless ⟨scope, inner, hreached, hmatches⟩
  have hin := hreached.inText
  exact locates_expression text multiline depth (ih _ (by omega) here rfl)
    ⟨scope, inner, hreached, hmatches⟩

theorem located_expression
    (htakes : Takes text multiline depth (named "EXPRESSION") place value there) :
    Located text place value there :=
  locates_expression text multiline depth (locatedBeyond text place) htakes

theorem located_target
    (htakes : Takes text multiline depth (named (ruleAt postfixRank)) place value there) :
    Located text place value there :=
  locates_postfixed text multiline depth (locatedBeyond text place) htakes

end ScopedGrammar.Croco
