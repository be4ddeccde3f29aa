/-
# Trees read back from their text

A tree is written as a symbolic expression, and the text determines the tree up to its line
numbers, which are not written. What begins at a place in the text is told by one character: a
node begins with a parenthesis, a text with a quote, and everything else is a number. A node
ends at the parenthesis that closes it, a text at its closing quote, and the kind of a node
and a number go on up to the next space or parenthesis, because neither has such a character
in it. So names, operators and digits that fit no word, all of them quoted, are never taken for
anything else.

Floating-point numbers are left out: a whole one is written without a point, like an integer.
-/

import ScopedGrammar.Proofs.Croco.Contracts
import ScopedGrammar.Proofs.Decimal.Integers
import ScopedGrammar.Proofs.Text.Delimiters

namespace ScopedGrammar.Croco

variable {tree other : Value} {rest more : List Char}

mutual

/-- A tree of nodes with its line numbers struck out. -/
def withoutLines : Value → Value
  | .node kind _ children => .node kind 0 (withoutLinesAll children)
  | leaf => leaf

/-- Some trees of nodes with their line numbers struck out. -/
def withoutLinesAll : List Value → List Value
  | [] => []
  | first :: rest => withoutLines first :: withoutLinesAll rest

end

mutual

/-- Whether no floating-point number stands in a tree of nodes. -/
def isFloatFree : Value → Bool
  | .float _ => false
  | .node _ _ children => areFloatFree children
  | _ => true

/-- Whether no floating-point number stands in some trees of nodes. -/
def areFloatFree : List Value → Bool
  | [] => true
  | first :: rest => isFloatFree first && areFloatFree rest

end

mutual

/-- Lines are not written. -/
theorem render_withoutLines : (tree : Value) → render (withoutLines tree) = render tree
  | .node _ _ children => by
      rw [withoutLines, render, render, renderChildren_withoutLinesAll children]
  | .empty | .endMark | .bool _ | .int _ | .float _ | .text _ | .token _ | .list _ | .map _ => rfl

theorem renderChildren_withoutLinesAll :
    (children : List Value) → renderChildren (withoutLinesAll children) = renderChildren children
  | [] => rfl
  | first :: rest => by
      rw [withoutLinesAll, renderChildren, renderChildren, render_withoutLines first,
        renderChildren_withoutLinesAll rest]

end

/-- The trees that a text determines: nodes of documented kinds, integers and texts. -/
inductive Legible : Value → Prop
  | int (number : Int64) : Legible (.int number)
  | text (content : String) : Legible (.text content)
  | node {kind : String} {line : Nat} {children : List Value} (hkind : kind ∈ documentedKinds)
      (hchildren : ∀ child ∈ children, Legible child) : Legible (.node kind line children)

mutual

/-- A tidy tree without floating-point numbers is legible. -/
theorem legible_of_isTidy :
    (tree : Value) → isTidy tree = true → isFloatFree tree = true → Legible tree
  | .int number, _, _ => .int number
  | .text content, _, _ => .text content
  | .node kind line children, htidy, hfree => by
      rw [isTidy, Bool.and_eq_true, List.contains_iff_mem] at htidy
      rw [isFloatFree] at hfree
      exact .node htidy.1 (legible_of_areTidy children htidy.2 hfree)
  | .float _, _, hfree => by cases hfree

theorem legible_of_areTidy :
    (trees : List Value) → areTidy trees = true → areFloatFree trees = true →
      ∀ tree ∈ trees, Legible tree
  | [], _, _ => List.forall_mem_nil _
  | first :: rest, htidy, hfree => by
      rw [areTidy, Bool.and_eq_true] at htidy
      rw [areFloatFree, Bool.and_eq_true] at hfree
      rw [List.forall_mem_cons]
      exact ⟨legible_of_isTidy first htidy.1 hfree.1, legible_of_areTidy rest htidy.2 hfree.2⟩

end

/-- Whether a character belongs to a kind or to a number. -/
def isWordChar (c : Char) : Bool :=
  c != ' ' && c != ')'

/-- Nothing goes on with a character that belongs to a kind or to a number. -/
def Delimited (rest : List Char) : Prop :=
  ∀ c ∈ rest.head?, isWordChar c = false

theorem toList_render_node (kind : String) (line : Nat) (children : List Value) :
    (render (.node kind line children)).toList ++ rest =
      '(' :: (kind.toList ++ ((renderChildren children).toList ++ ')' :: rest)) := by
  rw [render]
  simp

theorem toList_renderChildren_cons (first : Value) (children : List Value) :
    (renderChildren (first :: children)).toList ++ rest =
      ' ' :: ((render first).toList ++ ((renderChildren children).toList ++ rest)) := by
  rw [renderChildren]
  simp

/-- What comes after the kind of a node, or after one of its children, begins with a space or
with the closing parenthesis. -/
theorem delimited_renderChildren (children : List Value) :
    Delimited ((renderChildren children).toList ++ ')' :: rest) := by
  cases children with
  | nil =>
      rintro _ ⟨⟩
      rfl
  | cons first children =>
      rw [toList_renderChildren_cons]
      rintro _ ⟨⟩
      rfl

theorem isWordChar_of_mem_kind :
    ∀ kind ∈ documentedKinds, ∀ c ∈ kind.toList, isWordChar c = true := by
  decide

/-- An integer is written in digits, possibly behind a minus sign. -/
theorem mem_showInt {number : Int64} {c : Char} (hmem : c ∈ (Value.showInt number).toList) :
    Decimal.isDigit c = true ∨ c = '-' := by
  rw [Value.showInt, Decimal.toList_toString] at hmem
  split at hmem
  · exact .inl (Decimal.isDigit_of_mem_toDigits hmem)
  · rcases List.mem_cons.mp hmem with rfl | hmem
    · exact .inr rfl
    · exact .inl (Decimal.isDigit_of_mem_toDigits hmem)

theorem ne_of_mem_showInt {number : Int64} {c mark : Char}
    (hmark : Decimal.isDigit mark = false ∧ mark ≠ '-')
    (hmem : c ∈ (Value.showInt number).toList) : c ≠ mark := by
  rintro rfl
  rcases mem_showInt hmem with hdigit | hminus
  · rw [hmark.1] at hdigit
    cases hdigit
  · exact hmark.2 hminus

theorem isWordChar_of_mem_showInt {number : Int64} :
    ∀ c ∈ (Value.showInt number).toList, isWordChar c = true := by
  intro c hmem
  rw [isWordChar, Bool.and_eq_true, bne_iff_ne, bne_iff_ne]
  exact ⟨ne_of_mem_showInt (by decide) hmem, ne_of_mem_showInt (by decide) hmem⟩

theorem showInt_inj {first second : Int64}
    (hsame : (Value.showInt first).toList = (Value.showInt second).toList) : first = second := by
  have hread := congrArg Decimal.readInt? hsame
  rw [Value.showInt, Value.showInt, Decimal.readInt?_toString, Decimal.readInt?_toString] at hread
  exact Int64.toInt_inj.mp (Option.some.inj hread)

/-- The kind of value that begins with a character. -/
def kindFrom (c : Char) : Value.Kind :=
  if c = '(' then .node else if c = '"' then .text else .int

/-- The first character tells which kind of value is written. -/
theorem Legible.exists_head (htree : Legible tree) :
    ∃ c after, (render tree).toList = c :: after ∧ kindFrom c = tree.kind := by
  cases htree with
  | int number =>
      cases hchars : (Value.showInt number).toList with
      | nil =>
          have hread := Decimal.readInt?_toString number.toInt
          rw [← Value.showInt, hchars] at hread
          cases hread
      | cons c after =>
          have hmem : c ∈ (Value.showInt number).toList := hchars ▸ List.mem_cons_self
          refine ⟨c, after, hchars, ?_⟩
          rw [kindFrom, if_neg (ne_of_mem_showInt (by decide) hmem),
            if_neg (ne_of_mem_showInt (by decide) hmem)]
          rfl
  | text content => exact ⟨'"', _, by rw [render, Text.toList_quote], rfl⟩
  | @node kind line children _ _ =>
      have hchars : (render (.node kind line children)).toList ++ [] =
          '(' :: (kind.toList ++ ((renderChildren children).toList ++ [')'])) :=
        toList_render_node kind line children
      rw [List.append_nil] at hchars
      exact ⟨'(', _, hchars, rfl⟩

theorem Legible.kind_eq (htree : Legible tree) (hother : Legible other)
    (hsame : (render tree).toList ++ rest = (render other).toList ++ more) :
    tree.kind = other.kind := by
  obtain ⟨c, after, hchars, hkind⟩ := htree.exists_head
  obtain ⟨d, beyond, hother, hotherKind⟩ := hother.exists_head
  rw [hchars, hother] at hsame
  rw [← hkind, ← hotherKind, List.head_eq_of_cons_eq hsame]

/-- A tree is told, up to its lines, from any other in front of whatever comes after. -/
def Told (tree : Value) : Prop :=
  ∀ ⦃other rest more⦄, Legible other → Delimited rest → Delimited more →
    (render tree).toList ++ rest = (render other).toList ++ more →
      withoutLines tree = withoutLines other ∧ rest = more

/-- Children that are told one by one are told together, up to the closing parenthesis. -/
theorem told_children {children others : List Value} (htold : ∀ child ∈ children, Told child)
    (hothers : ∀ child ∈ others, Legible child)
    (hsame : (renderChildren children).toList ++ ')' :: rest =
      (renderChildren others).toList ++ ')' :: more) :
    withoutLinesAll children = withoutLinesAll others ∧ rest = more := by
  induction children generalizing others with
  | nil =>
      cases others with
      | nil => exact ⟨rfl, List.tail_eq_of_cons_eq hsame⟩
      | cons second others =>
          rw [toList_renderChildren_cons] at hsame
          exact absurd (List.head_eq_of_cons_eq hsame) (by decide)
  | cons first children ih =>
      cases others with
      | nil =>
          rw [toList_renderChildren_cons] at hsame
          exact absurd (List.head_eq_of_cons_eq hsame) (by decide)
      | cons second others =>
          rw [List.forall_mem_cons] at htold hothers
          rw [toList_renderChildren_cons, toList_renderChildren_cons] at hsame
          obtain ⟨hfirst, hlater⟩ := htold.1 hothers.1 (delimited_renderChildren children)
            (delimited_renderChildren others) (List.tail_eq_of_cons_eq hsame)
          obtain ⟨hchildren, hrest⟩ := ih htold.2 hothers.2 hlater
          rw [withoutLinesAll, withoutLinesAll, hfirst, hchildren]
          exact ⟨rfl, hrest⟩

/-- A legible tree is told from its text. -/
theorem Legible.told (htree : Legible tree) : Told tree := by
  induction htree with
  | int number =>
      intro other rest more hother hrest hmore hsame
      have hkind := (Legible.int number).kind_eq hother hsame
      cases hother with
      | int second =>
          obtain ⟨hchars, hrest⟩ := Text.append_inj_of_class isWordChar_of_mem_showInt
            isWordChar_of_mem_showInt hrest hmore hsame
          rw [showInt_inj hchars]
          exact ⟨rfl, hrest⟩
      | text _ => cases hkind
      | node _ _ => cases hkind
  | text content =>
      intro other rest more hother hrest hmore hsame
      have hkind := (Legible.text content).kind_eq hother hsame
      cases hother with
      | int _ => cases hkind
      | text second =>
          rw [render, render] at hsame
          obtain ⟨rfl, hrest⟩ := Text.quote_append_inj hsame
          exact ⟨rfl, hrest⟩
      | node _ _ => cases hkind
  | @node kind line children hkind hchildren ih =>
      intro other rest more hother hrest hmore hsame
      have hnode : Legible (.node kind line children) := .node hkind hchildren
      have hkinds := hnode.kind_eq hother hsame
      cases hother with
      | int _ => cases hkinds
      | text _ => cases hkinds
      | node hotherKind hothers =>
          rw [toList_render_node, toList_render_node] at hsame
          obtain ⟨hword, hafter⟩ := Text.append_inj_of_class (isWordChar_of_mem_kind _ hkind)
            (isWordChar_of_mem_kind _ hotherKind) (delimited_renderChildren _)
            (delimited_renderChildren _) (List.tail_eq_of_cons_eq hsame)
          obtain ⟨hall, hrest⟩ := told_children ih hothers hafter
          rw [withoutLines, withoutLines, String.toList_inj.mp hword, hall]
          exact ⟨rfl, hrest⟩

/-- The tree of a program without floating-point numbers is legible. -/
theorem legible_of_parse {text : String} (hparse : parse text = .ok tree)
    (hfree : isFloatFree tree = true) : Legible tree := by
  have hblock := (parse_keeps text (stepsFor text.length)).1 tree hparse
  exact legible_of_isTidy tree hblock.isTidy hfree

/-- Two programs without floating-point numbers are written alike exactly if their trees are
the same up to line numbers: the same kinds, the same children, the same literal values. -/
theorem render_eq_iff_withoutLines_eq {first second : String} {tree other : Value}
    (hfirst : parse first = .ok tree) (hsecond : parse second = .ok other)
    (htree : isFloatFree tree = true) (hother : isFloatFree other = true) :
    render tree = render other ↔ withoutLines tree = withoutLines other := by
  constructor
  · intro hsame
    have hend : Delimited [] := fun _ hnone => nomatch hnone
    have hlegible := legible_of_parse hfirst htree
    refine (hlegible.told (legible_of_parse hsecond hother) hend hend ?_).1
    rw [hsame]
  · intro hsame
    rw [← render_withoutLines tree, ← render_withoutLines other, hsame]

/-- The same statement on the first line and on the second, with its text in other quotes. -/
theorem render_eq_iff_withoutLines_eq_on_another_line :
    ∃ tree other, parse "x = 'a\\ )'" = .ok tree ∧ parse "\nx=\"a\\ )\"" = .ok other ∧
      tree.line? ≠ other.line? ∧ render tree = render other ∧
      withoutLines tree = withoutLines other := by
  have hchecked : (match parse "x = 'a\\ )'", parse "\nx=\"a\\ )\"" with
      | .ok tree, .ok other => isFloatFree tree && isFloatFree other &&
          decide (tree.line? ≠ other.line?) && decide (render tree = render other)
      | _, _ => false) = true := by
    decide +kernel
  cases hfirst : parse "x = 'a\\ )'" with
  | error reason => simp [hfirst] at hchecked
  | ok tree =>
      cases hsecond : parse "\nx=\"a\\ )\"" with
      | error reason => simp [hfirst, hsecond] at hchecked
      | ok other =>
          simp only [hfirst, hsecond, Bool.and_eq_true, decide_eq_true_eq] at hchecked
          obtain ⟨⟨⟨htree, hother⟩, hlines⟩, hsame⟩ := hchecked
          exact ⟨tree, other, rfl, rfl, hlines, hsame,
            (render_eq_iff_withoutLines_eq hfirst hsecond htree hother).mp hsame⟩

end ScopedGrammar.Croco
