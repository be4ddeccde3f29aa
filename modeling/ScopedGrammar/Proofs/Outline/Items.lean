/-
# Items of an outline

An item is a node of its heading and of the items of its block. Items that come from a text
carry the lines that they are on, and since every item has a line of its own, these are the
lines from some line on, one after the other. Written out, a forest of items takes one
newline for each item.
-/

import ScopedGrammar.Languages.Outline
import ScopedGrammar.Proofs.Value.Tokens

namespace ScopedGrammar.Outline

variable {line first depth : Nat} {text : String} {item : Value} {items block : List Value}

/-- What may stand on a line: at least one character, neither colons nor newlines, and no
space in front. -/
structure Heading (text : String) : Prop where
  nonempty : text.toList ≠ []
  inner : ∀ c ∈ text.toList, c ≠ ':' ∧ c ≠ '\n'
  first : ∀ c ∈ text.toList.head?, c ≠ ' '

/-- A heading with a block of items, which may be empty. -/
inductive Item : Value → Prop
  | mk {line : Nat} {text : String} {block : List Value} (heading : Heading text)
      (all : ∀ item ∈ block, Item item) : Item (.node "item" line (.text text :: block))

mutual

/-- The lines of an item and of the items below it, in order. -/
def itemLines : Value → List Nat
  | .node _ line children => line :: forestLines children
  | _ => []

/-- The lines of items and of all below them, in order. -/
def forestLines : List Value → List Nat
  | [] => []
  | first :: rest => itemLines first ++ forestLines rest

end

/-- The items carry the lines from a first one on, in order and without gaps. -/
def NumberedFrom (first : Nat) (items : List Value) : Prop :=
  forestLines items = List.range' first (forestLines items).length

theorem forestLines_singleton (item : Value) : forestLines [item] = itemLines item := by
  rw [forestLines, forestLines, List.append_nil]

theorem numberedFrom_nil (first : Nat) : NumberedFrom first [] :=
  rfl

/-- Where the first item ends, the others go on. -/
theorem numberedFrom_cons_iff :
    NumberedFrom first (item :: items) ↔
      NumberedFrom first [item] ∧ NumberedFrom (first + (itemLines item).length) items := by
  rw [NumberedFrom, NumberedFrom, NumberedFrom, forestLines_singleton, forestLines,
    List.length_append, ← List.range'_append_1]
  constructor
  · exact fun happend => List.append_inj happend (List.length_range').symm
  · rintro ⟨hitem, hitems⟩
    rw [← hitem, ← hitems]

/-- An item is on the first line, and its block on those after it. -/
theorem numberedFrom_item_iff :
    NumberedFrom first [.node "item" line (.text text :: block)] ↔
      line = first ∧ NumberedFrom (first + 1) block := by
  have hlines : itemLines (.node "item" line (.text text :: block)) =
      line :: forestLines block := by
    simp [itemLines, forestLines]
  rw [NumberedFrom, forestLines_singleton, hlines, List.length_cons, List.range'_succ,
    List.cons.injEq, NumberedFrom]

/-- The colon after a heading that has a block. -/
def mark (block : List Value) : List Char :=
  if block.isEmpty then [] else [':']

/-- What stands after the heading of an item: the end of its line, and its block. -/
def tailText (depth : Nat) (block : List Value) : List Char :=
  mark block ++ ('\n' :: (renderAll (depth + 1) block).toList)

/-- The spaces of an indentation. -/
def spaces (depth : Nat) : List Char :=
  List.replicate depth ' '

/-- The text of an item: its line, and below it its block. -/
theorem toList_renderAt (depth line : Nat) (text : String) (block : List Value) :
    (renderAt depth (.node "item" line (.text text :: block))).toList =
      spaces depth ++ (text.toList ++ tailText depth block) := by
  have htext : (Value.text text).spelling.toList = text.toList :=
    Value.toList_spelling_text text
  cases block with
  | nil => simp [renderAt, renderTail, headLine, tailText, spaces, mark, htext]
  | cons first rest => simp [renderAt, renderTail, headLine, tailText, spaces, mark, htext]

theorem toList_renderAll_cons (depth : Nat) (item : Value) (items : List Value) :
    (renderAll depth (item :: items)).toList =
      (renderAt depth item).toList ++ (renderAll depth items).toList := by
  rw [renderAll, String.toList_append]

theorem count_spaces (depth : Nat) : (spaces depth).count '\n' = 0 :=
  List.count_eq_zero.mpr fun hmem => absurd (List.eq_of_mem_replicate hmem) (by decide)

/-- Items take one newline each if they do so one by one. -/
theorem count_renderAll_of (hitems : ∀ item ∈ items,
      (renderAt depth item).toList.count '\n' = (itemLines item).length) :
    (renderAll depth items).toList.count '\n' = (forestLines items).length := by
  induction items with
  | nil => rfl
  | cons item rest ih =>
      have hitem := hitems item List.mem_cons_self
      have hrest := ih fun other hother => hitems other (List.mem_cons_of_mem _ hother)
      rw [toList_renderAll_cons, List.count_append, hitem, hrest, forestLines,
        List.length_append]

/-- Every item takes one newline. -/
theorem count_renderAt (hitem : Item item) (depth : Nat) :
    (renderAt depth item).toList.count '\n' = (itemLines item).length := by
  induction hitem generalizing depth with
  | @mk line text block heading all ih =>
      have hblock := count_renderAll_of fun item hitem => ih item hitem (depth + 1)
      have hheading : text.toList.count '\n' = 0 :=
        List.count_eq_zero.mpr fun hmem => (heading.inner _ hmem).2 rfl
      have hmark : (mark block).count '\n' = 0 := by
        cases block <;> rfl
      rw [toList_renderAt, tailText, List.count_append, List.count_append, List.count_append,
        count_spaces, hheading, hmark, List.count_cons_self, hblock]
      simp [itemLines, forestLines]

/-- Whether a run ends in a newline that does not come right after another one. -/
def EndsInLine (run : List Char) : Prop :=
  ∃ front c, run = front ++ [c, '\n'] ∧ c ≠ '\n'

theorem EndsInLine.append {run : List Char} (hrun : EndsInLine run) (front : List Char) :
    EndsInLine (front ++ run) := by
  obtain ⟨inner, c, rfl, hc⟩ := hrun
  exact ⟨front ++ inner, c, (List.append_assoc _ _ _).symm, hc⟩

theorem endsInLine_renderAll_of (hsome : items ≠ [])
    (hitems : ∀ item ∈ items, EndsInLine (renderAt depth item).toList) :
    EndsInLine (renderAll depth items).toList := by
  induction items with
  | nil => exact absurd rfl hsome
  | cons item rest ih =>
      obtain ⟨hitem, hrest⟩ := List.forall_mem_cons.mp hitems
      rw [toList_renderAll_cons]
      cases rest with
      | nil =>
          have hnone : (renderAll depth []).toList = [] := rfl
          rwa [hnone, List.append_nil]
      | cons second others => exact (ih (List.cons_ne_nil _ _) hrest).append _

/-- No line that is rendered is empty, and the last one ends. -/
theorem endsInLine_renderAt (hitem : Item item) (depth : Nat) :
    EndsInLine (renderAt depth item).toList := by
  induction hitem generalizing depth with
  | @mk line text block heading all ih =>
      rw [toList_renderAt, tailText]
      cases block with
      | nil =>
          obtain ⟨front, c, htext⟩ : ∃ front c, text.toList = front ++ [c] :=
            ⟨_, _, (List.dropLast_concat_getLast heading.nonempty).symm⟩
          have hc := heading.inner c (by simp [htext])
          refine ⟨spaces depth ++ front, c, ?_, hc.2⟩
          rw [htext]
          simp [mark, renderAll]
      | cons first rest =>
          have hblock := endsInLine_renderAll_of (List.cons_ne_nil first rest)
            fun item hitem => ih item hitem (depth + 1)
          exact ((hblock.append [':', '\n']).append text.toList).append (spaces depth)

theorem endsInLine_renderAll (hsome : items ≠ []) (hitems : ∀ item ∈ items, Item item)
    (depth : Nat) : EndsInLine (renderAll depth items).toList :=
  endsInLine_renderAll_of hsome fun item hitem => endsInLine_renderAt (hitems item hitem) depth

end ScopedGrammar.Outline
