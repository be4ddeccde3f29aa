/-
# Trees up to where they stand

The same statements may stand at other places of a text. Their trees then differ in the lines of
their nodes, and what is matched on the way to them differs in the places of its tokens. Two
values are alike if nothing but these tells them apart. Values that are alike are spelled alike,
what factories make of them is alike again, and trees that are alike are written in one way.
-/

import ScopedGrammar.Languages.Croco.Tree
import Mathlib.Data.List.Forall2

namespace ScopedGrammar

namespace Value

mutual

/-- A value without the places of its tokens and the lines of its nodes. -/
def unplaced : Value → Value
  | .token piece => .text piece.text
  | .list members => .list (unplacedAll members)
  | .node kind _ children => .node kind 0 (unplacedAll children)
  | other => other

/-- Some values without the places of their tokens and the lines of their nodes. -/
def unplacedAll : List Value → List Value
  | [] => []
  | first :: rest => unplaced first :: unplacedAll rest

end

theorem unplacedAll_eq_map (members : List Value) :
    unplacedAll members = members.map unplaced := by
  induction members with
  | nil => rfl
  | cons first rest ih => rw [unplacedAll, ih, List.map_cons]

/-- Two values differ in nothing but the places of tokens and the lines of nodes. -/
def Alike (first second : Value) : Prop :=
  first.unplaced = second.unplaced

@[simp] theorem unplaced_token (piece : Token) : (token piece).unplaced = .text piece.text := by
  rw [unplaced]

@[simp] theorem unplaced_text (content : String) : (text content).unplaced = .text content := by
  rw [unplaced] <;> simp

@[simp] theorem unplaced_list (members : List Value) :
    (list members).unplaced = .list (members.map unplaced) := by
  rw [unplaced, unplacedAll_eq_map]

@[simp] theorem unplaced_node (kind : String) (line : Nat) (children : List Value) :
    (node kind line children).unplaced = .node kind 0 (children.map unplaced) := by
  rw [unplaced, unplacedAll_eq_map]

@[simp] theorem unplaced_empty : empty.unplaced = .empty := by
  rw [unplaced] <;> simp

mutual

/-- Neither places nor lines are part of how a value is spelled. -/
theorem leafTexts_unplaced : (value : Value) → value.unplaced.leafTexts = value.leafTexts
  | .token piece => by rw [unplaced_token, leafTexts, leafTexts]
  | .list members => by
      rw [unplaced_list, leafTexts, leafTexts, leafTextsOfList_unplaced members]
  | .node kind line children => by
      rw [unplaced_node, leafTexts, leafTexts, leafTextsOfList_unplaced children]
  | .empty | .endMark | .bool _ | .int _ | .float _ | .text _ | .map _ => rfl

theorem leafTextsOfList_unplaced :
    (members : List Value) → leafTextsOfList (members.map unplaced) = leafTextsOfList members
  | [] => rfl
  | first :: rest => by
      rw [List.map_cons, leafTextsOfList, leafTextsOfList, leafTexts_unplaced first,
        leafTextsOfList_unplaced rest]

end

mutual

/-- What has no places has none to lose. -/
theorem unplaced_unplaced : (value : Value) → value.unplaced.unplaced = value.unplaced
  | .token piece => by rw [unplaced_token, unplaced_text]
  | .list members => by rw [unplaced_list, unplaced_list, unplacedAll_unplaced members]
  | .node kind line children => by
      rw [unplaced_node, unplaced_node, unplacedAll_unplaced children]
  | .empty | .endMark | .bool _ | .int _ | .float _ | .text _ | .map _ => rfl

theorem unplacedAll_unplaced :
    (members : List Value) → (members.map unplaced).map unplaced = members.map unplaced
  | [] => rfl
  | first :: rest => by
      rw [List.map_cons, List.map_cons, unplaced_unplaced first, unplacedAll_unplaced rest]

end

theorem spelling_unplaced (value : Value) : value.unplaced.spelling = value.spelling := by
  rw [spelling, spelling, leafTexts_unplaced]

theorem items_unplaced (value : Value) : value.unplaced.items = value.items.map unplaced := by
  cases value <;> simp [unplaced, unplacedAll_eq_map, items]

theorem item_unplaced (index : Nat) (value : Value) :
    (value.item index).unplaced = value.unplaced.item index := by
  cases value with
  | list members =>
      rw [unplaced_list, item, item, List.getElem?_map]
      cases members[index]? <;> simp
  | _ => simp [unplaced, item]

theorem child?_unplaced (index : Nat) (value : Value) :
    value.unplaced.child? index = (value.child? index).map unplaced := by
  cases value with
  | node kind line children =>
      rw [unplaced_node, child?, child?, List.getElem?_map, Option.map_some]
      cases children[index]? <;> simp
  | _ => simp [unplaced, child?]

theorem forall₂_alike_iff {members others : List Value} :
    List.Forall₂ Alike members others ↔ members.map unplaced = others.map unplaced := by
  rw [← List.forall₂_eq_eq_eq, List.forall₂_map_left_iff, List.forall₂_map_right_iff]
  rfl

namespace Alike

variable {first second : Value}

theorem refl (value : Value) : value.Alike value :=
  rfl

theorem token {piece other : Token} (htext : piece.text = other.text) :
    (token piece).Alike (token other) := by
  rw [Alike, unplaced_token, unplaced_token, htext]

theorem list {members others : List Value} (hmembers : List.Forall₂ Alike members others) :
    (list members).Alike (list others) := by
  rw [Alike, unplaced_list, unplaced_list, forall₂_alike_iff.mp hmembers]

end Alike

end Value

namespace Croco

open Value

variable {first second : Value}

theorem unplaced_nodeFrom (kind : String) (raw : Value) (children : List Value) :
    (nodeFrom kind raw children).unplaced = .node kind 0 (children.map unplaced) := by
  rw [nodeFrom, unplaced_node]

theorem unplaced_final (values : List Value) :
    (final values).unplaced = final (values.map unplaced) := by
  rw [final, final, List.getLast?_map]
  cases values.getLast? <;> simp

theorem unplaced_beforeFinal (values : List Value) :
    (beforeFinal values).unplaced = beforeFinal (values.map unplaced) := by
  rw [beforeFinal, beforeFinal, unplaced_final, List.map_dropLast]

/-- A factory sees neither places nor lines if it makes the same of a value without them. -/
def Placeless (make : Value → Value) : Prop :=
  ∀ raw, (make raw).unplaced = (make raw.unplaced).unplaced

theorem Placeless.alike {make : Value → Value} (hmake : Placeless make)
    (halike : first.Alike second) : (make first).Alike (make second) := by
  rw [Alike, hmake first, halike, ← hmake second]

theorem placeless_floatValue : Placeless floatValue := by
  intro raw
  rw [floatValue, floatValue, unplaced_nodeFrom, unplaced_nodeFrom, spelling_unplaced]

theorem placeless_intValue : Placeless intValue := by
  intro raw
  rw [intValue, intValue, unplaced_nodeFrom, unplaced_nodeFrom, spelling_unplaced]

theorem placeless_nameValue : Placeless nameValue := by
  intro raw
  rw [nameValue, nameValue, unplaced_nodeFrom, unplaced_nodeFrom, spelling_unplaced]

theorem placeless_spelling : Placeless fun raw => .text raw.spelling := by
  intro raw
  rw [unplaced_text, unplaced_text, spelling_unplaced]

theorem placeless_attributeValue : Placeless attributeValue := by
  intro raw
  rw [attributeValue, attributeValue, unplaced_nodeFrom, unplaced_nodeFrom, ← item_unplaced,
    child?_unplaced]
  cases (raw.item 1).child? 0 <;> simp [unplaced_unplaced]

theorem placeless_callValue : Placeless callValue := by
  intro raw
  rw [callValue, callValue, unplaced_nodeFrom, unplaced_nodeFrom, ← item_unplaced,
    items_unplaced]
  simp [unplaced_unplaced]

theorem placeless_indexValue : Placeless indexValue := by
  intro raw
  rw [indexValue, indexValue, unplaced_nodeFrom, unplaced_nodeFrom, ← item_unplaced]
  simp [unplaced_unplaced]

theorem placeless_assignmentValue : Placeless assignmentValue := by
  intro raw
  rw [assignmentValue, assignmentValue, unplaced_nodeFrom, unplaced_nodeFrom, ← item_unplaced,
    ← item_unplaced, ← item_unplaced]
  simp [unplaced_unplaced, spelling_unplaced]

/-- The node of a word or of a header has the parts of its match for children. -/
theorem placeless_nodeFrom (kind : String) (indexes : List Nat) :
    Placeless fun raw => nodeFrom kind raw (indexes.map fun index => raw.item index) := by
  intro raw
  dsimp only
  rw [unplaced_nodeFrom, unplaced_nodeFrom]
  simp [← item_unplaced, unplaced_unplaced]

theorem alike_applyOperator {kind : String} {left other pair otherPair : Value}
    (hleft : left.Alike other) (hpair : pair.Alike otherPair) :
    (applyOperator kind left pair).Alike (applyOperator kind other otherPair) := by
  rw [Alike, applyOperator, applyOperator, unplaced_nodeFrom, unplaced_nodeFrom]
  simp only [List.map_cons, List.map_nil, unplaced_beforeFinal, unplaced_final,
    ← items_unplaced]
  rw [hleft, hpair]

theorem alike_applyPostfix {target other step otherStep : Value} (htarget : target.Alike other)
    (hstep : step.Alike otherStep) :
    (applyPostfix target step).Alike (applyPostfix other otherStep) := by
  have hmade (target step : Value) : (applyPostfix target step).unplaced =
      (applyPostfix target.unplaced step.unplaced).unplaced := by
    cases step <;> simp [applyPostfix, unplaced, unplacedAll_eq_map, unplaced_unplaced]
  rw [Alike, hmade, htarget, hstep, ← hmade]

theorem alike_foldl {make : Value → Value → Value}
    (hmake : ∀ {left other step otherStep : Value}, left.Alike other → step.Alike otherStep →
      (make left step).Alike (make other otherStep)) {left other : Value}
    {steps others : List Value} (hleft : left.Alike other)
    (hsteps : List.Forall₂ Alike steps others) :
    (steps.foldl make left).Alike (others.foldl make other) := by
  induction hsteps generalizing left other with
  | nil => exact hleft
  | cons hstep _ ih => exact ih (hmake hleft hstep)

theorem alike_foldOperators {kind : String} {left other : Value} {steps others : List Value}
    (hleft : left.Alike other) (hsteps : List.Forall₂ Alike steps others) :
    (foldOperators kind (.list [left, .list steps])).Alike
      (foldOperators kind (.list [other, .list others])) :=
  alike_foldl alike_applyOperator hleft hsteps

theorem alike_foldPostfix {target other : Value} {steps others : List Value}
    (htarget : target.Alike other) (hsteps : List.Forall₂ Alike steps others) :
    (foldPostfix (.list [target, .list steps])).Alike
      (foldPostfix (.list [other, .list others])) :=
  alike_foldl alike_applyPostfix htarget hsteps

/-- Of what comes after the last member, a collection only asks whether there is something. -/
theorem alike_collectionValue {kind : String} {opening other : Value}
    {members others rest more : List Value} (hmembers : List.Forall₂ Alike members others)
    (hrest : rest.length = more.length) :
    (collectionValue kind (.list [opening, .list [.list members, .list rest]])).Alike
      (collectionValue kind (.list [other, .list [.list others, .list more]])) := by
  have hlength := hmembers.length_eq
  have htrailing : (Value.list rest).isTruthy = (Value.list more).isTruthy := by
    cases rest <;> cases more <;> simp_all [isTruthy]
  have hnodes (raw otherRaw : Value) :
      (nodeFrom kind raw members).Alike (nodeFrom kind otherRaw others) := by
    rw [Alike, unplaced_nodeFrom, unplaced_nodeFrom, forall₂_alike_iff.mp hmembers]
  have hlast (opening : Value) (members rest : List Value) :
      final ((list [opening, .list [.list members, .list rest]]).item 1).items = .list rest := rfl
  have hitems (opening : Value) (members rest : List Value) :
      (beforeFinal ((list [opening, .list [.list members, .list rest]]).item 1).items).items =
        members := rfl
  simp only [collectionValue, hlast, hitems, htrailing]
  cases kind == "tuple" && !(Value.list more).isTruthy with
  | false => exact hnodes _ _
  | true =>
      cases hmembers with
      | nil => exact hnodes _ _
      | cons hmember hmore =>
          cases hmore with
          | nil => exact hmember
          | cons _ _ => exact hnodes _ _

theorem unplaced_statementsOf (part : Value) :
    (statementsOf part).map unplaced = (statementsOf part.unplaced) := by
  cases part <;> simp [statementsOf, unplaced, unplacedAll_eq_map]

/-- Parts that are alike hold statements that are. -/
theorem statements_eq_of_alike {parts others : List Value}
    (hparts : List.Forall₂ Alike parts others) :
    (parts.flatMap statementsOf).map unplaced = (others.flatMap statementsOf).map unplaced := by
  induction hparts with
  | nil => rfl
  | cons halike _ ih =>
      rw [List.flatMap_cons, List.flatMap_cons, List.map_append, List.map_append, ih,
        unplaced_statementsOf, unplaced_statementsOf, halike]

/-- A block is made of its statements, whatever the parts are that they stand in. -/
theorem alike_blockValue {parts others : List Value}
    (hparts : (parts.flatMap statementsOf).map unplaced =
      (others.flatMap statementsOf).map unplaced) :
    (blockValue (.list parts)).Alike (blockValue (.list others)) := by
  rw [Alike, blockValue, blockValue, unplaced_node, unplaced_node]
  exact congrArg (Value.node "block" 0) hparts

theorem alike_clauseValue {heading other body otherBody : Value} (hheading : heading.Alike other)
    (hbody : body.Alike otherBody) :
    (clauseValue (.list [heading, body])).Alike (clauseValue (.list [other, otherBody])) := by
  have hmade (heading body : Value) : (clauseValue (.list [heading, body])).unplaced =
      (clauseValue (.list [heading.unplaced, body.unplaced])).unplaced := by
    cases heading <;>
      simp [clauseValue, items, final, beforeFinal, unplaced, unplacedAll_eq_map,
        unplaced_unplaced]
  rw [Alike, hmade, hheading, hbody, ← hmade]

theorem unplaced_chainBranch (clause : Value) (later : Option Value) :
    (chainBranch clause later).map unplaced =
      (chainBranch clause.unplaced (later.map unplaced)).map unplaced := by
  cases clause <;> cases later <;>
    simp [chainBranch, unplaced, unplacedAll_eq_map, unplaced_unplaced]

theorem foldr_chainBranch {clauses others : List Value} {later otherLater : Option Value}
    (hclauses : List.Forall₂ Alike clauses others)
    (hlater : later.map unplaced = otherLater.map unplaced) :
    (clauses.foldr chainBranch later).map unplaced =
      (others.foldr chainBranch otherLater).map unplaced := by
  induction hclauses with
  | nil => exact hlater
  | cons hclause _ ih =>
      rw [List.foldr_cons, List.foldr_cons, unplaced_chainBranch, hclause, ih,
        ← unplaced_chainBranch]

theorem elseBranch_eq {clauses others : List Value} (hclauses : List.Forall₂ Alike clauses others) :
    (elseBranch (.list clauses)).map unplaced = (elseBranch (.list others)).map unplaced := by
  have hmade (clauses : List Value) : (elseBranch (.list clauses)).map unplaced =
      ((clauses.map unplaced).getLast?.bind (child? 0)) := by
    rw [elseBranch, items, List.getLast?_map]
    cases clauses.getLast? with
    | none => rfl
    | some last => exact (child?_unplaced 0 last).symm
  rw [hmade, hmade, forall₂_alike_iff.mp hclauses]

theorem alike_flowValue {first other : Value} {clauses others lasts otherLasts : List Value}
    (hfirst : first.Alike other) (hclauses : List.Forall₂ Alike clauses others)
    (hlasts : List.Forall₂ Alike lasts otherLasts) :
    (flowValue (.list [first, .list clauses, .list lasts])).Alike
      (flowValue (.list [other, .list others, .list otherLasts])) := by
  have hbranches := foldr_chainBranch hclauses (elseBranch_eq hlasts)
  have hmade (children : Option Value) (first : Value) :
      (addChildren children.toList first).unplaced =
        (addChildren (children.map unplaced).toList first.unplaced).unplaced := by
    cases first <;> cases children <;>
      simp [addChildren, unplaced, unplacedAll_eq_map, unplaced_unplaced]
  show (addChildren (clauses.foldr chainBranch (elseBranch (.list lasts))).toList first).unplaced =
    (addChildren (others.foldr chainBranch (elseBranch (.list otherLasts))).toList other).unplaced
  rw [hmade, hfirst, hbranches, ← hmade]

mutual

theorem render_unplaced : (tree : Value) → render tree.unplaced = render tree
  | .node kind line children => by
      rw [unplaced_node, render, render, renderChildren_unplaced children]
  | .list members => by rw [unplaced_list, render, render, renderMembers_unplaced members]
  | .token piece => by rw [unplaced_token, render, render]
  | .empty | .endMark | .bool _ | .int _ | .float _ | .text _ | .map _ => rfl

theorem renderChildren_unplaced : (children : List Value) →
    renderChildren (children.map unplaced) = renderChildren children
  | [] => rfl
  | first :: rest => by
      rw [List.map_cons, renderChildren, renderChildren, render_unplaced first,
        renderChildren_unplaced rest]

theorem renderMembers_unplaced : (members : List Value) →
    renderMembers (members.map unplaced) = renderMembers members
  | [] => rfl
  | first :: rest => by
      rw [List.map_cons, renderMembers, renderMembers, render_unplaced first,
        renderMembers_unplaced rest]

end

/-- Neither places nor lines are written. -/
theorem render_eq_of_alike (halike : first.Alike second) : render first = render second := by
  rw [← render_unplaced first, halike, render_unplaced]

end Croco

end ScopedGrammar
