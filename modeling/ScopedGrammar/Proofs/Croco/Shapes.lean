/-
# The shapes of trees

The nodes that the tree of a program is made of, and the children of each. The functions that
make nodes take raw matches apart by position and have something to fall back on where a part
is not what they expect. From parts of the right shapes they make nodes of the right shapes,
so that nothing is ever fallen back on.
-/

import ScopedGrammar.Proofs.Croco.Levels
import ScopedGrammar.Proofs.Match.Contracts

namespace ScopedGrammar.Croco

variable {line : Nat} {kind : String} {value raw opening : Value} {values members : List Value}
  {tier : Tier}

/-- The values of numbers: words without a sign, floating-point numbers, and the digits of
what fits no word. -/
inductive IsNumber : Value → Prop
  | int {number : Int64} (hunsigned : 0 ≤ number.toInt) : IsNumber (.int number)
  | float (number : Float) : IsNumber (.float number)
  | digits {run : List Char} (hsome : run ≠ [])
      (hdigits : ∀ c ∈ run, Decimal.isDigit c = true) : IsNumber (.text (String.ofList run))

/-- The trees of expressions. -/
inductive IsExpression : Value → Prop
  | name {line : Nat} (word : Name) :
      IsExpression (.node "name" line [.text (String.ofList word.text)])
  | number {line : Nat} {value : Value} (hvalue : IsNumber value) :
      IsExpression (.node "number" line [value])
  | string {line : Nat} (content : String) : IsExpression (.node "string" line [.text content])
  | operation {line : Nat} {left right : Value} (operator : Operator) (hleft : IsExpression left)
      (hright : IsExpression right) :
      IsExpression (.node operator.tier.kind line [.text operator.spelling, left, right])
  | collection {line : Nat} {members : List Value} (bracket : Bracket)
      (hmembers : ∀ member ∈ members, IsExpression member) :
      IsExpression (.node bracket.kind line members)
  | access {line : Nat} {object : Value} (hobject : IsExpression object) (word : Name) :
      IsExpression (.node "getattr" line [object, .text (String.ofList word.text)])
  | call {line : Nat} {callee : Value} {arguments : List Value} (hcallee : IsExpression callee)
      (harguments : ∀ argument ∈ arguments, IsExpression argument) :
      IsExpression (.node "call" line (callee :: arguments))
  | index {line : Nat} {object position : Value} (hobject : IsExpression object)
      (hposition : IsExpression position) :
      IsExpression (.node "getitem" line [object, position])

/-- The trees of names. -/
def IsName (value : Value) : Prop :=
  ∃ line, ∃ word : Name, value = .node "name" line [.text (String.ofList word.text)]

/-- What a postfix operation makes before it is applied to its object. -/
def IsSuffix (value : Value) : Prop :=
  ∃ kind line children, value = .node kind line children ∧
    ∀ object, IsExpression object → IsExpression (.node kind line (object :: children))

/-- An operator of a tier and its right operand. -/
def IsStep (tier : Tier) (value : Value) : Prop :=
  ∃ operator ∈ tier.operators, ∃ right, IsExpression right ∧
    value = .list [.text operator.spelling, right]

theorem IsName.isExpression (hname : IsName value) : IsExpression value := by
  obtain ⟨line, word, rfl⟩ := hname
  exact .name word

theorem isExpression_collectionValue (bracket : Bracket) {trailing : Value}
    (hmembers : ∀ member ∈ members, IsExpression member) :
    IsExpression (collectionValue bracket.kind
      (.list [opening, .list [.list members, trailing]])) := by
  have hnode : IsExpression (nodeFrom bracket.kind
      (.list [opening, .list [.list members, trailing]]) members) :=
    .collection bracket hmembers
  unfold collectionValue
  dsimp only
  split
  next member _ hmember =>
    have hsingle : members = [member] := hmember
    exact hmembers _ (hsingle ▸ List.mem_cons_self)
  next => exact hnode

/-- Operators of a tier are folded to expressions. -/
theorem isExpression_foldOperators (hfirst : IsExpression value)
    (hsteps : ∀ step ∈ values, IsStep tier step) :
    IsExpression (foldOperators tier.kind (.list [value, .list values])) := by
  show IsExpression (values.foldl (applyOperator tier.kind) value)
  induction values generalizing value with
  | nil => exact hfirst
  | cons step rest ih =>
      rw [List.forall_mem_cons] at hsteps
      obtain ⟨⟨operator, hoperator, right, hright, rfl⟩, hrest⟩ := hsteps
      apply ih _ hrest
      rw [← Tier.tier_of_mem hoperator]
      exact .operation operator hfirst hright

/-- Postfix operations are folded to expressions. -/
theorem isExpression_foldPostfix (hfirst : IsExpression value)
    (hsuffixes : ∀ suffix ∈ values, IsSuffix suffix) :
    IsExpression (foldPostfix (.list [value, .list values])) := by
  show IsExpression (values.foldl applyPostfix value)
  induction values generalizing value with
  | nil => exact hfirst
  | cons suffix rest ih =>
      rw [List.forall_mem_cons] at hsuffixes
      obtain ⟨⟨kind, line, children, rfl, happlied⟩, hrest⟩ := hsuffixes
      exact ih (happlied value hfirst) hrest

theorem isSuffix_attributeValue {point : Value} (hname : IsName value) :
    IsSuffix (attributeValue (.list [point, value])) := by
  obtain ⟨line, word, rfl⟩ := hname
  exact ⟨"getattr", _, [.text (String.ofList word.text)], rfl, fun _ hobject =>
    .access hobject word⟩

theorem isSuffix_callValue (harguments : ∀ argument ∈ values, IsExpression argument) :
    IsSuffix (callValue (.list [opening, .list values])) :=
  ⟨"call", _, values, rfl, fun _ hcallee => .call hcallee harguments⟩

theorem isSuffix_indexValue (hposition : IsExpression value) :
    IsSuffix (indexValue (.list [opening, value])) :=
  ⟨"getitem", _, [value], rfl, fun _ hobject => .index hobject hposition⟩

mutual

/-- The trees of statements. -/
inductive IsStatement : Value → Prop
  | expression {value : Value} (hvalue : IsExpression value) : IsStatement value
  | keyword {line : Nat} {word : String} (hword : word ∈ ["break", "continue", "pass"]) :
      IsStatement (.node word line [])
  | assignment {line : Nat} {target value : Value} {operator : String}
      (htarget : IsExpression target) (hoperator : operator = "" ∨ operator ∈ inPlaceOperators)
      (hvalue : IsExpression value) :
      IsStatement (.node "assign" line [target, .text operator, value])
  | condition {kind : String} {line : Nat} {condition body : Value} {branch : Option Value}
      (hkind : kind ∈ ["if", "while"]) (hcondition : IsExpression condition)
      (hbody : IsBlock body) (hbranch : ∀ later ∈ branch, IsBranch later) :
      IsStatement (.node kind line ([condition, body] ++ branch.toList))
  | loop {line : Nat} {target iterable body : Value} {branch : Option Value}
      (htarget : IsExpression target) (hiterable : IsExpression iterable)
      (hbody : IsBlock body) (hbranch : ∀ later ∈ branch, IsBranch later) :
      IsStatement (.node "for" line ([target, iterable, body] ++ branch.toList))

/-- The trees of blocks. -/
inductive IsBlock : Value → Prop
  | block {line : Nat} {statements : List Value}
      (hstatements : ∀ statement ∈ statements, IsStatement statement) :
      IsBlock (.node "block" line statements)

/-- The trees of branches: a block, or a further condition with its branch. -/
inductive IsBranch : Value → Prop
  | last {body : Value} (hbody : IsBlock body) : IsBranch body
  | condition {line : Nat} {condition body : Value} {branch : Option Value}
      (hcondition : IsExpression condition) (hbody : IsBlock body)
      (hbranch : ∀ later ∈ branch, IsBranch later) :
      IsBranch (.node "if" line ([condition, body] ++ branch.toList))

end

/-- The headers of statements, still without their bodies. -/
inductive IsHeader : Value → Prop
  | condition {kind : String} {line : Nat} {condition : Value} (hkind : kind ∈ ["if", "while"])
      (hcondition : IsExpression condition) : IsHeader (.node kind line [condition])
  | loop {line : Nat} {target iterable : Value} (htarget : IsExpression target)
      (hiterable : IsExpression iterable) : IsHeader (.node "for" line [target, iterable])

/-- The headers of further conditions. -/
def IsFurther (value : Value) : Prop :=
  ∃ line condition, IsExpression condition ∧ value = .node "if" line [condition]

/-- The headers of last branches. -/
def IsElse (value : Value) : Prop :=
  ∃ line, value = .node "else" line []

/-- A header with its body as a further child. -/
def IsClause (isHeader : Value → Prop) (value : Value) : Prop :=
  ∃ kind line children body, isHeader (.node kind line children) ∧ IsBlock body ∧
    value = .node kind line (children ++ [body])

/-- What a line or a statement list adds to its block. -/
def IsPart (value : Value) : Prop :=
  ∀ statement ∈ statementsOf value, IsStatement statement

theorem isPart_empty : IsPart .empty :=
  fun _ hnone => nomatch hnone

theorem isPart_list (hvalues : ∀ statement ∈ values, IsStatement statement) :
    IsPart (.list values) :=
  hvalues

/-- Statements are nodes, so a statement adds itself to its block. -/
theorem IsStatement.isPart (hstatement : IsStatement value) : IsPart value := by
  have hnode : ∃ kind line children, value = .node kind line children := by
    cases hstatement with
    | expression hvalue => cases hvalue <;> exact ⟨_, _, _, rfl⟩
    | _ => exact ⟨_, _, _, rfl⟩
  obtain ⟨kind, line, children, rfl⟩ := hnode
  intro statement hmem
  have hself : statement ∈ [.node kind line children] := hmem
  exact List.mem_singleton.mp hself ▸ hstatement

theorem isBlock_blockValue (hparts : ∀ part ∈ values, IsPart part) :
    IsBlock (blockValue (.list values)) := by
  refine .block fun statement hstatement => ?_
  obtain ⟨part, hpart, hmem⟩ := List.mem_flatMap.mp hstatement
  exact hparts part hpart statement hmem

theorem isStatement_assignmentValue {target sign equal value : Value}
    (htarget : IsExpression target) (hsign : AtMostOne (·.spelling ∈ inPlaceOperators) sign)
    (hvalue : IsExpression value) (ahead : Value) :
    IsStatement (assignmentValue (.list [target, sign, equal, ahead, value])) := by
  refine .assignment htarget ?_ hvalue
  rcases hsign with rfl | ⟨operator, hoperator, rfl⟩
  · exact .inl rfl
  · right
    have hspelled : (Value.list [operator]).spelling = operator.spelling := by
      rw [← String.toList_inj, Value.toList_spelling_list]
      simp
    show (Value.list [operator]).spelling ∈ inPlaceOperators
    rwa [hspelled]

/-- A clause of a header is the header with its body. -/
theorem isClause_clauseValue {isHeader : Value → Prop} {body : Value} (hheader : isHeader value)
    (hnode : ∃ kind line children, value = .node kind line children) (hbody : IsBlock body) :
    IsClause isHeader (clauseValue (.list [value, body])) := by
  obtain ⟨kind, line, children, rfl⟩ := hnode
  exact ⟨kind, line, children, body, hheader, hbody, rfl⟩

/-- The branch after the further conditions is a block, if there is one. -/
theorem isBranch_elseBranch {clauses : Value} (hclauses : AtMostOne (IsClause IsElse) clauses) :
    ∀ branch ∈ elseBranch clauses, IsBranch branch := by
  rcases hclauses with rfl | ⟨clause, ⟨kind, line, children, body, hheader, hbody, rfl⟩, rfl⟩
  · exact fun _ hnone => nomatch hnone
  · obtain ⟨_, hheader⟩ := hheader
    cases hheader
    rintro _ ⟨⟩
    exact .last hbody

/-- Each further condition takes the branches after it. -/
theorem isBranch_chainBranch {later : Option Value}
    (hclauses : ∀ clause ∈ values, IsClause IsFurther clause)
    (hlater : ∀ branch ∈ later, IsBranch branch) :
    ∀ branch ∈ values.foldr chainBranch later, IsBranch branch := by
  induction values with
  | nil => exact hlater
  | cons clause rest ih =>
      rw [List.forall_mem_cons] at hclauses
      obtain ⟨⟨kind, line, children, body, ⟨_, condition, hcondition, hheader⟩, hbody, rfl⟩,
        hrest⟩ := hclauses
      cases hheader
      rintro _ ⟨⟩
      exact .condition hcondition hbody (ih hrest)

/-- A clause with its branches is a statement. -/
theorem isStatement_flowValue {last : Value} (hclause : IsClause IsHeader value)
    (hfurther : ∀ clause ∈ values, IsClause IsFurther clause)
    (hlast : AtMostOne (IsClause IsElse) last) :
    IsStatement (flowValue (.list [value, .list values, last])) := by
  have hbranches := isBranch_chainBranch hfurther (isBranch_elseBranch hlast)
  obtain ⟨kind, line, children, body, hheader, hbody, rfl⟩ := hclause
  cases hheader with
  | condition hkind hcondition => exact .condition hkind hcondition hbody hbranches
  | loop htarget hiterable => exact .loop htarget hiterable hbody hbranches

/-- The kinds of the nodes of a tree. -/
def documentedKinds : List String :=
  ["block", "number", "string", "name", "binop", "compare", "tuple", "list", "set", "getattr",
    "call", "getitem", "assign", "if", "while", "for", "break", "continue", "pass"]

mutual

/-- Whether there is nothing in a tree but nodes of documented kinds, numbers and texts. -/
def isTidy : Value → Bool
  | .int _ => true
  | .float _ => true
  | .text _ => true
  | .node kind _ children => documentedKinds.contains kind && areTidy children
  | _ => false

/-- Whether there is nothing else in any of some trees. -/
def areTidy : List Value → Bool
  | [] => true
  | first :: rest => isTidy first && areTidy rest

end

theorem areTidy_iff : areTidy values = true ↔ ∀ value ∈ values, isTidy value = true := by
  induction values with
  | nil => simp [areTidy]
  | cons first rest ih => simp [areTidy, ih]

theorem IsNumber.isTidy (hnumber : IsNumber value) : isTidy value = true := by
  cases hnumber <;> rfl

theorem isTidy_node (hkind : kind ∈ documentedKinds)
    (hchildren : ∀ child ∈ values, isTidy child = true) :
    isTidy (.node kind line values) = true := by
  rw [isTidy, Bool.and_eq_true, List.contains_iff_mem]
  exact ⟨hkind, areTidy_iff.mpr hchildren⟩

theorem IsExpression.isTidy (hexpression : IsExpression value) : isTidy value = true := by
  induction hexpression with
  | name word => exact isTidy_node (by decide) (by simp [Croco.isTidy])
  | number hvalue => exact isTidy_node (by decide) (by simpa using hvalue.isTidy)
  | string content => exact isTidy_node (by decide) (by simp [Croco.isTidy])
  | operation operator _ _ ihleft ihright =>
      refine isTidy_node ?_ (by simp [Croco.isTidy, ihleft, ihright])
      cases operator <;> decide
  | collection bracket _ ih => exact isTidy_node (by cases bracket <;> decide) ih
  | access _ word ih => exact isTidy_node (by decide) (by simp [Croco.isTidy, ih])
  | call _ _ ihcallee iharguments =>
      exact isTidy_node (by decide) (List.forall_mem_cons.mpr ⟨ihcallee, iharguments⟩)
  | index _ _ ihobject ihposition => exact isTidy_node (by decide) (by simp [ihobject, ihposition])

theorem isTidy_branched {children : List Value} {branch : Option Value}
    (hkind : kind ∈ documentedKinds) (hchildren : ∀ child ∈ children, isTidy child = true)
    (hbranch : ∀ later ∈ branch, isTidy later = true) :
    isTidy (.node kind line (children ++ branch.toList)) = true :=
  isTidy_node hkind (List.forall_mem_append.mpr ⟨hchildren, by simpa using hbranch⟩)

mutual

theorem IsStatement.isTidy : {value : Value} → IsStatement value → isTidy value = true
  | _, .expression hvalue => hvalue.isTidy
  | _, .keyword hword => by
      have hkinds : ∀ word ∈ ["break", "continue", "pass"], word ∈ documentedKinds := by decide
      exact isTidy_node (hkinds _ hword) (List.forall_mem_nil _)
  | _, .assignment htarget _ hvalue =>
      isTidy_node (by decide) (by simp [Croco.isTidy, htarget.isTidy, hvalue.isTidy])
  | _, .condition hkind hcondition hbody hbranch => by
      have hkinds : ∀ kind ∈ ["if", "while"], kind ∈ documentedKinds := by decide
      exact isTidy_branched (hkinds _ hkind) (by simp [hcondition.isTidy, hbody.isTidy])
        fun later hlater => (hbranch later hlater).isTidy
  | _, .loop htarget hiterable hbody hbranch =>
      isTidy_branched (by decide) (by simp [htarget.isTidy, hiterable.isTidy, hbody.isTidy])
        fun later hlater => (hbranch later hlater).isTidy

theorem IsBlock.isTidy : {value : Value} → IsBlock value → isTidy value = true
  | _, .block hstatements => isTidy_node (by decide) fun statement hstatement =>
      (hstatements statement hstatement).isTidy

theorem IsBranch.isTidy : {value : Value} → IsBranch value → isTidy value = true
  | _, .last hbody => hbody.isTidy
  | _, .condition hcondition hbody hbranch =>
      isTidy_branched (by decide) (by simp [hcondition.isTidy, hbody.isTidy])
        fun later hlater => (hbranch later hlater).isTidy

end

end ScopedGrammar.Croco
