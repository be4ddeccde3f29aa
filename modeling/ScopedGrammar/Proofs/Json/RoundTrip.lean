/-
# Documents are read as they are written

The JSON text of a value is parsed as the value again, up to what such a text cannot tell: an
end mark is written as null, a token as its text and a node as an object. This holds of every
style that lays a document out with nothing but blanks. Floating-point numbers are left out,
and a node's line has to fit a signed word, since greater numbers are read as floating-point
ones.
-/

import Mathlib.Tactic.SplitIfs
import ScopedGrammar.Proofs.Decimal.Integers
import ScopedGrammar.Proofs.Json.Documents

namespace ScopedGrammar

namespace Value

mutual

/-- What a JSON text tells of a value. -/
def plain : Value → Value
  | .endMark => .empty
  | .token piece => .text piece.text
  | .list members => .list (plainList members)
  | .map entries => .map (plainEntries entries)
  | .node kind line children =>
      .map [("kind", .text kind), ("line", .int (Int64.ofNat line)),
        ("children", .list (plainList children))]
  | other => other

/-- What JSON texts tell of the members of a list. -/
def plainList : List Value → List Value
  | [] => []
  | first :: rest => plain first :: plainList rest

/-- What JSON texts tell of the entries of a map. -/
def plainEntries : List (String × Value) → List (String × Value)
  | [] => []
  | first :: rest => plainEntry first :: plainEntries rest

/-- What a JSON text tells of the value of one entry. -/
def plainEntry : String × Value → String × Value
  | (key, content) => (key, plain content)

end

theorem plainList_eq_map (members : List Value) : plainList members = members.map plain := by
  induction members with
  | nil => rfl
  | cons first rest ih => rw [plainList, ih, List.map_cons]

theorem plainEntries_eq_map (entries : List (String × Value)) :
    plainEntries entries = entries.map fun entry => (entry.1, entry.2.plain) := by
  induction entries with
  | nil => rfl
  | cons first rest ih => rw [plainEntries, ih, List.map_cons, plainEntry]

/-- Values without floating-point numbers, with lines that fit a signed word. -/
inductive Exact : Value → Prop
  | empty : Exact .empty
  | endMark : Exact .endMark
  | bool (truth : Bool) : Exact (.bool truth)
  | int (number : Int64) : Exact (.int number)
  | text (content : String) : Exact (.text content)
  | token (piece : Token) : Exact (.token piece)
  | list {members : List Value} (all : ∀ member ∈ members, Exact member) :
      Exact (.list members)
  | map {entries : List (String × Value)} (all : ∀ entry ∈ entries, Exact entry.2) :
      Exact (.map entries)
  | node {kind : String} {line : Nat} {children : List Value} (fits : line < 2 ^ 63)
      (all : ∀ child ∈ children, Exact child) : Exact (.node kind line children)

end Value

namespace Json

variable {run before after : List Char} {value : Value} {style : Style}

theorem digits_toDigits (n : Nat) : Digits (Nat.toDigits 10 n) :=
  ⟨Nat.toDigits_ne_nil, fun _ hc => Decimal.isDigit_of_mem_toDigits hc⟩

theorem numeral_toString (n : Int) : Numeral (toString n).toList := by
  have hdigits (sign : List Char) (m : Nat) (hsign : sign = [] ∨ sign = ['-']) :
      Numeral (sign ++ (Nat.toDigits 10 m ++ ([] ++ []))) :=
    .mk hsign (digits_toDigits m) .none .none
  rw [Decimal.toList_toString]
  split
  · simpa using hdigits [] n.toNat (.inl rfl)
  · simpa using hdigits ['-'] (-n).toNat (.inr rfl)

/-- An integer has neither a point nor an exponent. -/
theorem not_fractional_toString (n : Int) :
    ((toString n).toList.any fun c => c == '.' || c == 'e' || c == 'E') = false := by
  have hother {c : Char} (hc : Decimal.isDigit c = true) :
      (c == '.' || c == 'e' || c == 'E') = false := by
    rw [Bool.or_eq_false_iff, Bool.or_eq_false_iff]
    refine ⟨⟨?_, ?_⟩, ?_⟩ <;> rw [beq_eq_false_iff_ne] <;> rintro rfl <;>
      exact absurd hc (by decide)
  rw [List.any_eq_false, Decimal.toList_toString]
  intro c hc
  rw [Bool.not_eq_true]
  split at hc
  · exact hother (Decimal.isDigit_of_mem_toDigits hc)
  · rcases List.mem_cons.mp hc with rfl | hdigit
    · decide
    · exact hother (Decimal.isDigit_of_mem_toDigits hdigit)

theorem produces_integer {n : Int} (hleast : Decimal.leastWord ≤ n)
    (hgreatest : n ≤ Decimal.greatestWord) :
    Produces (.value (.int (Int64.ofInt n))) (toString n).toList := by
  have hvalue : numberValue (toString n).toList = .int (Int64.ofInt n) := by
    simp only [numberValue, not_fractional_toString, Bool.false_eq_true, if_false,
      Decimal.readWord?_toString hleast hgreatest]
  exact hvalue ▸ .number (numeral_toString n)

theorem produces_showInt (number : Int64) :
    Produces (.value (.int number)) (Value.showInt number).toList := by
  have hproduces := produces_integer (Int64.le_toInt number)
    (Int.le_of_lt_add_one (Int64.toInt_lt number))
  rwa [Int64.ofInt_toInt] at hproduces

theorem produces_line {line : Nat} (hline : line < 2 ^ 63) :
    Produces (.value (.int (Int64.ofNat line))) (toString line).toList := by
  have hproduces : Produces (.value (.int (Int64.ofInt line))) (toString (line : Int)).toList := by
    apply produces_integer
    · rw [Decimal.leastWord]
      omega
    · rw [Decimal.greatestWord]
      omega
  rwa [Int64.ofInt_eq_ofNat] at hproduces

/-- The escape of a character denotes the character. -/
theorem piece_escape (c : Char) : Piece (escape c) c := by
  unfold escape
  split_ifs with hquote hbackslash hbackspace hformFeed hnewline hreturn htab hcontrol
  · subst hquote
    exact .letter .quote
  · subst hbackslash
    exact .letter .backslash
  · subst hbackspace
    exact .letter .backspace
  · subst hformFeed
    exact .letter .formFeed
  · subst hnewline
    exact .letter .newline
  · subst hreturn
    exact .letter .carriageReturn
  · subst htab
    exact .letter .tab
  · have hdigit {digit : Nat} (hdigit : digit < 16) : HexDigit (Nat.digitChar digit) digit :=
      ⟨hdigit, .inl rfl⟩
    have hcode : codeChar (((0 * 16 + 0) * 16 + c.toNat / 16) * 16 + c.toNat % 16) = c := by
      rw [codeChar, if_neg (by omega)]
      rw [show ((0 * 16 + 0) * 16 + c.toNat / 16) * 16 + c.toNat % 16 = c.toNat by omega]
      exact Char.ofNat_toNat c
    have hpiece := Piece.code (hdigit (Nat.zero_lt_succ 15)) (hdigit (Nat.zero_lt_succ 15))
      (hdigit (by omega : c.toNat / 16 < 16)) (hdigit (by omega : c.toNat % 16 < 16))
    rw [hcode] at hpiece
    exact hpiece
  · exact .plain ⟨hquote, hbackslash, hnewline⟩

theorem body_escape (content : List Char) : Body (content.flatMap escape) content := by
  induction content with
  | nil => exact .nil
  | cons c rest ih =>
      rw [List.flatMap_cons]
      exact .cons (piece_escape c) ih

theorem toList_stringText (content : String) :
    (stringText content).toList = '"' :: (content.toList.flatMap escape ++ ['"']) := by
  rw [stringText, String.toList_ofList]
  rfl

theorem produces_stringText (content : String) :
    Produces (.value (.text content)) (stringText content).toList := by
  have hproduces := Produces.string (body_escape content.toList)
  rwa [String.ofList_toList, ← toList_stringText] at hproduces

/-- A style that lays documents out with nothing but blanks. -/
structure Style.Plain (style : Style) : Prop where
  lineBreak (depth : Nat) : Blank (style.lineBreak depth).toList
  colon : ∃ between gap, style.colon.toList = between ++ (':' :: gap) ∧ Blank between ∧ Blank gap

theorem blank_nil : Blank [] :=
  List.forall_mem_nil _

theorem Style.plain_compact : Style.compact.Plain where
  lineBreak _ := blank_nil
  colon := ⟨[], [], rfl, blank_nil, blank_nil⟩

theorem Style.plain_indented : Style.indented.Plain where
  lineBreak depth := by
    intro c hc
    rw [Style.indented, String.toList_ofList] at hc
    rcases List.mem_cons.mp hc with rfl | hspace
    · exact .inr (.inr (.inr rfl))
    · exact .inl (List.eq_of_mem_replicate hspace)
  colon := by
    refine ⟨[], [' '], rfl, blank_nil, fun c hc => ?_⟩
    exact .inl (List.mem_singleton.mp hc)

/-- A text of an item, with any blanks around it. -/
def Fits (Item : Value → List Char → Prop) (value : Value) (text : String) : Prop :=
  ∀ before after, Blank before → Blank after → Item value (before ++ (text.toList ++ after))

section Layouts

variable {α : Type} {Item : Value → List Char → Prop} {content : α → Value}
  {written : α → String} {members : List α} {lineBreak : String} {close : List Char}

/-- Texts of items, with line breaks and commas between them, are separated items. -/
theorem separated_intercalate (hbreak : Blank lineBreak.toList) (hclose : Blank close)
    (hsome : members ≠ [])
    (hfits : ∀ member ∈ members, Fits Item (content member) (written member)) :
    Separated Item (members.map content) (lineBreak.toList ++
      ((String.intercalate ("," ++ lineBreak) (members.map written)).toList ++ close)) := by
  induction members with
  | nil => exact absurd rfl hsome
  | cons first rest ih =>
      have hfirst := hfits first List.mem_cons_self
      cases rest with
      | nil =>
          rw [List.map_singleton, List.map_singleton, String.intercalate_singleton]
          exact .one (hfirst _ _ hbreak hclose)
      | cons second others =>
          have hrest := ih (List.cons_ne_nil _ _) fun member hmember =>
            hfits member (List.mem_cons_of_mem _ hmember)
          have hitem := hfirst _ _ hbreak blank_nil
          have hmore := Separated.more hitem hrest
          simp only [List.map_cons, String.intercalate_cons_cons] at hmore ⊢
          simpa using hmore

theorem toList_container_nil (style : Style) (first last : String) (depth : Nat) :
    (style.container first last depth []).toList = first.toList ++ last.toList :=
  String.toList_append

theorem toList_container (style : Style) (first last : String) (depth : Nat)
    (hsome : members ≠ []) :
    (style.container first last depth (members.map written)).toList =
      first.toList ++ ((style.lineBreak (depth + 1)).toList ++
        ((String.intercalate ("," ++ style.lineBreak (depth + 1)) (members.map written)).toList ++
          (style.lineBreak depth).toList) ++ last.toList) := by
  have hlaid : (members.map written).isEmpty = false := by
    simp [hsome]
  rw [Style.container, hlaid]
  simp

theorem produces_list (hplain : style.Plain) (depth : Nat)
    (hfits : ∀ member ∈ members, Fits IsElement (content member) (written member)) :
    Produces (.value (.list (members.map content)))
      (style.container "[" "]" depth (members.map written)).toList := by
  cases members with
  | nil =>
      rw [List.map_nil, List.map_nil, toList_container_nil]
      exact .emptyArray blank_nil
  | cons first rest =>
      rw [toList_container style _ _ _ (List.cons_ne_nil _ _)]
      exact .array blank_nil (produces_elements (separated_intercalate (hplain.lineBreak _)
        (hplain.lineBreak _) (List.cons_ne_nil _ _) hfits))

theorem fits_element {text : String} (hvalue : Produces (.value value) text.toList) :
    Fits IsElement value text :=
  fun _ _ hbefore hafter => .element hbefore hvalue hafter

theorem fits_member {text : String} (hplain : style.Plain) (key : String)
    (hvalue : Produces (.value value) text.toList) :
    Fits IsMember (.list [.text key, value]) (stringText key ++ style.colon ++ text) := by
  intro before after hbefore hafter
  obtain ⟨between, gap, hcolon, hbetween, hgap⟩ := hplain.colon
  have hmember := Produces.member hbefore (body_escape key.toList) hbetween
    (fits_element hvalue gap after hgap hafter)
  rw [String.ofList_toList] at hmember
  refine ⟨key, value, rfl, ?_⟩
  simpa [toList_stringText, hcolon] using hmember

/-- An object is written with the key of each member in front of its text. -/
theorem produces_object (hplain : style.Plain) (depth : Nat)
    (entries : List (String × Value × String))
    (hvalues : ∀ entry ∈ entries, Produces (.value entry.2.1) entry.2.2.toList) :
    Produces (.value (.map (entries.map fun entry => (entry.1, entry.2.1))))
      (style.object depth (entries.map fun entry => (entry.1, entry.2.2))).toList := by
  rw [Style.object, List.map_map]
  cases entries with
  | nil =>
      rw [List.map_nil, List.map_nil, toList_container_nil]
      exact .emptyObject blank_nil
  | cons first rest =>
      rw [toList_container style _ _ _ (List.cons_ne_nil _ _)]
      have hmembers := produces_members (separated_intercalate (hplain.lineBreak (depth + 1))
        (hplain.lineBreak depth) (List.cons_ne_nil first rest) fun entry hentry =>
          fits_member hplain entry.1 (hvalues entry hentry))
      rw [List.map_map] at hmembers
      exact .object blank_nil hmembers

end Layouts

theorem writeList_eq_map (style : Style) (depth : Nat) (members : List Value) :
    style.writeList depth members = members.map (style.write depth) := by
  induction members with
  | nil => rfl
  | cons first rest ih => rw [Style.writeList, ih, List.map_cons]

theorem writeEntries_eq_map (style : Style) (depth : Nat) (entries : List (String × Value)) :
    style.writeEntries depth entries =
      entries.map fun entry => (entry.1, style.write depth entry.2) := by
  induction entries with
  | nil => rfl
  | cons first rest ih => rw [Style.writeEntries, ih, List.map_cons, Style.writeEntry]

/-- The text of an exact value in a plain style is one that the grammar produces for what it
tells of the value. -/
theorem produces_write (hplain : style.Plain) (hexact : value.Exact) (depth : Nat) :
    Produces (.value value.plain) (style.write depth value).toList := by
  induction hexact generalizing depth with
  | empty => exact .null
  | endMark => exact .null
  | bool truth =>
      cases truth with
      | false => exact .false
      | true => exact .true
  | int number => exact produces_showInt number
  | text content => exact produces_stringText content
  | token piece => exact produces_stringText piece.text
  | list all ih =>
      rw [Value.plain, Value.plainList_eq_map, Style.write, writeList_eq_map]
      exact produces_list hplain depth fun member hmember =>
        fits_element (ih member hmember (depth + 1))
  | @map entries all ih =>
      rw [Value.plain, Value.plainEntries_eq_map, Style.write, writeEntries_eq_map]
      have hentries := produces_object hplain depth
        (entries.map fun entry => (entry.1, entry.2.plain, style.write (depth + 1) entry.2)) (by
        intro entry hentry
        obtain ⟨member, hmember, rfl⟩ := List.mem_map.mp hentry
        exact ih member hmember (depth + 1))
      rwa [List.map_map, List.map_map] at hentries
  | @node kind line children hline all ih =>
      rw [Value.plain, Value.plainList_eq_map, Style.write, writeList_eq_map]
      have hchildren := produces_list hplain (depth + 1) fun child hchild =>
        fits_element (ih child hchild (depth + 2))
      have hentries := produces_object hplain depth
        [("kind", .text kind, stringText kind),
          ("line", .int (Int64.ofNat line), toString line),
          ("children", .list (children.map Value.plain), style.container "[" "]" (depth + 1)
            (children.map (style.write (depth + 2))))] (by
        simp only [List.forall_mem_cons]
        exact ⟨produces_stringText kind, produces_line hline, hchildren, List.forall_mem_nil _⟩)
      exact hentries

/-- The JSON text of a value, compact or indented, is parsed as what it tells of the value. -/
theorem parse_jsonText (value : Value) (hexact : value.Exact) :
    parse (compact value) = .ok value.plain ∧ parse (indented value) = .ok value.plain := by
  have hparse {style : Style} (hplain : style.Plain) :
      parse (style.write 0 value) = .ok value.plain := by
    have hdocument := fits_element (produces_write hplain hexact 0) [] [] blank_nil blank_nil
    rw [List.nil_append, List.append_nil] at hdocument
    exact parse_of_produces hdocument
  exact ⟨hparse Style.plain_compact, hparse Style.plain_indented⟩

/-- A node with an end mark and a key that occurs twice. -/
theorem parse_jsonText_of_node :
    let value := Value.node "pair" 3
      [.endMark, .text "a\"\n", .map [("k", .int (-7)), ("k", .list [])]]
    let told := Value.map [("kind", .text "pair"), ("line", .int 3),
      ("children", .list
        [.empty, .text "a\"\n", .map [("k", .int (-7)), ("k", .list [])]])]
    parse (compact value) = .ok told ∧ parse (indented value) = .ok told := by
  refine parse_jsonText _ (.node (by decide) ?_)
  simp only [List.forall_mem_cons]
  refine ⟨.endMark, .text _, .map ?_, List.forall_mem_nil _⟩
  simp only [List.forall_mem_cons]
  exact ⟨.int _, .list (List.forall_mem_nil _), List.forall_mem_nil _⟩

end Json

end ScopedGrammar
