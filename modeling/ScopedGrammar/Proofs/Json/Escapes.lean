/-
# Strings are read as they are escaped

A character of a string may be written as itself, with a letter or four hexadecimal digits
after a backslash, and beyond the first plane as two escaped units of a surrogate pair. In
whatever way each character is written, and wherever the string stands in a document, as a
value or as a key, it is read character by character. Units are read one by one, so a pair
denotes two replacement characters, and a string is read as itself exactly if no character of
it is written as a pair.
-/

import ScopedGrammar.Proofs.Json.Documents

namespace ScopedGrammar.Json

variable {run further content read told front back before between after : List Char} {c : Char}
  {pairs : Nat}

/-- A unit of sixteen bits, with four hexadecimal digits of either case. -/
inductive UnitEscape : Nat → List Char → Prop
  | mk {first second third fourth : Char} {a b c d : Nat} (hfirst : HexDigit first a)
      (hsecond : HexDigit second b) (hthird : HexDigit third c) (hfourth : HexDigit fourth d) :
      UnitEscape (((a * 16 + b) * 16 + c) * 16 + d) ['\\', 'u', first, second, third, fourth]

/-- The leading unit of a character beyond the first plane. -/
def leadingUnit (c : Char) : Nat :=
  0xD800 + (c.toNat - 0x10000) / 0x400

/-- The trailing unit of a character beyond the first plane. -/
def trailingUnit (c : Char) : Nat :=
  0xDC00 + (c.toNat - 0x10000) % 0x400

/-- A character in one of the ways to write it other than as a pair. -/
inductive Single : Char → List Char → Prop
  /-- A character that is neither a control character nor a quote nor a backslash. -/
  | plain {c : Char} (hshown : 0x20 ≤ c.toNat) (hquote : c ≠ '"') (hbackslash : c ≠ '\\') :
      Single c [c]
  | letter {letter c : Char} (hescape : LetterEscape letter c) : Single c ['\\', letter]
  /-- A character of the first plane, by its code. -/
  | code {c : Char} {run : List Char} (hplane : c.toNat < 0x10000)
      (hunit : UnitEscape c.toNat run) : Single c run

/-- The ways to write a string, with the number of characters that are written as pairs and
with the characters that are read. -/
inductive Escaped : Nat → List Char → List Char → List Char → Prop
  | nil : Escaped 0 [] [] []
  | single {pairs : Nat} {c : Char} {piece content run told : List Char} (hsingle : Single c piece)
      (hrest : Escaped pairs content run told) :
      Escaped pairs (c :: content) (piece ++ run) (c :: told)
  | pair {pairs : Nat} {c : Char} {leading trailing content run told : List Char}
      (hplane : 0x10000 ≤ c.toNat) (hleading : UnitEscape (leadingUnit c) leading)
      (htrailing : UnitEscape (trailingUnit c) trailing)
      (hrest : Escaped pairs content run told) :
      Escaped (pairs + 1) (c :: content) (leading ++ (trailing ++ run))
        ('\ufffd' :: '\ufffd' :: told)

theorem UnitEscape.piece {code : Nat} (hunit : UnitEscape code run) : Piece run (codeChar code) := by
  cases hunit with
  | mk hfirst hsecond hthird hfourth => exact .code hfirst hsecond hthird hfourth

theorem codeChar_surrogate {code : Nat} (hleast : 0xD800 ≤ code) (hgreatest : code ≤ 0xDFFF) :
    codeChar code = '\ufffd' :=
  if_pos ⟨hleast, hgreatest⟩

theorem codeChar_toNat (c : Char) : codeChar c.toNat = c := by
  have hvalid : c.toNat < 0xD800 ∨ 0xDFFF < c.toNat ∧ c.toNat < 0x110000 := c.valid
  rw [codeChar, if_neg (by omega)]
  exact Char.ofNat_toNat c

theorem Single.piece (hsingle : Single c run) : Piece run c := by
  cases hsingle with
  | plain hshown hquote hbackslash =>
      refine .plain ⟨hquote, hbackslash, ?_⟩
      rintro rfl
      exact absurd hshown (by decide)
  | letter hescape => exact .letter hescape
  | code hplane hunit => exact codeChar_toNat c ▸ hunit.piece

/-- A string between its quotes is read unit by unit. -/
theorem Escaped.body (hescaped : Escaped pairs content run told) : Body run told := by
  induction hescaped with
  | nil => exact .nil
  | single hsingle _ ih => exact .cons hsingle.piece ih
  | @pair pairs c leading trailing content run told hplane hleading htrailing _ ih =>
      have hvalid : c.toNat < 0xD800 ∨ 0xDFFF < c.toNat ∧ c.toNat < 0x110000 := c.valid
      have hfirst := hleading.piece
      have hsecond := htrailing.piece
      rw [leadingUnit, codeChar_surrogate (by omega) (by omega)] at hfirst
      rw [trailingUnit, codeChar_surrogate (by omega) (by omega)] at hsecond
      exact .cons hfirst (.cons hsecond ih)

/-- Each pair is read as one character more than it stands for. -/
theorem Escaped.length_told (hescaped : Escaped pairs content run told) :
    told.length = content.length + pairs := by
  induction hescaped with
  | nil => rfl
  | single _ _ ih => rw [List.length_cons, List.length_cons, ih, Nat.add_right_comm]
  | pair _ _ _ _ ih =>
      simp only [List.length_cons, ih]
      omega

theorem Escaped.told_eq_iff (hescaped : Escaped pairs content run told) :
    told = content ↔ pairs = 0 := by
  constructor
  · rintro rfl
    exact Nat.left_eq_add.mp hescaped.length_told
  · intro hnone
    induction hescaped with
    | nil => rfl
    | single _ _ ih => rw [ih hnone]
    | pair => cases hnone

/-- A phrase around the place for a string: what it stands for, depending on the string, and
what is before and behind the string's quotes. -/
inductive Around : (String → Phrase) → List Char → List Char → Prop
  | string : Around (fun content => .value (.text content)) [] []
  | key {before between run : List Char} {value : Value} (hbefore : Blank before)
      (hbetween : Blank between) (helement : Produces (.element value) run) :
      Around (fun content => .member content value) before (between ++ (':' :: run))
  | array {gap front back : List Char} {values : String → List Value} (hgap : Blank gap)
      (helements : Around (fun content => .elements (values content)) front back) :
      Around (fun content => .value (.list (values content))) ('[' :: (gap ++ front))
        (back ++ [']'])
  | object {gap front back : List Char} {entries : String → List (String × Value)}
      (hgap : Blank gap)
      (hmembers : Around (fun content => .members (entries content)) front back) :
      Around (fun content => .value (.map (entries content))) ('\x7b' :: (gap ++ front))
        (back ++ ['\x7d'])
  | element {before front back after : List Char} {value : String → Value}
      (hbefore : Blank before) (hvalue : Around (fun content => .value (value content)) front back)
      (hafter : Blank after) :
      Around (fun content => .element (value content)) (before ++ front) (back ++ after)
  | oneElement {front back : List Char} {value : String → Value}
      (honly : Around (fun content => .element (value content)) front back) :
      Around (fun content => .elements [value content]) front back
  | firstElement {front back further : List Char} {value : String → Value} {values : List Value}
      (hfirst : Around (fun content => .element (value content)) front back)
      (hrest : Produces (.elements values) further) :
      Around (fun content => .elements (value content :: values)) front (back ++ (',' :: further))
  | laterElement {run front back : List Char} {value : Value} {values : String → List Value}
      (hfirst : Produces (.element value) run)
      (hrest : Around (fun content => .elements (values content)) front back) :
      Around (fun content => .elements (value :: values content)) (run ++ (',' :: front)) back
  | member {before key between name front back : List Char} {value : String → Value}
      (hbefore : Blank before) (hkey : Body key name) (hbetween : Blank between)
      (helement : Around (fun content => .element (value content)) front back) :
      Around (fun content => .member (String.ofList name) (value content))
        (before ++ ('"' :: (key ++ ('"' :: (between ++ (':' :: front)))))) back
  | oneMember {front back : List Char} {key : String → String} {value : String → Value}
      (honly : Around (fun content => .member (key content) (value content)) front back) :
      Around (fun content => .members [(key content, value content)]) front back
  | firstMember {front back further : List Char} {key : String → String} {value : String → Value}
      {entries : List (String × Value)}
      (hfirst : Around (fun content => .member (key content) (value content)) front back)
      (hrest : Produces (.members entries) further) :
      Around (fun content => .members ((key content, value content) :: entries)) front
        (back ++ (',' :: further))
  | laterMember {run front back : List Char} {key : String} {value : Value}
      {entries : String → List (String × Value)} (hfirst : Produces (.member key value) run)
      (hrest : Around (fun content => .members (entries content)) front back) :
      Around (fun content => .members ((key, value) :: entries content)) (run ++ (',' :: front))
        back

/-- A string in its place. -/
def quotedIn (front back run : List Char) : List Char :=
  front ++ ('"' :: (run ++ ('"' :: back)))

/-- With any string in its place, the phrase is produced. -/
theorem Around.produces {phrase : String → Phrase} (haround : Around phrase front back)
    (hbody : Body run content) :
    Produces (phrase (String.ofList content)) (quotedIn front back run) := by
  unfold quotedIn
  induction haround with
  | string => exact .string hbody
  | key hbefore hbetween helement => exact .member hbefore hbody hbetween helement
  | array hgap _ ih => simpa using Produces.array hgap ih
  | object hgap _ ih => simpa using Produces.object hgap ih
  | element hbefore _ hafter ih => simpa using Produces.element hbefore ih hafter
  | oneElement _ ih => exact .oneElement ih
  | firstElement _ hrest ih => simpa using Produces.moreElements ih hrest
  | laterElement hfirst _ ih => simpa using Produces.moreElements hfirst ih
  | member hbefore hkey hbetween _ ih => simpa using Produces.member hbefore hkey hbetween ih
  | oneMember _ ih => exact .oneMember ih
  | firstMember _ hrest ih => simpa using Produces.moreMembers ih hrest
  | laterMember hfirst _ ih => simpa using Produces.moreMembers hfirst ih

/-- However a string is escaped and wherever it stands, the document is parsed as with the
characters that are read of the string. These are the string itself exactly if none of its
characters is written as a surrogate pair. -/
theorem parse_escaped {value : String → Value}
    (haround : Around (fun content => .element (value content)) front back)
    (hescaped : Escaped pairs content run told) :
    parse (String.ofList (quotedIn front back run)) = .ok (value (String.ofList told)) ∧
      (told = content ↔ pairs = 0) := by
  refine ⟨parse_of_produces ?_, hescaped.told_eq_iff⟩
  rw [String.toList_ofList]
  exact haround.produces hescaped.body

/-- A member whose value has a digit of each case, an escaped slash and a face as itself. -/
theorem parse_escaped_of_member :
    Around (fun content => .element (.map [("k", .text content)])) "\x7b\"k\": ".toList
        "\x7d".toList ∧
      Escaped 0 ['é', '/', '😀'] "\\u00E9\\/😀".toList ['é', '/', '😀'] ∧
      parse "\x7b\"k\": \"\\u00E9\\/😀\"\x7d" = .ok (.map [("k", .text "é/😀")]) := by
  have hunit : UnitEscape 'é'.toNat ['\\', 'u', '0', '0', 'E', '9'] :=
    .mk (show HexDigit '0' 0 by decide) (show HexDigit '0' 0 by decide)
      (show HexDigit 'E' 14 by decide) (show HexDigit '9' 9 by decide)
  have hescaped : Escaped 0 ['é', '/', '😀'] "\\u00E9\\/😀".toList ['é', '/', '😀'] :=
    .single (.code (by decide) hunit) (.single (.letter .slash)
      (.single (.plain (by decide) (by decide) (by decide)) .nil))
  have hkey : Body ['k'] ['k'] := .cons (.plain (by decide)) .nil
  have hnone : Blank [] := List.forall_mem_nil _
  have hspace : Blank [' '] := fun c hc => .inl (List.mem_singleton.mp hc)
  have hvalue : Around (fun content => .element (.text content)) [' '] [] :=
    .element hspace .string hnone
  have hmember : Around (fun content => .member "k" (.text content)) "\"k\": ".toList [] :=
    .member hnone hkey hnone hvalue
  have hobject : Around (fun content => .element (.map [("k", .text content)]))
      "\x7b\"k\": ".toList "\x7d".toList :=
    .element hnone (.object hnone (.oneMember hmember)) hnone
  exact ⟨hobject, hescaped, (parse_escaped hobject hescaped).1⟩

/-- A face that is written as a pair is not read as itself. -/
theorem not_parse_escaped_pair :
    ¬ ∀ pairs content run told, Escaped pairs content run told →
      parse (String.ofList (quotedIn [] [] run)) = .ok (.text (String.ofList content)) := by
  intro hall
  have hleading : UnitEscape (leadingUnit '😀') ['\\', 'u', 'd', '8', '3', 'd'] :=
    .mk (show HexDigit 'd' 13 by decide) (show HexDigit '8' 8 by decide)
      (show HexDigit '3' 3 by decide) (show HexDigit 'd' 13 by decide)
  have htrailing : UnitEscape (trailingUnit '😀') ['\\', 'u', 'd', 'e', '0', '0'] :=
    .mk (show HexDigit 'd' 13 by decide) (show HexDigit 'e' 14 by decide)
      (show HexDigit '0' 0 by decide) (show HexDigit '0' 0 by decide)
  have hescaped : Escaped 1 ['😀'] "\\ud83d\\ude00".toList ['\ufffd', '\ufffd'] :=
    .pair (by decide) hleading htrailing .nil
  have hnone : Blank [] := List.forall_mem_nil _
  have hplace : Around (fun content => .element (.text content)) [] [] :=
    .element hnone .string hnone
  have hparse : parse (String.ofList (quotedIn [] [] "\\ud83d\\ude00".toList)) =
      .ok (.text (String.ofList ['\ufffd', '\ufffd'])) := by
    apply parse_of_produces
    rw [String.toList_ofList]
    exact hplace.produces hescaped.body
  have hface := hall _ _ _ _ hescaped
  rw [hparse, Except.ok.injEq, Value.text.injEq] at hface
  exact absurd hface (by decide)

end ScopedGrammar.Json
