/-
# The tokens of a value

A value is a tree, and the tokens at its leaves stand in the order of the text. A value as
matching makes it, before any factory, has nothing but tokens and end marks at its leaves.
Such a value tells no text and no line but those of its tokens: its spelling is what the
tokens hold, and its line is where the first of them starts.
-/

import ScopedGrammar.Value.Basic

namespace ScopedGrammar.Value

mutual

/-- The tokens at the leaves of a value, in order. -/
def tokens : Value → List Token
  | .token piece => [piece]
  | .list members => tokensOfList members
  | .map entries => tokensOfEntries entries
  | .node _ _ children => tokensOfList children
  | _ => []

/-- The tokens of the members of a list, in order. -/
def tokensOfList : List Value → List Token
  | [] => []
  | first :: rest => tokens first ++ tokensOfList rest

/-- The tokens of the entries of a map, in order. -/
def tokensOfEntries : List (String × Value) → List Token
  | [] => []
  | first :: rest => tokensOfEntry first ++ tokensOfEntries rest

/-- The tokens of one entry. -/
def tokensOfEntry : String × Value → List Token
  | (_, content) => tokens content

end

theorem tokens_list (members : List Value) :
    (Value.list members).tokens = tokensOfList members := by
  rw [tokens]

theorem tokens_endMark : Value.endMark.tokens = [] := by
  simp [tokens]

/-- A value as matching makes it: tokens and end marks, in lists. -/
inductive Raw : Value → Prop
  | token (piece : Token) : Raw (.token piece)
  | endMark : Raw .endMark
  | list {members : List Value} (all : ∀ member ∈ members, Raw member) : Raw (.list members)

/-- What holds of the members of a list, one by one, holds of their leaf texts. -/
theorem leafTextsOfList_eq_map {members : List Value}
    (hmembers : ∀ member ∈ members, member.leafTexts = member.tokens.map Token.text) :
    leafTextsOfList members = (tokensOfList members).map Token.text := by
  induction members with
  | nil => rfl
  | cons first rest ih =>
      have hfirst := hmembers first List.mem_cons_self
      have hrest := ih fun member hmember => hmembers member (List.mem_cons_of_mem _ hmember)
      rw [leafTextsOfList, tokensOfList, List.map_append, hfirst, hrest]

/-- The first member that tells a line tells that of the first token. -/
theorem lineOfList?_eq_map {members : List Value}
    (hmembers : ∀ member ∈ members,
      member.line? = member.tokens.head?.map fun token => token.start.line) :
    lineOfList? members =
      (tokensOfList members).head?.map fun token => token.start.line := by
  induction members with
  | nil => rfl
  | cons first rest ih =>
      have hfirst := hmembers first List.mem_cons_self
      have hrest := ih fun member hmember => hmembers member (List.mem_cons_of_mem _ hmember)
      rw [lineOfList?, tokensOfList, hfirst, hrest]
      cases first.tokens with
      | nil => rfl
      | cons token others => rfl

namespace Raw

/-- All text in a raw value is in its tokens. -/
theorem leafTexts_eq {value : Value} (hraw : value.Raw) :
    value.leafTexts = value.tokens.map Token.text := by
  induction hraw with
  | token piece => simp [leafTexts, tokens]
  | endMark => simp [leafTexts, tokens_endMark]
  | list all ih =>
      rw [leafTexts, tokens_list]
      exact leafTextsOfList_eq_map ih

/-- A raw value tells the line of its first token. -/
theorem line?_eq {value : Value} (hraw : value.Raw) :
    value.line? = value.tokens.head?.map fun token => token.start.line := by
  induction hraw with
  | token piece => simp [line?, tokens]
  | endMark => simp [line?, tokens_endMark]
  | list all ih =>
      rw [line?, tokens_list]
      exact lineOfList?_eq_map ih

end Raw

theorem toList_spelling_text (content : String) :
    (Value.text content).spelling.toList = content.toList := by
  simp [spelling, leafTexts]

theorem toList_spelling_token (piece : Token) :
    (Value.token piece).spelling.toList = piece.text.toList := by
  simp [spelling, leafTexts]

/-- A list spells what its members spell, in order. -/
theorem toList_spelling_list (members : List Value) :
    (Value.list members).spelling.toList =
      members.flatMap fun member => member.spelling.toList := by
  rw [spelling, leafTexts]
  induction members with
  | nil => rfl
  | cons first rest ih =>
      rw [leafTextsOfList, String.join_append, String.toList_append, ih, List.flatMap_cons,
        spelling]

end ScopedGrammar.Value
