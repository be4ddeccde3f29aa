/-
# Braces written twice

A template is read from left to right, and a doubled brace is read as soon as its first half
is met. So a text whose braces are all doubled is read back as it was, and reading goes on
after it as if nothing had been in front: no brace of what follows is ever taken for the
second half of a pair, and no placeholder reaches back. Croco writes the brackets that its
reports name into templates in this way.
-/

import ScopedGrammar.Languages.Croco.Rules

namespace ScopedGrammar.Message

variable {π : Type} [Producer π]

/-- A text with each of its braces written twice. -/
def doubled (text : List Char) : List Char :=
  text.flatMap fun c => if c = '\x7b' ∨ c = '\x7d' then [c, c] else [c]

theorem doubled_cons (c : Char) (text : List Char) :
    doubled (c :: text) =
      if c = '\x7b' ∨ c = '\x7d' then c :: c :: doubled text else c :: doubled text := by
  by_cases hbrace : c = '\x7b' ∨ c = '\x7d' <;> simp [doubled, hbrace]

theorem scan_nil : scan [] = [] := by
  rw [scan]

theorem scan_opening_twice (rest : List Char) :
    scan ('\x7b' :: '\x7b' :: rest) = .char '\x7b' :: scan rest := by
  rw [scan]
  simp

theorem scan_closing_twice (rest : List Char) :
    scan ('\x7d' :: '\x7d' :: rest) = .char '\x7d' :: scan rest := by
  rw [scan]
  simp

/-- Any other character stands for itself, whatever comes after it. -/
theorem scan_cons_of_plain {c : Char} (hopening : c ≠ '\x7b') (hclosing : c ≠ '\x7d')
    (rest : List Char) : scan (c :: rest) = .char c :: scan rest := by
  rw [scan]
  simp [hopening, hclosing]

/-- A doubled text is scanned as the text itself, and what follows it as if it came first. -/
theorem scan_doubled_append (text rest : List Char) :
    scan (doubled text ++ rest) = text.map .char ++ scan rest := by
  induction text with
  | nil => rfl
  | cons c text ih =>
      rw [doubled_cons, List.map_cons, List.cons_append, ← ih]
      by_cases hopening : c = '\x7b'
      · subst hopening
        exact scan_opening_twice (doubled text ++ rest)
      · by_cases hclosing : c = '\x7d'
        · subst hclosing
          exact scan_closing_twice (doubled text ++ rest)
        · rw [if_neg (not_or.mpr ⟨hopening, hclosing⟩)]
          exact scan_cons_of_plain hopening hclosing (doubled text ++ rest)

/-- A text with its braces doubled is written as it stands, in front of whatever the rest of
the template is written as; the rest may begin with a brace or a placeholder. What is read
of the input is what the rest asks for. On its own, such a text is written as it stands. Croco
doubles braces in this way. -/
theorem render_doubled (text rest : String) (scope : Scope) (place : Position)
    (input : Input π) :
    (Message.ofTemplate (String.ofList (doubled text.toList) ++ rest)).render scope place input =
        (text ++ ((Message.ofTemplate rest).render scope place input).1,
          ((Message.ofTemplate rest).render scope place input).2) ∧
      (Message.ofTemplate (String.ofList (doubled text.toList))).render scope place input =
        (text, input) ∧
      Croco.inTemplate text = String.ofList (doubled text.toList) := by
  refine ⟨?_, ?_, rfl⟩
  · rw [render, Message.ofTemplate, String.toList_append, String.toList_ofList,
      scan_doubled_append, renderPieces_plain_append, String.ofList_toList]
    rfl
  · have halone := scan_doubled_append text.toList []
    have hnothing := renderPieces_plain_append scope place text.toList [] input
    rw [List.append_nil, scan_nil] at halone
    rw [render, Message.ofTemplate, String.toList_ofList, halone, hnothing,
      String.ofList_toList]
    exact Prod.ext String.append_empty rfl

end ScopedGrammar.Message
