/-
# Placeholders that denote nothing

A placeholder denotes something if its body, without the blanks around it, describes the
place of the failure, is a name with a binding, or asks for the line or the column of a
binding that has one. A body that denotes nothing is written back between its braces. It is
put together again from what it was taken apart into, a name or an owner and a field, which
loses nothing: points, inner blanks, opening braces and an empty body all come back.

Only the blanks around the body do not. So a template in which nothing denotes anything comes
back as it is written, except that its bodies are trimmed, and unchanged exactly if no body
has blanks around it.
-/

import ScopedGrammar.Message.Render
import ScopedGrammar.Proofs.Text.Delimiters
import Mathlib

namespace ScopedGrammar.Message

variable {π : Type} [Producer π]

/-- What stands in front of the first closing brace, the brace, and what comes after it. -/
theorem split_at_closing {rest : List Char} (hclosed : '\x7d' ∈ rest) :
    rest = rest.takeWhile insideBody ++ '\x7d' :: (rest.dropWhile insideBody).drop 1 := by
  induction rest with
  | nil => cases hclosed
  | cons c rest ih =>
      by_cases hclosing : c = '\x7d'
      · subst hclosing
        rfl
      · have hinside : insideBody c = true := bne_iff_ne.mpr hclosing
        have hrest := (List.mem_cons.mp hclosed).resolve_left (Ne.symm hclosing)
        rw [List.takeWhile_cons_of_pos hinside, List.dropWhile_cons_of_pos hinside,
          List.cons_append, ← ih hrest]

theorem length_after_closing_lt (c : Char) (rest : List Char) :
    ((rest.dropWhile insideBody).drop 1).length < (c :: rest).length := by
  have hshorter := (List.dropWhile_suffix insideBody (l := rest)).length_le
  rw [List.length_drop, List.length_cons]
  omega

/-- The bodies of the closed placeholders of a template without doubled braces: each goes from
an opening brace to the next closing one, whatever stands between them. -/
def bodies : List Char → List (List Char)
  | [] => []
  | c :: rest =>
      if c = '\x7b' ∧ '\x7d' ∈ rest then
        rest.takeWhile insideBody :: bodies ((rest.dropWhile insideBody).drop 1)
      else
        bodies rest
termination_by template => template.length
decreasing_by
  · exact length_after_closing_lt c rest
  · exact Nat.lt_succ_self _

/-- A template without doubled braces in which every body is trimmed. -/
def tightened : List Char → List Char
  | [] => []
  | c :: rest =>
      if c = '\x7b' ∧ '\x7d' ∈ rest then
        '\x7b' :: (Text.trim (rest.takeWhile insideBody) ++
          '\x7d' :: tightened ((rest.dropWhile insideBody).drop 1))
      else
        c :: tightened rest
termination_by template => template.length
decreasing_by
  · exact length_after_closing_lt c rest
  · exact Nat.lt_succ_self _

/-- Where no brace is closed, nothing is trimmed. -/
theorem tightened_of_unclosed {template : List Char} (hunclosed : '\x7d' ∉ template) :
    tightened template = template := by
  induction template with
  | nil => rw [tightened]
  | cons c rest ih =>
      have hrest := List.not_mem_of_not_mem_cons hunclosed
      rw [tightened, if_neg fun hclosed => hrest hclosed.2, ih hrest]

theorem insideBody_of_mem_body {c : Char} {rest : List Char}
    (hmem : c ∈ rest.takeWhile insideBody) : insideBody c = true :=
  List.mem_takeWhile_imp hmem

theorem mem_of_mem_trim {c : Char} {text : List Char} (hmem : c ∈ Text.trim text) : c ∈ text := by
  have hback := (List.dropWhile_suffix Text.isBlank).subset (List.mem_reverse.mp hmem)
  exact (List.dropWhile_suffix Text.isBlank).subset (List.mem_reverse.mp hback)

/-- Trimming the bodies changes the template exactly if there is one with blanks around it. -/
theorem tightened_eq_self_iff (template : List Char) :
    tightened template = template ↔ ∀ body ∈ bodies template, Text.trim body = body := by
  fun_induction bodies template with
  | case1 => simp [tightened]
  | case2 c rest hclosed ih =>
      obtain ⟨rfl, hmem⟩ := hclosed
      have hparts : tightened ('\x7b' :: rest) = '\x7b' :: rest ↔
          Text.trim (rest.takeWhile insideBody) = rest.takeWhile insideBody ∧
            tightened ((rest.dropWhile insideBody).drop 1) =
              (rest.dropWhile insideBody).drop 1 := by
        conv_lhs => rhs; rw [split_at_closing hmem]
        rw [tightened, if_pos ⟨rfl, hmem⟩, List.cons_inj_right]
        refine ⟨fun hsame => ?_, fun ⟨hbody, hrest⟩ => by rw [hbody, hrest]⟩
        have hclosing {after : List Char} : ∀ c ∈ ('\x7d' :: after).head?, insideBody c = false := by
          rintro _ ⟨⟩
          rfl
        obtain ⟨hbody, hrest⟩ := Text.append_inj_of_class
          (fun c hc => insideBody_of_mem_body (mem_of_mem_trim hc))
          (fun c hc => insideBody_of_mem_body hc) hclosing hclosing hsame
        exact ⟨hbody, List.tail_eq_of_cons_eq hrest⟩
      rw [hparts, ih, List.forall_mem_cons]
  | case3 c rest hopen ih => rw [tightened, if_neg hopen, List.cons_inj_right, ih]

/-- No brace of a template is directly followed by another of its kind. -/
structure Undoubled (template : List Char) : Prop where
  opening : ¬ ['\x7b', '\x7b'] <:+: template
  closing : ¬ ['\x7d', '\x7d'] <:+: template

namespace Undoubled

variable {c : Char} {template rest : List Char}

theorem of_suffix (hundoubled : Undoubled template) (hsuffix : rest <:+ template) :
    Undoubled rest where
  opening htwice := hundoubled.opening (htwice.trans hsuffix.isInfix)
  closing htwice := hundoubled.closing (htwice.trans hsuffix.isInfix)

theorem tail (hundoubled : Undoubled (c :: rest)) : Undoubled rest :=
  hundoubled.of_suffix (List.suffix_cons c rest)

theorem head?_ne_opening (hundoubled : Undoubled ('\x7b' :: rest)) :
    rest.head? ≠ some '\x7b' := by
  intro hhead
  obtain ⟨more, rfl⟩ := List.head?_eq_some_iff.mp hhead
  exact hundoubled.opening ⟨[], more, rfl⟩

theorem head?_ne_closing (hundoubled : Undoubled ('\x7d' :: rest)) :
    rest.head? ≠ some '\x7d' := by
  intro hhead
  obtain ⟨more, rfl⟩ := List.head?_eq_some_iff.mp hhead
  exact hundoubled.closing ⟨[], more, rfl⟩

theorem after_closing (hundoubled : Undoubled (c :: rest)) :
    Undoubled ((rest.dropWhile insideBody).drop 1) :=
  hundoubled.tail.of_suffix ((List.drop_suffix 1 _).trans (List.dropWhile_suffix insideBody))

/-- A closed brace opens a placeholder, which goes up to the next closing one. -/
theorem scan_closed (hundoubled : Undoubled ('\x7b' :: rest)) (hclosed : '\x7d' ∈ rest) :
    scan ('\x7b' :: rest) =
      placeholder (Text.trim (rest.takeWhile insideBody)) ::
        scan ((rest.dropWhile insideBody).drop 1) := by
  have hsome : rest.all insideBody = false :=
    List.all_eq_false.mpr ⟨'\x7d', hclosed, by decide⟩
  rw [scan, if_pos rfl, if_neg hundoubled.head?_ne_opening, hsome]
  rfl

/-- A brace that is not closed stands for itself, and so does all that comes after it. -/
theorem scan_unclosed (hundoubled : Undoubled ('\x7b' :: rest)) (hunclosed : '\x7d' ∉ rest) :
    scan ('\x7b' :: rest) = ('\x7b' :: rest).map .char := by
  have hall : rest.all insideBody = true := List.all_eq_true.mpr fun c hmem =>
    bne_iff_ne.mpr fun hclosing => hunclosed (hclosing ▸ hmem)
  rw [scan, if_pos rfl, if_neg hundoubled.head?_ne_opening, if_pos hall]

/-- Any character but an opening brace stands for itself. -/
theorem scan_cons (hundoubled : Undoubled (c :: rest)) (hplain : c ≠ '\x7b') :
    scan (c :: rest) = .char c :: scan rest := by
  have hsingle : ¬ (c = '\x7d' ∧ rest.head? = some '\x7d') := by
    rintro ⟨rfl, hhead⟩
    exact hundoubled.head?_ne_closing hhead
  rw [scan, if_neg hplain, if_neg hsingle]

end Undoubled

/-- A trimmed body denotes nothing: it does not describe the place of the failure, it is no
name with a binding, and it does not ask for a line or a column that a binding has. -/
structure DenotesNothing (scope : Scope) (body : String) : Prop where
  placeless : body ∉ ["line", "column", "col", "offset", "found"]
  unbound : scope.find? body = none
  lineless : ∀ owner, body = owner ++ ".line" → (scope.value? owner).bind Value.line? = none
  columnless : ∀ owner, body = owner ++ ".column" →
    (scope.value? owner).bind Value.asToken? = none

/-- A body that denotes nothing is written back between braces, whether it was taken for a
name or for a field of one. -/
theorem render_placeholder_of_denotesNothing {scope : Scope} {body : List Char}
    (hnothing : DenotesNothing scope (String.ofList body)) (place : Position)
    (input : Input π) :
    (placeholder body).render scope place input = (verbatim (String.ofList body), input) := by
  have hother (word : String) (hword : word ∈ ["line", "column", "col", "offset", "found"]) :
      body ≠ word.toList := by
    rintro rfl
    exact hnothing.placeless (by rwa [String.ofList_toList])
  have hsplit := List.takeWhile_append_dropWhile (p := (· != '.')) (l := body)
  have howner {field : String} (hfield : body.dropWhile (· != '.') = field.toList) :
      String.ofList body = String.ofList (body.takeWhile (· != '.')) ++ field := by
    conv_lhs => rw [← hsplit, hfield, String.ofList_append, String.ofList_toList]
  unfold placeholder
  rw [if_neg (hother "line" (by decide)),
    if_neg (not_or.mpr ⟨hother "column" (by decide), hother "col" (by decide)⟩),
    if_neg (hother "offset" (by decide)), if_neg (hother "found" (by decide))]
  dsimp only
  split
  next hfield =>
    rw [Piece.render, ofLine, hnothing.lineless _ (howner hfield), ← howner hfield]
  next =>
    split
    next hfield =>
      rw [Piece.render, ofColumn, hnothing.columnless _ (howner hfield), ← howner hfield]
    next => rw [Piece.render, ofName, hnothing.unbound]

/-- Without doubled braces, and where no body denotes anything, only the blanks around the
bodies are lost. -/
theorem renderPieces_scan_of_denotesNothing {scope : Scope} {template : List Char}
    (hundoubled : Undoubled template)
    (hnothing : ∀ body ∈ bodies template, DenotesNothing scope (String.ofList (Text.trim body)))
    (place : Position) (input : Input π) :
    renderPieces scope place (scan template) input =
      (String.ofList (tightened template), input) := by
  fun_induction bodies template with
  | case1 =>
      rw [scan, tightened]
      rfl
  | case2 c rest hclosed ih =>
      obtain ⟨rfl, hmem⟩ := hclosed
      rw [List.forall_mem_cons] at hnothing
      have hpiece := render_placeholder_of_denotesNothing hnothing.1 place input
      have hrest := ih hundoubled.after_closing hnothing.2
      rw [hundoubled.scan_closed hmem, renderPieces, hpiece, tightened, if_pos ⟨rfl, hmem⟩]
      dsimp only
      rw [hrest, verbatim]
      refine Prod.ext (String.toList_inj.mp ?_) rfl
      simp
  | case3 c rest hopen ih =>
      by_cases hopening : c = '\x7b'
      · subst hopening
        have hunclosed : '\x7d' ∉ rest := fun hmem => hopen ⟨rfl, hmem⟩
        have hall : '\x7d' ∉ '\x7b' :: rest := by simpa using hunclosed
        have hplain := renderPieces_plain_append scope place ('\x7b' :: rest) [] input
        rw [List.append_nil] at hplain
        rw [hundoubled.scan_unclosed hunclosed, hplain, tightened_of_unclosed hall]
        exact Prod.ext String.append_empty rfl
      · have hrest := ih hundoubled.tail hnothing
        have hplain := renderPieces_plain_append scope place [c] (scan rest) input
        rw [List.map_singleton, List.singleton_append, hrest] at hplain
        rw [hundoubled.scan_cons hopening, hplain, tightened, if_neg hopen,
          ← String.ofList_append, List.singleton_append]

/-- A template without doubled braces, in which no closed placeholder denotes anything, is
written as it stands but with its bodies trimmed, and nothing is read of the input. So it
comes back unchanged exactly if no body has blanks around it. -/
theorem render_unknown_placeholders {template : String} {scope : Scope}
    (hundoubled : Undoubled template.toList)
    (hnothing : ∀ body ∈ bodies template.toList,
      DenotesNothing scope (String.ofList (Text.trim body)))
    (place : Position) (input : Input π) :
    (Message.ofTemplate template).render scope place input =
        (String.ofList (tightened template.toList), input) ∧
      (((Message.ofTemplate template).render scope place input).1 = template ↔
        ∀ body ∈ bodies template.toList, Text.trim body = body) := by
  have hrendered : (Message.ofTemplate template).render scope place input =
      (String.ofList (tightened template.toList), input) :=
    renderPieces_scan_of_denotesNothing hundoubled hnothing place input
  refine ⟨hrendered, ?_⟩
  rw [hrendered, ← tightened_eq_self_iff, ← String.toList_inj, String.toList_ofList]

/-- A number has no line, a name with a brace in it is bound to nothing, and neither is the
empty name. The blanks in front of a body and after it are lost, the one inside is not. -/
theorem render_unknown_placeholders_of_fields :
    let scope := Scope.empty.bind "n" (.value (.int 3))
    let template := "\x7bn.line\x7d \x7b a \x7bb.column \x7d \x7b\x7d \x7bgone"
    Undoubled template.toList ∧
      bodies template.toList = ["n.line".toList, " a \x7bb.column ".toList, []] ∧
      (Message.ofTemplate template).render scope Position.start (Input.ofText "") =
        ("\x7bn.line\x7d \x7ba \x7bb.column\x7d \x7b\x7d \x7bgone", Input.ofText "") := by
  intro scope template
  have hundoubled : Undoubled template.toList := ⟨by decide, by decide⟩
  have hbodies : bodies template.toList = ["n.line".toList, " a \x7bb.column ".toList, []] := by
    cbv
  have hvalue (owner : String) :
      scope.value? owner = if "n" = owner then some (.int 3) else none := by
    rw [Scope.value?, Scope.find?_bind]
    split <;> rfl
  have hline (owner : String) : (scope.value? owner).bind Value.line? = none := by
    rw [hvalue]
    split <;> rfl
  have hcolumn (owner : String) : (scope.value? owner).bind Value.asToken? = none := by
    rw [hvalue]
    split <;> rfl
  have hunbound {name : String} (hother : "n" ≠ name) : scope.find? name = none := by
    rw [Scope.find?_bind, if_neg hother]
    rfl
  have hnothing : ∀ body ∈ bodies template.toList,
      DenotesNothing scope (String.ofList (Text.trim body)) := by
    rw [hbodies, List.forall_mem_cons, List.forall_mem_cons, List.forall_mem_singleton]
    refine ⟨⟨?_, hunbound ?_, fun owner _ => hline owner, fun owner _ => hcolumn owner⟩,
      ⟨?_, hunbound ?_, fun owner _ => hline owner, fun owner _ => hcolumn owner⟩,
      ⟨?_, hunbound ?_, fun owner _ => hline owner, fun owner _ => hcolumn owner⟩⟩ <;> decide
  refine ⟨hundoubled, hbodies, ?_⟩
  rw [(render_unknown_placeholders hundoubled hnothing Position.start (Input.ofText "")).1]
  exact Prod.ext (by cbv) rfl

/-- A placeholder that denotes nothing is not left as it is written if it has blanks around
its body. -/
theorem not_render_unknown_placeholder_unchanged :
    ¬ ∀ (template : String) (scope : Scope) (place : Position) (input : Input Silence),
      Undoubled template.toList →
      (∀ body ∈ bodies template.toList,
        DenotesNothing scope (String.ofList (Text.trim body))) →
      ((Message.ofTemplate template).render scope place input).1 = template := by
  intro hall
  have hbodies : bodies "\x7b missing \x7d".toList = [" missing ".toList] := by cbv
  have hnothing : ∀ body ∈ bodies "\x7b missing \x7d".toList,
      DenotesNothing Scope.empty (String.ofList (Text.trim body)) := by
    rw [hbodies, List.forall_mem_singleton]
    exact ⟨by decide, rfl, fun _ _ => rfl, fun _ _ => rfl⟩
  have hundoubled : Undoubled "\x7b missing \x7d".toList := ⟨by decide, by decide⟩
  have hrendered := renderPieces_scan_of_denotesNothing hundoubled hnothing Position.start
    (Input.ofText "")
  have htightened : tightened "\x7b missing \x7d".toList = "\x7bmissing\x7d".toList := by cbv
  have hsame := hall _ _ Position.start (Input.ofText "") hundoubled hnothing
  rw [render, Message.ofTemplate, hrendered, htightened] at hsame
  exact absurd hsame (by decide)

end ScopedGrammar.Message
