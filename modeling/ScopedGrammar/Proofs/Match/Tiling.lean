/-
# The tokens of a match tile what it took

A pattern whose matches keep everything, and which is not given a factory, yields tokens
that lie in the text like tiles: the first starts where the match starts, each further one
starts where the one before it ends, and the last ends where the match ends. So the tokens
together hold exactly what was taken, in the order of the text, once.

What a repetition or a choice tried in vain does not show, because derivations do not have
it. What has to be shown is that every form puts the values of its parts in the order in
which the parts were matched.
-/

import ScopedGrammar.Proofs.Match.Positions
import ScopedGrammar.Proofs.Match.Reach
import ScopedGrammar.Proofs.Match.Scoping
import ScopedGrammar.Proofs.Value.Tokens

namespace ScopedGrammar

/-- Tokens that lie in a text one after the other, from one position to another. Each holds
what the text has between its offsets. -/
inductive Tiles (text : List Char) : Position → List Token → Position → Prop
  | nil (place : Position) : Tiles text place [] place
  | cons {token : Token} {rest : List Token} {last : Position}
      (leads : token.start.Leads text token.stop)
      (holds : token.text.toList = (text.drop token.start.offset).take token.length)
      (further : Tiles text token.stop rest last) :
      Tiles text token.start (token :: rest) last

namespace Tiles

variable {text : List Char} {place middle last : Position} {tokens rest : List Token}

theorem append (hfirst : Tiles text place tokens middle)
    (hrest : Tiles text middle rest last) : Tiles text place (tokens ++ rest) last := by
  induction hfirst with
  | nil place => exact hrest
  | cons leads holds further ih => exact .cons leads holds (ih hrest)

theorem leads (htiles : Tiles text place tokens last) : place.Leads text last := by
  induction htiles with
  | nil place => exact .refl text place
  | cons leads holds further ih => exact leads.trans ih

theorem mono {longer : List Char} (htiles : Tiles text place tokens last)
    (hlonger : text <+: longer) : Tiles longer place tokens last := by
  induction htiles with
  | nil place => exact .nil place
  | cons leads holds further ih =>
      exact .cons (leads.mono hlonger) (holds.trans (leads.take_eq hlonger).symm) ih

/-- The first token starts where the tiling does. -/
theorem start_eq (htiles : Tiles text place tokens last) {token : Token}
    (htoken : tokens.head? = some token) : token.start = place := by
  cases htiles with
  | nil place => cases htoken
  | cons leads holds further =>
      cases htoken
      rfl

/-- Without tokens nothing is covered. -/
theorem eq_of_nil (htiles : Tiles text place [] last) : last = place := by
  cases htiles
  rfl

theorem holds_of_mem (htiles : Tiles text place tokens last) {token : Token}
    (htoken : token ∈ tokens) :
    token.text.toList = (text.drop token.start.offset).take token.length := by
  induction htiles with
  | nil place => cases htoken
  | cons leads holds further ih =>
      rcases List.mem_cons.mp htoken with rfl | hlater
      · exact holds
      · exact ih hlater

/-- The tokens together hold what the text has between the two positions. -/
theorem join_eq (htiles : Tiles text place tokens last) :
    (String.join (tokens.map Token.text)).toList =
      (text.drop place.offset).take (last.offset - place.offset) := by
  induction htiles with
  | nil place => simp
  | @cons token rest last leads holds further ih =>
      have hfirst := leads.offset_le
      have hrest := further.leads.offset_le
      have hlength : last.offset - token.start.offset =
          token.length + (last.offset - token.stop.offset) := by
        rw [Token.length]
        omega
      have hstop : token.start.offset + token.length = token.stop.offset := by
        rw [Token.length]
        omega
      rw [List.map_cons, String.join_cons, String.toList_append, holds, ih, hlength,
        List.take_add, List.drop_drop, hstop]

end Tiles

/-- Whether a form keeps the values of all its parts in their places: a sequence does unless
it picks, and a repetition unless it has a separator. -/
def Form.keepsAll : Form → Bool
  | .sequence _ picks => picks.isNone
  | .repetition _ _ _ separator _ => separator.isNone
  | _ => true

/-- Whether a pattern has no factory and a form that keeps everything. -/
def Pattern.isPlain (pattern : Pattern) : Bool :=
  pattern.factory.isNone && pattern.form.keepsAll

theorem isPlain_iff {pattern : Pattern} :
    pattern.isPlain = true ↔ pattern.factory = none ∧ pattern.form.keepsAll = true := by
  rw [Pattern.isPlain, Bool.and_eq_true, Option.isNone_iff_eq_none]

variable {π : Type} [Producer π]

namespace Derives

theorem length_eq {parts : List Pattern} {here there : Spot π} {values : List Value}
    (derived : Derives (.parts parts) here values there) : values.length = parts.length := by
  induction parts generalizing here values with
  | nil =>
      cases derived
      rfl
  | cons part rest ih =>
      cases derived with
      | cons hfirst hrest => rw [List.length_cons, List.length_cons, ih hrest]

end Derives

theorem length_unrolled (part : Pattern) (count : Nat) :
    (unrolled part none count).length = count := by
  induction count with
  | zero => rfl
  | succ count ih =>
      rw [unrolled, List.length_append, ih]
      simp [dueAfter]

namespace Turn

theorem length_values (turns : List Turn) :
    (turns.flatMap values).length =
      turns.length + (turns.filterMap separator).length := by
  induction turns with
  | nil => rfl
  | cons turn rest ih =>
      rcases turn with ⟨_ | before, value⟩
      · simp [values, ih]
        omega
      · simp [values, ih]
        omega

/-- Rounds with no separator in them yield the parts. -/
theorem values_eq_map {turns : List Turn} (hnone : turns.filterMap separator = []) :
    turns.flatMap values = turns.map part := by
  induction turns with
  | nil => rfl
  | cons turn rest ih =>
      rcases turn with ⟨_ | before, value⟩
      · rw [List.filterMap_cons] at hnone
        rw [List.flatMap_cons, ih hnone]
        rfl
      · cases hnone

end Turn

/-- Raw values whose tokens tile a text from one position to another. -/
structure Laid (text : List Char) (place : Position) (values : List Value)
    (last : Position) : Prop where
  tiles : Tiles text place (Value.tokensOfList values) last
  raw : ∀ value ∈ values, value.Raw

namespace Laid

variable {text : List Char} {place middle last : Position} {values : List Value}

/-- A list of the values is laid where they are. -/
theorem list (hlaid : Laid text place values last) :
    Laid text place [.list values] last where
  tiles := by
    rw [Value.tokensOfList, Value.tokens_list, Value.tokensOfList, List.append_nil]
    exact hlaid.tiles
  raw := by
    intro value hvalue
    rw [List.mem_singleton.mp hvalue]
    exact .list hlaid.raw

theorem nil (text : List Char) (place : Position) : Laid text place [] place where
  tiles := .nil place
  raw := by
    intro value hvalue
    cases hvalue

theorem cons {value : Value} (hfirst : Laid text place [value] middle)
    (hrest : Laid text middle values last) : Laid text place (value :: values) last where
  tiles := by
    have htiles := hfirst.tiles.append hrest.tiles
    rwa [Value.tokensOfList, Value.tokensOfList, List.append_nil] at htiles
  raw := by
    intro other hother
    rcases List.mem_cons.mp hother with rfl | hlater
    · exact hfirst.raw other List.mem_cons_self
    · exact hrest.raw other hlater

theorem mono {longer : List Char} (hlaid : Laid text place values last)
    (hlonger : text <+: longer) : Laid longer place values last where
  tiles := hlaid.tiles.mono hlonger
  raw := hlaid.raw

theorem endMark (text : List Char) (place : Position) :
    Laid text place [.endMark] place where
  tiles := by
    rw [Value.tokensOfList, Value.tokens_endMark, Value.tokensOfList, List.append_nil]
    exact .nil place
  raw := by
    intro value hvalue
    rw [List.mem_singleton.mp hvalue]
    exact .endMark

/-- A token of characters that stand at a position is laid there. -/
theorem token {content : String} {place last : Position} (hleads : place.Leads text last)
    (hholds : content.toList =
      (text.drop place.offset).take (last.offset - place.offset)) :
    Laid text place [.token ⟨content, place, last⟩] last where
  tiles := by
    rw [Value.tokensOfList, Value.tokens, Value.tokensOfList, List.append_nil]
    show Tiles text (Token.start ⟨content, place, last⟩) [⟨content, place, last⟩] last
    exact .cons hleads hholds (.nil last)
  raw := by
    intro value hvalue
    rw [List.mem_singleton.mp hvalue]
    exact .token _

/-- The value of a repetition without separators is laid where its parts are. -/
theorem result {turns : List Turn} (hlaid : Laid text place (turns.map Turn.part) last)
    (hnone : turns.filterMap Turn.separator = []) (keepSeparators : Bool) :
    Laid text place [Turn.result turns keepSeparators] last := by
  unfold Turn.result
  split
  · rw [hnone]
    exact (hlaid.list.cons (nil text last).list).list
  · exact hlaid.list

end Laid

/-- The form of a task keeps everything, and the patterns that the task uses are among
some. -/
def Task.Within (reached : Pattern → Prop) (outer : Scope) : Task → Prop
  | .form shape => shape.keepsAll = true ∧ ∀ other ∈ shape.uses outer, reached other
  | .pattern target => reached target
  | .parts row => ∀ part ∈ row, reached part

/-- A derivation whose patterns stay among plain ones lays its values. -/
theorem Derives.laid {reached : Pattern → Prop} {outer : Scope}
    (hplain : ∀ pattern, reached pattern → pattern.isPlain = true)
    (hclosed : ∀ pattern, reached pattern → ∀ other ∈ pattern.uses outer, reached other)
    {task : Task} {here there : Spot π} {values : List Value}
    (derived : Derives task here values there) (hwithin : task.Within reached outer)
    (hbinds : Scope.BindsWithin reached outer here.scope) :
    Laid there.input.buffer.toList here.position values there.position := by
  induction derived with
  | token recognised captured =>
      obtain ⟨rfl, rfl⟩ := captured_eq recognised captured
      refine .token (Derives.token recognised captured).leads ?_
      have hthere := recognised.there
      rw [Input.toList_slice, Position.offset_past, List.length_take, List.length_drop,
        Array.length_toList, Nat.min_eq_left hthere]
  | finish ended => exact .endMark _ _
  | choice missed chosen ih =>
      obtain ⟨-, huses⟩ := hwithin
      refine ih (huses _ (List.mem_append_left _ ?_)) hbinds
      exact List.mem_append_right _ List.mem_cons_self
  | sequence all picked ih =>
      obtain ⟨hkeeps, huses⟩ := hwithin
      rw [Form.keepsAll, Option.isNone_iff_eq_none] at hkeeps
      rw [hkeeps] at picked
      cases picked
      refine (ih ?_ hbinds).list
      exact fun part hpart => huses part (List.mem_append_left _ hpart)
  | @repetition part least most separator keepSeparators low high turns here there after
      bounds enough rounds last ih =>
      obtain ⟨hkeeps, huses⟩ := hwithin
      rw [Form.keepsAll, Option.isNone_iff_eq_none] at hkeeps
      subst hkeeps
      have hlength := rounds.length_eq
      rw [length_unrolled, Turn.length_values] at hlength
      have hnone : turns.filterMap Turn.separator = [] := by
        rw [← List.length_eq_zero_iff]
        omega
      rw [Turn.values_eq_map hnone] at ih
      refine ((ih ?_ hbinds).result hnone keepSeparators).mono last.received
      intro other hother
      rcases mem_unrolled hother with rfl | habsurd
      · exact huses other List.mem_cons_self
      · cases habsurd
  | demand met ih | capture matched ih => exact ih (hwithin.2 _ List.mem_cons_self) hbinds
  | overlay known matched ih =>
      exact ih (hwithin.2 _ List.mem_cons_self) (hbinds.overlaid hwithin.2 known)
  | rule known matched ih =>
      exact ih (hbinds.resolved hwithin.2 (List.mem_singleton_self _) known) hbinds
  | @pattern target here there value raw ih =>
      obtain ⟨hfactory, hkeeps⟩ := isPlain_iff.mp (hplain target hwithin)
      rw [Pattern.finishValue, hfactory]
      exact ih ⟨hkeeps, hclosed target hwithin⟩ hbinds
  | nil => exact .nil _ _
  | cons first rest ihfirst ihrest =>
      have hfirst := ihfirst (hwithin _ List.mem_cons_self) hbinds
      refine (hfirst.mono rest.growsTo.received).cons (ihrest ?_ ?_)
      · exact fun part hpart => hwithin part (List.mem_cons_of_mem _ hpart)
      · exact hbinds.captured first.extends

theorem eq_slice_of_toList {text content : String} {first past : Nat}
    (hcontent : content.toList = (text.toList.drop first).take (past - first)) :
    content = (Input.ofText text).slice first past := by
  rw [← String.toList_inj, Input.toList_slice, hcontent, Input.ofText]

/-- Where every pattern within reach is plain, the tokens of a match tile what it took from
the text. So the value spells exactly that, and the line it tells, if it tells one, is the
line of the start. -/
theorem matched_tokens_tile_text (granted : Nat) (pattern : Pattern) (scope : Scope)
    (place : Position) (text : String) {success : Match} {after : Input Silence}
    (hplain : ∀ other, pattern.Reaches scope other → other.isPlain = true)
    (hmatched : pattern.run granted scope place (Input.ofText text) =
      (.matched success, after)) :
    Tiles text.toList place success.value.tokens success.position ∧
      (success.value.tokens = [] → success.position = place) ∧
      (∀ token ∈ success.value.tokens, token.text =
        (Input.ofText text).slice token.start.offset token.stop.offset) ∧
      success.value.spelling =
        (Input.ofText text).slice place.offset success.position.offset ∧
      (∀ line, success.value.line? = some line → line = place.line) := by
  have hlaid : Laid text.toList place [success.value] success.position := by
    simpa [Input.ofText] using (derives_of_run_ofText hmatched).laid hplain
      (fun _ hreached _ huses => hreached.tail huses) .refl (.refl _ scope)
  have htiles : Tiles text.toList place success.value.tokens success.position := by
    simpa [Value.tokensOfList] using hlaid.tiles
  have hraw : success.value.Raw := hlaid.raw _ List.mem_cons_self
  refine ⟨htiles, ?_, ?_, ?_, ?_⟩
  · intro hnone
    rw [hnone] at htiles
    exact htiles.eq_of_nil
  · intro token htoken
    exact eq_slice_of_toList (htiles.holds_of_mem htoken)
  · rw [Value.spelling, hraw.leafTexts_eq]
    exact eq_slice_of_toList htiles.join_eq
  · intro line hline
    rw [hraw.line?_eq, Option.map_eq_some_iff] at hline
    obtain ⟨token, hfirst, rfl⟩ := hline
    rw [htiles.start_eq hfirst]

/-- Nested parentheses, from the second character of a text on. The rule for what stands in
them is reached by a name, the rule for other characters by an overlay. -/
theorem matched_tokens_tile_text_in_parentheses :
    let leaf := Pattern.noneOf "()"
    let inner := (Pattern.named "nest").orElse (.named "leaf")
    let nest := Pattern.sequence [.literal "(", inner.many, .literal ")"]
    let pattern := (Pattern.named "nest").withBinding "leaf" (.rule leaf)
    let scope := Scope.empty.bind "nest" (.rule nest)
    let input := Input.ofText ";(x(\n))"
    let success : Match :=
      { value := .list [.token ⟨"(", ⟨1, 2, 1⟩, ⟨1, 3, 2⟩⟩,
          .list [.token ⟨"x", ⟨1, 3, 2⟩, ⟨1, 4, 3⟩⟩,
            .list [.token ⟨"(", ⟨1, 4, 3⟩, ⟨1, 5, 4⟩⟩,
              .list [.token ⟨"\n", ⟨1, 5, 4⟩, ⟨2, 1, 5⟩⟩],
              .token ⟨")", ⟨2, 1, 5⟩, ⟨2, 2, 6⟩⟩]],
          .token ⟨")", ⟨2, 2, 6⟩, ⟨2, 3, 7⟩⟩]
        position := ⟨2, 3, 7⟩
        scope }
    (∀ other, pattern.Reaches scope other → other.isPlain = true) ∧
      pattern.run 20 scope ⟨1, 2, 1⟩ input = (.matched success, input) ∧
      success.value.spelling = input.slice 1 7 := by
  intro leaf inner nest pattern scope input success
  have hmatched : pattern.run 20 scope ⟨1, 2, 1⟩ input = (.matched success, input) := by cbv
  have hplain : ∀ other, pattern.Reaches scope other → other.isPlain = true := by
    intro other hreaches
    let patterns := [pattern, .named "nest", leaf, nest, .literal "(", inner.many,
      .literal ")", inner, .named "leaf"]
    have hmember : other ∈ patterns := by
      refine hreaches.mem_of_closed List.mem_cons_self ?_
      show [Pattern.named "nest", leaf, nest, .literal "(", inner.many, .literal ")", inner,
        .named "nest", .named "leaf"] ⊆ patterns
      simp [patterns]
    have hall : patterns.all Pattern.isPlain = true := rfl
    exact List.all_eq_true.mp hall other hmember
  exact ⟨hplain, hmatched,
    (matched_tokens_tile_text 20 pattern scope ⟨1, 2, 1⟩ _ hplain hmatched).2.2.2.1⟩

end ScopedGrammar
