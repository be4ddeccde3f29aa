/-
# Sinks for output

A sink takes bytes, all of them or only so many in total. A write that does not fit is
taken up to the limit and then fails; writing nothing never fails.
-/

import ScopedGrammar.Session.Writer

namespace ScopedGrammar

/-- What a sink has accepted, and how many bytes it still accepts if it is limited. -/
structure Sink where
  accepted : Array UInt8
  room : Option Nat

namespace Sink

/-- A sink that has accepted nothing, with its limit if it has one. -/
def ofLimit (limit : Option Nat) : Sink :=
  ⟨#[], limit⟩

/-- The bytes of a text in UTF-8. -/
def bytesOf (text : String) : Array UInt8 :=
  text.toUTF8.data

/-- Writes a text, and tells whether all of it was accepted. -/
def write (sink : Sink) (text : String) : Bool × Sink :=
  let bytes := bytesOf text
  match sink.room with
  | none => (true, ⟨sink.accepted ++ bytes, none⟩)
  | some room =>
      if bytes.size ≤ room then (true, ⟨sink.accepted ++ bytes, some (room - bytes.size)⟩)
      else (false, ⟨sink.accepted ++ bytes.extract 0 room, some 0⟩)

instance : Writer Sink where
  write := Sink.write
  flush sink := (true, sink)

/-- Sinks are written to by their own writing. -/
theorem write_eq (sink : Sink) (text : String) : Writer.write sink text = sink.write text :=
  rfl

/-- The accepted bytes up to a limit as text: if they stop inside a character, the bytes
of that character are shown as one replacement character. At most three bytes of a
character can be cut off. -/
def textUpTo (bytes : Array UInt8) : Nat → String
  | 0 => ""
  | cut + 1 =>
      let dropped := 3 - cut
      match String.fromUTF8? ⟨bytes.extract 0 (bytes.size - dropped)⟩ with
      | some content => if dropped = 0 then content else content ++ "\ufffd"
      | none => textUpTo bytes cut

/-- What a sink has accepted, as text. -/
def text (sink : Sink) : String :=
  textUpTo sink.accepted 4

end Sink

end ScopedGrammar
