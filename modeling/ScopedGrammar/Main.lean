/-
# The command line

The program's first argument chooses one of the two commands, and the others are the
command's own. A session is held with whoever types: a statement is parsed again from its
first line whenever a further line has arrived, so the prompts appear before the lines
are read.
-/

import ScopedGrammar.Command.Programs

namespace ScopedGrammar.Command

/-- All bytes of a stream up to its end. -/
partial def readAll (stream : IO.FS.Stream) (sofar : ByteArray) : IO ByteArray := do
  let more ← stream.read 65536
  if more.isEmpty then pure sofar else readAll stream (sofar ++ more)

/-- The bytes of a stream up to a newline, which is among them, or up to its end. -/
partial def readLineBytes (stream : IO.FS.Stream) (sofar : ByteArray) : IO ByteArray := do
  let more ← stream.read 1
  if more.isEmpty then pure sofar
  else if more.toList = [10] then pure (sofar ++ more)
  else readLineBytes stream (sofar ++ more)

/-- A line from a stream, or nothing at the end of the stream and for a line that is no
text. -/
def readLine (stream : IO.FS.Stream) : IO RawLine := do
  let bytes ← readLineBytes stream ByteArray.empty
  pure (if bytes.isEmpty then none else String.fromUTF8? bytes)

/-- Parses one statement after the other. The chunks are those of the current statement;
as long as the parse asks for more of them, the next line is read. -/
partial def converse (input output : IO.FS.Stream) (chunks : Array (Option String)) :
    IO Unit := do
  let transcript := Croco.grammar.parseProduced ampleSteps (Script.ofChunks chunks.toList)
  if chunks.size < transcript.requests then
    output.putStr
      (PromptTexts.standard.of (if chunks.isEmpty then .primary else .continuation))
    output.flush
    match ← readLine input with
    | some line =>
        converse input output
          (chunks.push (if Text.isBlankText line then some "" else some (terminated line)))
    | none => converse input output (chunks.push none)
  else
    let atEnd := chunks.back? == some none
    if !Text.isBlankText transcript.received then
      match Session.answer Croco.render transcript.received transcript.result with
      | some text => output.putStr text
      | none => pure ()
    if atEnd then output.putStr "\n" else converse input output #[]

/-- The surroundings of a command: all files named among its arguments are read at once. -/
def surroundings (arguments : List String) (input : List UInt8) : IO Surroundings := do
  let texts ← arguments.mapM fun (path : String) => do
    try
      pure (path, some (← IO.FS.readFile path))
    catch _ =>
      pure (path, none)
  pure
    { file? := fun path => (texts.find? fun entry => entry.1 == path).bind (·.2)
      input }

/-- Prints what a command leaves behind and returns its exit status. -/
def finish (ending : Ending) : IO UInt32 := do
  (← IO.getStdout).putStr ending.output
  pure (UInt32.ofNat ending.status)

/-- Whether a command line asks for a session. -/
def asksForSession (arguments : List String) : Bool :=
  match request crocoOptions arguments with
  | .go taken => taken.file.isNone
  | _ => false

/-- Runs the command that the first argument names. -/
def runNamed (name : String) (arguments : List String) : IO UInt32 := do
  let input ← IO.getStdin
  if name = "croco" then
    if asksForSession arguments then
      converse input (← IO.getStdout) #[]
      pure 0
    else
      finish (croco (← surroundings arguments []) arguments)
  else if name = "json-parser" then
    let bytes ← readAll input ByteArray.empty
    finish (json (← surroundings arguments bytes.toList) arguments)
  else
    finish Ending.badUsage

end ScopedGrammar.Command

/-- The program: a command's name, then its arguments. -/
def main (arguments : List String) : IO UInt32 :=
  match arguments with
  | name :: rest => ScopedGrammar.Command.runNamed name rest
  | [] => ScopedGrammar.Command.finish ScopedGrammar.Command.Ending.badUsage
