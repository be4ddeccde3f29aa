/-
# The two commands

One command parses a Croco program and prints its tree, or holds a session when it is
given no file. The other reads a JSON document and prints it again. What a command prints
and how it ends is a function of its arguments, its standard input and the files that can
be read; a command that fails prints nothing.
-/

import ScopedGrammar.Command.Arguments
import ScopedGrammar.Languages.Croco.Rules
import ScopedGrammar.Languages.Json
import ScopedGrammar.Session.Loop

namespace ScopedGrammar.Command

/-- What a command leaves behind: its output and its exit status. -/
structure Ending where
  output : String
  status : Nat

/-- Success, with something printed. -/
def Ending.success (output : String) : Ending :=
  ⟨output, 0⟩

/-- A text that could not be read or does not parse. -/
def Ending.failure : Ending :=
  ⟨"", 1⟩

/-- A command line that makes no sense. -/
def Ending.badUsage : Ending :=
  ⟨"", 2⟩

/-- What surrounds a command: the text of each file that can be read, and the bytes on
standard input. -/
structure Surroundings where
  file? : String → Option String
  input : List UInt8

/-- The option that both commands have. -/
def helpOption : OptionSpec :=
  ⟨"help", 'h', .help⟩

/-- The options of the Croco command. -/
def crocoOptions : List OptionSpec :=
  [⟨"start", 's', .setting⟩, ⟨"verbose", 'v', .counter⟩, helpOption]

/-- The help of the Croco command. -/
def crocoHelp : String :=
  "Parse croco programs\n\nUsage: croco [OPTIONS] [FILE]\n\nArguments:\n" ++
    "  [FILE]  Program to parse; starts an interactive session when omitted\n\nOptions:\n" ++
    "  -s, --start <RULE>  Rule to start from instead of `start`\n" ++
    "  -v, --verbose...    Increase log verbosity (-v debug, -vv trace)\n" ++
    "  -h, --help          Print help\n"

/-- Parses a program from a rule. -/
def parseFrom (start : Option String) (text : String) : Except Halt Value :=
  let run := Croco.grammar.run.fromRule (start.getD Croco.grammar.start)
  (run.whole (Croco.stepsFor text.length) (Input.ofText text)).1

/-- The session on standard input. -/
def crocoSession (input : List UInt8) : Ending :=
  match Session.run Croco.grammar ampleSteps Croco.render PromptTexts.standard (rawLines input)
      none with
  | .finished sink => .success sink.text
  | .refused _ => .failure
  | .exhausted _ => .failure

/-- The tree of a program, printed. -/
def crocoTree (start : Option String) (text : String) : Ending :=
  match parseFrom start text with
  | .ok value => .success (Croco.render value ++ "\n")
  | .error _ => .failure

/-- The Croco command. In a session the start rule is always the grammar's own. -/
def croco (surroundings : Surroundings) (arguments : List String) : Ending :=
  match request crocoOptions arguments with
  | .bad => .badUsage
  | .showHelp => .success crocoHelp
  | .go taken =>
      match taken.file with
      | none => crocoSession surroundings.input
      | some path =>
          match surroundings.file? path with
          | none => .failure
          | some text => crocoTree (taken.setting? "start") text

/-- The options of the JSON command. -/
def jsonOptions : List OptionSpec :=
  [⟨"pretty", 'p', .flag⟩, helpOption]

/-- The help of the JSON command. -/
def jsonHelp : String :=
  "Parse JSON with the combinator framework\n\nUsage: json-parser [OPTIONS] [FILE]\n\n" ++
    "Arguments:\n  [FILE]  File to parse; standard input when omitted\n\nOptions:\n" ++
    "  -p, --pretty  Pretty-print the result\n  -h, --help    Print help\n"

/-- The document in a text, printed. -/
def jsonDocument (pretty : Bool) (text : String) : Ending :=
  match Json.parse text with
  | .ok value =>
      .success ((if pretty then Json.indented value else Json.compact value) ++ "\n")
  | .error _ => .failure

/-- The text that the JSON command reads: the file, or standard input. -/
def jsonText (surroundings : Surroundings) : Option String → Option String
  | some path => surroundings.file? path
  | none => String.fromUTF8? ⟨surroundings.input.toArray⟩

/-- The JSON command. -/
def json (surroundings : Surroundings) (arguments : List String) : Ending :=
  match request jsonOptions arguments with
  | .bad => .badUsage
  | .showHelp => .success jsonHelp
  | .go taken =>
      match jsonText surroundings taken.file with
      | none => .failure
      | some text => jsonDocument (taken.has "pretty") text

end ScopedGrammar.Command
