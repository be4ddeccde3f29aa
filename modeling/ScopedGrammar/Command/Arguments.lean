/-
# Command-line arguments

A command takes an optional file and some options. An option has a long name, may have a
short one, and is either a flag, a counter that may be given any number of times, or a
setting with a value. After two dashes everything is a file. A bad command line is told
apart from a request for help, and the first of either that is met decides.
-/

namespace ScopedGrammar.Command

/-- What an option does. -/
inductive OptionKind where
  /-- May be given once. -/
  | flag
  /-- May be given any number of times. -/
  | counter
  /-- Takes a value, and may be given once. -/
  | setting
  /-- Asks for help. -/
  | help
  deriving DecidableEq

/-- An option: its long name without the dashes, its short one, and what it does. -/
structure OptionSpec where
  long : String
  short : Char
  kind : OptionKind

/-- The arguments that have been taken: the file, the flags and counters that were given,
and the settings with their values. -/
structure Taken where
  file : Option String
  given : List String
  settings : List (String × String)

/-- What a command line asks for. -/
inductive Request where
  | go (taken : Taken)
  | showHelp
  | bad

/-- No argument has been taken. -/
def Taken.none : Taken where
  file := Option.none
  given := []
  settings := []

/-- Whether an option has been given before. -/
def Taken.has (taken : Taken) (name : String) : Bool :=
  taken.given.contains name

/-- The value of a setting. -/
def Taken.setting? (taken : Taken) (name : String) : Option String :=
  (taken.settings.find? fun entry => entry.1 == name).map (·.2)

/-- Records an option without a value. Only counters may be given twice. -/
def Taken.addFlag (taken : Taken) (spec : OptionSpec) : Option Taken :=
  if spec.kind ≠ .counter ∧ taken.has spec.long then Option.none
  else some { taken with given := spec.long :: taken.given }

/-- Records a setting, which may be given once. -/
def Taken.addSetting (taken : Taken) (spec : OptionSpec) (value : String) : Option Taken :=
  if (taken.setting? spec.long).isSome then Option.none
  else some { taken with settings := (spec.long, value) :: taken.settings }

/-- Records a file. There is only one, and its path is not empty. -/
def Taken.addFile (taken : Taken) (path : String) : Option Taken :=
  if taken.file.isSome || path.isEmpty then Option.none else some { taken with file := some path }

/-- Whether an argument may be the value of the setting before it: it does not look like
an option. A single dash is a value. -/
def isValue (argument : String) : Bool :=
  match argument.toList with
  | '-' :: _ :: _ => false
  | _ => true

/-- What is left to do after a part of the command line. -/
inductive Progress where
  /-- The part was taken. -/
  | took (taken : Taken)
  /-- The part was a setting whose value is the next argument. -/
  | needsValue (spec : OptionSpec) (taken : Taken)
  | stop (request : Request)

/-- Progress after a step that may have failed. -/
def Progress.ofTaken : Option Taken → Progress
  | some taken => .took taken
  | Option.none => .stop .bad

/-- A long option, with its value if one is joined to it by an equals sign. -/
def takeLong (specs : List OptionSpec) (taken : Taken) (body : List Char) : Progress :=
  let name := String.ofList (body.takeWhile (· != '='))
  let joined := match body.dropWhile (· != '=') with
    | [] => Option.none
    | _ :: value => some (String.ofList value)
  match specs.find? fun spec => spec.long == name with
  | Option.none => .stop .bad
  | some spec =>
      match spec.kind, joined with
      | .setting, some value => .ofTaken (taken.addSetting spec value)
      | .setting, Option.none => .needsValue spec taken
      | .help, Option.none => .stop .showHelp
      | _, Option.none => .ofTaken (taken.addFlag spec)
      | _, some _ => .stop .bad

/-- A run of short options. A setting takes the rest of the run as its value, without an
equals sign in front of it. -/
def takeShort (specs : List OptionSpec) (taken : Taken) : List Char → Progress
  | [] => .took taken
  | letter :: rest =>
      match specs.find? fun spec => spec.short == letter with
      | Option.none => .stop .bad
      | some spec =>
          match spec.kind with
          | .help => .stop .showHelp
          | .setting =>
              match rest with
              | [] => .needsValue spec taken
              | '=' :: value => .ofTaken (taken.addSetting spec (String.ofList value))
              | value => .ofTaken (taken.addSetting spec (String.ofList value))
          | _ =>
              match taken.addFlag spec with
              | Option.none => .stop .bad
              | some more => takeShort specs more rest

/-- One argument, before two dashes have been seen. -/
def takeArgument (specs : List OptionSpec) (taken : Taken) (argument : String) : Progress :=
  match argument.toList with
  | '-' :: '-' :: body => takeLong specs taken body
  | '-' :: letter :: rest => takeShort specs taken (letter :: rest)
  | _ => .ofTaken (taken.addFile argument)

/-- The files after two dashes. -/
def takeFiles (taken : Taken) : List String → Request
  | [] => .go taken
  | path :: rest =>
      match taken.addFile path with
      | Option.none => .bad
      | some more => takeFiles more rest

/-- A whole command line. -/
def take (specs : List OptionSpec) (taken : Taken) : List String → Request
  | [] => .go taken
  | argument :: rest =>
      if argument = "--" then takeFiles taken rest
      else
        match takeArgument specs taken argument with
        | .stop request => request
        | .took more => take specs more rest
        | .needsValue spec more =>
            match rest with
            | [] => .bad
            | value :: further =>
                if isValue value then
                  match more.addSetting spec value with
                  | some evenMore => take specs evenMore further
                  | Option.none => .bad
                else .bad

/-- What a command line asks for. -/
def request (specs : List OptionSpec) (arguments : List String) : Request :=
  take specs Taken.none arguments

end ScopedGrammar.Command
