/-
# Values as JSON text

Every value has a JSON text. Tokens are written as their text, the empty value and the
end mark as null, and a node as an object of its kind, its line and its children. The
compact style has no blanks; the indented style puts each member on a line of its own, two
spaces deeper than its container.
-/

import ScopedGrammar.Value.Basic

namespace ScopedGrammar.Json

/-- How containers are laid out: what stands before a member at a depth, and what stands
between a key and its value. -/
structure Style where
  lineBreak : Nat → String
  colon : String

/-- Everything on one line and without blanks. -/
def Style.compact : Style where
  lineBreak _ := ""
  colon := ":"

/-- One member a line, two spaces for each level. -/
def Style.indented : Style where
  lineBreak depth := String.ofList ('\n' :: List.replicate (2 * depth) ' ')
  colon := ": "

/-- One character of a JSON string. Quotes, backslashes and the characters below the
space are escaped, and nothing else is. -/
def escape (c : Char) : List Char :=
  if c = '"' then ['\\', '"']
  else if c = '\\' then ['\\', '\\']
  else if c = '\x08' then ['\\', 'b']
  else if c = '\x0c' then ['\\', 'f']
  else if c = '\n' then ['\\', 'n']
  else if c = '\r' then ['\\', 'r']
  else if c = '\t' then ['\\', 't']
  else if c.toNat < 0x20 then
    ['\\', 'u', '0', '0', Nat.digitChar (c.toNat / 16), Nat.digitChar (c.toNat % 16)]
  else [c]

/-- A JSON string. -/
def stringText (text : String) : String :=
  String.ofList (['"'] ++ text.toList.flatMap escape ++ ['"'])

/-- A number with a fraction or an exponent; JSON has no infinities, and null stands for
them. -/
def numberText (value : Float) : String :=
  if value.isFinite then Decimal.Layout.json.writeFloat value else "null"

/-- A container with its members laid out. An empty one is written without a break. -/
def Style.container (style : Style) (first last : String) (depth : Nat)
    (members : List String) : String :=
  if members.isEmpty then first ++ last
  else
    first ++ style.lineBreak (depth + 1) ++
      String.intercalate ("," ++ style.lineBreak (depth + 1)) members ++
      style.lineBreak depth ++ last

/-- An object, given its keys and the texts of their values. -/
def Style.object (style : Style) (depth : Nat) (entries : List (String × String)) : String :=
  style.container "\x7b" "\x7d" depth
    (entries.map fun entry => stringText entry.1 ++ style.colon ++ entry.2)

mutual

/-- The JSON text of a value inside `depth` containers. -/
def Style.write (style : Style) (depth : Nat) : Value → String
  | .empty => "null"
  | .endMark => "null"
  | .bool truth => if truth then "true" else "false"
  | .int number => Value.showInt number
  | .float value => numberText value
  | .text content => stringText content
  | .token piece => stringText piece.text
  | .list members => style.container "[" "]" depth (Style.writeList style (depth + 1) members)
  | .map entries => style.object depth (Style.writeEntries style (depth + 1) entries)
  | .node kind line children =>
      style.object depth
        [("kind", stringText kind), ("line", toString line),
          ("children",
            style.container "[" "]" (depth + 1) (Style.writeList style (depth + 2) children))]

/-- The JSON texts of a list of values. -/
def Style.writeList (style : Style) (depth : Nat) : List Value → List String
  | [] => []
  | first :: rest => Style.write style depth first :: Style.writeList style depth rest

/-- The JSON texts of the values of a map, with their keys. -/
def Style.writeEntries (style : Style) (depth : Nat) :
    List (String × Value) → List (String × String)
  | [] => []
  | first :: rest => Style.writeEntry style depth first :: Style.writeEntries style depth rest

/-- The JSON text of the value of one entry, with its key. -/
def Style.writeEntry (style : Style) (depth : Nat) : String × Value → String × String
  | (key, content) => (key, Style.write style depth content)

end

/-- The JSON text of a value without blanks. -/
def compact (value : Value) : String :=
  Style.compact.write 0 value

/-- The JSON text of a value with one member a line. -/
def indented (value : Value) : String :=
  Style.indented.write 0 value

/-- The JSON text of a position. -/
def ofPosition (place : Position) : String :=
  Style.compact.object 0
    [("line", toString place.line), ("column", toString place.column),
      ("offset", toString place.offset)]

/-- The JSON text of a token. -/
def ofToken (token : Token) : String :=
  Style.compact.object 0
    [("text", stringText token.text), ("start", ofPosition token.start),
      ("end", ofPosition token.stop)]

end ScopedGrammar.Json
