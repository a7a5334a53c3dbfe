/-! # JSON

JSON documents as data, and their text: on one line, or with a line for every item.
Objects keep the order of their fields, repeated keys included.
-/

namespace Stencil

inductive Json where
  | null
  | bool (b : Bool)
  /-- A number, by its text. -/
  | number (literal : String)
  | string (s : String)
  | array (items : List Json)
  | object (fields : List (String × Json))
  deriving Inhabited

namespace Json

/-- The digits of a small number in base sixteen, two at least. -/
def hexByte (n : Nat) : List Char := [Nat.digitChar (n / 16), Nat.digitChar (n % 16)]

/-- One character inside quotes. -/
def escapedChar (c : Char) : List Char :=
  match c with
  | '"' => ['\\', '"']
  | '\\' => ['\\', '\\']
  | '\x08' => ['\\', 'b']
  | '\x0c' => ['\\', 'f']
  | '\n' => ['\\', 'n']
  | '\r' => ['\\', 'r']
  | '\t' => ['\\', 't']
  | c => if c.toNat < 0x20 then ['\\', 'u', '0', '0'] ++ hexByte c.toNat else [c]

/-- The characters of a text as they stand between quotes. -/
def escaped (cs : List Char) : List Char := cs.flatMap escapedChar

/-- A text between quotes. -/
def quote (s : String) : String := String.ofList ('"' :: escaped s.toList ++ ['"'])

mutual

/-- The text of a document on one line, without spaces. -/
def print : Json → String
  | null => "null"
  | bool b => if b then "true" else "false"
  | number literal => literal
  | string s => quote s
  | array items => "[" ++ String.intercalate "," (printItems items) ++ "]"
  | object fields => "\x7b" ++ String.intercalate "," (printFields fields) ++ "\x7d"

def printItems : List Json → List String
  | [] => []
  | j :: js => print j :: printItems js

def printFields : List (String × Json) → List String
  | [] => []
  | (key, j) :: fields => (quote key ++ ":" ++ print j) :: printFields fields

end

/-- A new line, indented by two spaces a level. -/
def newline (level : Nat) : String :=
  "\n" ++ String.ofList (List.replicate (2 * level) ' ')

/-- Items between brackets, each on a line of its own. -/
def spread (opening closing : String) (level : Nat) : List String → String
  | [] => opening ++ closing
  | items =>
      opening ++ newline (level + 1) ++ String.intercalate ("," ++ newline (level + 1)) items ++
        newline level ++ closing

mutual

/-- The text of a document with a line for every item and field. -/
def pretty (level : Nat) : Json → String
  | null => "null"
  | bool b => if b then "true" else "false"
  | number literal => literal
  | string s => quote s
  | array items => spread "[" "]" level (prettyItems (level + 1) items)
  | object fields => spread "\x7b" "\x7d" level (prettyFields (level + 1) fields)

def prettyItems (level : Nat) : List Json → List String
  | [] => []
  | j :: js => pretty level j :: prettyItems level js

def prettyFields (level : Nat) : List (String × Json) → List String
  | [] => []
  | (key, j) :: fields => (quote key ++ ": " ++ pretty level j) :: prettyFields level fields

end

end Json

end Stencil
