import Stencil.Json.Basic
import Stencil.Number.Text

/-! # Reading JSON

A reader takes a document off the beginning of a text and gives the rest. Documents that
are kept must denote something: their numbers lie in the range of doubles, their strings
hold no half of a surrogate pair, and they are nested to a limited depth. What is only
skipped has to be well formed and no more.
-/

namespace Stencil.Json

/-- White space between the parts of a document. -/
def isSpace (c : Char) : Bool := c == ' ' || c == '\n' || c == '\t' || c == '\r'

def skipSpace (cs : List Char) : List Char := cs.dropWhile isSpace

/-- How deep arrays and objects may be nested in each other. -/
def maxDepth : Nat := 127

/-! ## Strings -/

/-- The value of a hexadecimal digit. -/
def hexDigit? (c : Char) : Option Nat :=
  if c.isDigit then some (c.toNat - '0'.toNat)
  else if 'a' ≤ c ∧ c ≤ 'f' then some (c.toNat - 'a'.toNat + 10)
  else if 'A' ≤ c ∧ c ≤ 'F' then some (c.toNat - 'A'.toNat + 10)
  else none

/-- The code unit that four hexadecimal digits write. -/
def unit? (a b c d : Char) : Option Nat := do
  return (((← hexDigit? a) * 16 + (← hexDigit? b)) * 16 + (← hexDigit? c)) * 16 + (← hexDigit? d)

/-- The character of an escape with one letter. -/
def escape? : Char → Option Char
  | '"' => some '"'
  | '\\' => some '\\'
  | '/' => some '/'
  | 'b' => some '\x08'
  | 'f' => some '\x0c'
  | 'n' => some '\n'
  | 'r' => some '\r'
  | 't' => some '\t'
  | _ => none

def isLeading (unit : Nat) : Bool := 0xD800 ≤ unit && unit < 0xDC00
def isTrailing (unit : Nat) : Bool := 0xDC00 ≤ unit && unit < 0xE000

/-- The next character of a string behind a backslash and a `u`, and the rest. A leading
surrogate needs the trailing one directly behind it. -/
def readUnit? : List Char → Option (Char × List Char)
  | a :: b :: c :: d :: rest => do
      let unit ← unit? a b c d
      if isTrailing unit then none
      else if isLeading unit then
        match rest with
        | '\\' :: 'u' :: e :: f :: g :: h :: rest => do
            let low ← unit? e f g h
            if isTrailing low then
              some (Char.ofNat (0x10000 + (unit - 0xD800) * 0x400 + (low - 0xDC00)), rest)
            else none
        | _ => none
      else some (Char.ofNat unit, rest)
  | _ => none

/-- The next character of a string and the rest. -/
def readChar? : List Char → Option (Char × List Char)
  | '\\' :: 'u' :: rest => readUnit? rest
  | '\\' :: e :: rest => (escape? e).map fun c => (c, rest)
  | c :: rest => if c == '\\' || c.toNat < 0x20 then none else some (c, rest)
  | [] => none

/-- A string behind its opening quote, and the rest behind its closing one. -/
def readString? (cs : List Char) : Option (List Char × List Char) :=
  match cs with
  | '"' :: rest => some ([], rest)
  | cs =>
      match readChar? cs with
      | none => none
      | some (c, rest) =>
          if rest.length < cs.length then
            (readString? rest).map fun (more, rest) => (c :: more, rest)
          else none
termination_by cs.length

/-- The rest behind the closing quote of a string that need not denote a text. -/
def skipString? : List Char → Option (List Char)
  | '"' :: rest => some rest
  | '\\' :: 'u' :: a :: b :: c :: d :: rest =>
      if (unit? a b c d).isSome then skipString? rest else none
  | '\\' :: e :: rest => if (escape? e).isSome then skipString? rest else none
  | c :: rest => if c == '\\' || c.toNat < 0x20 then none else skipString? rest
  | [] => none

/-! ## Numbers -/

/-- At least one digit, and the rest. -/
def digits? (cs : List Char) : Option (List Char × List Char) :=
  match cs.takeWhile Char.isDigit with
  | [] => none
  | digits => some (digits, cs.dropWhile Char.isDigit)

/-- The digits behind a point, if there is one. -/
def fraction? : List Char → Option (List Char × List Char)
  | '.' :: rest => digits? rest
  | rest => some ([], rest)

/-- The power of ten behind a number, zero if there is none. -/
def exponent? : List Char → Option (Int × List Char)
  | c :: rest =>
      if c == 'e' || c == 'E' then
        match rest with
        | '-' :: rest => (digits? rest).map fun (ds, rest) => (-(Number.ofDigits ds : Int), rest)
        | '+' :: rest => (digits? rest).map fun (ds, rest) => ((Number.ofDigits ds : Int), rest)
        | rest => (digits? rest).map fun (ds, rest) => ((Number.ofDigits ds : Int), rest)
      else some (0, c :: rest)
  | [] => some (0, [])

/-- The magnitude of a number without leading zeros, and the rest. -/
def magnitude? (cs : List Char) : Option (Float × List Char) := do
  let (whole, rest) ← digits? cs
  if whole.length > 1 && whole.head? == some '0' then none
  else
    let (fraction, rest) ← fraction? rest
    let (exponent, rest) ← exponent? rest
    return (Number.ofDecimal (whole ++ fraction) (exponent - fraction.length), rest)

/-- A number's magnitude and the rest behind it. -/
def readNumber? (cs : List Char) : Option (Float × List Char) :=
  match cs with
  | '-' :: rest => magnitude? rest
  | rest => magnitude? rest

/-- The characters of `cs` before its suffix `rest`. -/
def before (cs rest : List Char) : String := String.ofList (cs.take (cs.length - rest.length))

/-! ## Scalars -/

/-- A document without parts of its own. With `strict` it has to denote something. -/
def readScalar? (strict : Bool) (cs : List Char) : Option (Json × List Char) :=
  match cs with
  | 'n' :: 'u' :: 'l' :: 'l' :: rest => some (null, rest)
  | 't' :: 'r' :: 'u' :: 'e' :: rest => some (bool true, rest)
  | 'f' :: 'a' :: 'l' :: 's' :: 'e' :: rest => some (bool false, rest)
  | '"' :: inside =>
      if strict then (readString? inside).map fun (s, rest) => (string (String.ofList s), rest)
      else (skipString? inside).map fun rest => (null, rest)
  | cs =>
      (readNumber? cs).bind fun (x, rest) =>
        if strict && x.isInf then none else some (number (before cs rest), rest)

/-! ## Documents -/

mutual

/-- The rest behind a well-formed document. -/
def skip? (cs : List Char) : Option (List Char) :=
  match skipSpace cs with
  | '[' :: inside =>
      if inside.length < cs.length then
        match skipSpace inside with
        | ']' :: rest => some rest
        | _ => skipItems? inside
      else none
  | '{' :: inside =>
      if inside.length < cs.length then
        match skipSpace inside with
        | '}' :: rest => some rest
        | _ => skipFields? inside
      else none
  | scalar => (readScalar? false scalar).map (·.2)
termination_by (cs.length, 0)

/-- The rest behind the items of an array, of which there is at least one. -/
def skipItems? (cs : List Char) : Option (List Char) :=
  match skip? cs with
  | none => none
  | some rest =>
      match skipSpace rest with
      | ',' :: rest => if rest.length < cs.length then skipItems? rest else none
      | ']' :: rest => some rest
      | _ => none
termination_by (cs.length, 1)

/-- The rest behind the fields of an object, of which there is at least one. -/
def skipFields? (cs : List Char) : Option (List Char) :=
  match skipSpace cs with
  | '"' :: key =>
      match (skipString? key).map skipSpace with
      | some (':' :: inside) =>
          if inside.length < cs.length then
            match skip? inside with
            | none => none
            | some rest =>
                match skipSpace rest with
                | ',' :: rest => if rest.length < cs.length then skipFields? rest else none
                | '}' :: rest => some rest
                | _ => none
          else none
      | _ => none
  | _ => none
termination_by (cs.length, 1)

end

mutual

/-- A document nested at most `depth` deep, and the rest. -/
def read? (depth : Nat) (cs : List Char) : Option (Json × List Char) :=
  match skipSpace cs, depth with
  | '[' :: _, 0 => none
  | '{' :: _, 0 => none
  | '[' :: inside, depth + 1 =>
      match skipSpace inside with
      | ']' :: rest => some (array [], rest)
      | _ => (readItems? depth inside).map fun (items, rest) => (array items, rest)
  | '{' :: inside, depth + 1 =>
      match skipSpace inside with
      | '}' :: rest => some (object [], rest)
      | _ => (readFields? (fun _ => true) depth inside).map fun (fields, rest) =>
          (object fields, rest)
  | scalar, _ => readScalar? true scalar
termination_by (depth, 0, 0)

/-- The items of an array, of which there is at least one, and the rest. -/
def readItems? (depth : Nat) (cs : List Char) : Option (List Json × List Char) :=
  match read? depth cs with
  | none => none
  | some (item, rest) =>
      match skipSpace rest with
      | ',' :: rest =>
          if rest.length < cs.length then
            (readItems? depth rest).map fun (items, rest) => (item :: items, rest)
          else none
      | ']' :: rest => some ([item], rest)
      | _ => none
termination_by (depth, 1, cs.length)

/-- The fields of an object, of which there is at least one, and the rest. Only the
fields whose keys are to be kept are in the answer; the others are skipped. -/
def readFields? (keep : String → Bool) (depth : Nat) (cs : List Char) :
    Option (List (String × Json) × List Char) :=
  match skipSpace cs with
  | '"' :: key =>
      match readString? key with
      | none => none
      | some (key, rest) =>
          match skipSpace rest with
          | ':' :: inside =>
              let key := String.ofList key
              let value :=
                if keep key then (read? depth inside).map fun (j, rest) => ([(key, j)], rest)
                else (skip? inside).map fun rest => ([], rest)
              match value with
              | none => none
              | some (field, rest) =>
                  match skipSpace rest with
                  | ',' :: rest =>
                      if rest.length < cs.length then
                        (readFields? keep depth rest).map fun (fields, rest) =>
                          (field ++ fields, rest)
                      else none
                  | '}' :: rest => some (field, rest)
                  | _ => none
          | _ => none
  | _ => none
termination_by (depth, 1, cs.length)

end

/-- A document of which, if it is an object, only the fields with known keys matter. -/
def readRecord? (known : List String) (depth : Nat) (cs : List Char) :
    Option (Json × List Char) :=
  match skipSpace cs, depth with
  | '{' :: inside, depth + 1 =>
      match skipSpace inside with
      | '}' :: rest => some (object [], rest)
      | _ => (readFields? known.contains depth inside).map fun (fields, rest) =>
          (object fields, rest)
  | _, depth => read? depth cs

/-- The records of an object by their keys, of which there is at least one. -/
def readRecords? (known : List String) (depth : Nat) (cs : List Char) :
    Option (List (String × Json) × List Char) :=
  match skipSpace cs with
  | '"' :: key =>
      match readString? key with
      | none => none
      | some (key, rest) =>
          match skipSpace rest with
          | ':' :: inside =>
              match readRecord? known depth inside with
              | none => none
              | some (record, rest) =>
                  match skipSpace rest with
                  | ',' :: rest =>
                      if rest.length < cs.length then
                        (readRecords? known depth rest).map fun (records, rest) =>
                          ((String.ofList key, record) :: records, rest)
                      else none
                  | '}' :: rest => some ([(String.ofList key, record)], rest)
                  | _ => none
          | _ => none
  | _ => none
termination_by cs.length

/-- What a reader makes of a whole text. -/
def whole? {α : Type} (reader : List Char → Option (α × List Char)) (text : String) : Option α :=
  match reader text.toList with
  | some (a, rest) => if (skipSpace rest).isEmpty then some a else none
  | none => none

/-- The record that a text holds. -/
def record? (known : List String) (text : String) : Option Json :=
  whole? (readRecord? known maxDepth) text

/-- The records that the object in a text holds, by their keys. -/
def records? (known : List String) (text : String) : Option (List (String × Json)) :=
  whole? (fun cs =>
    match skipSpace cs with
    | '{' :: inside =>
        match skipSpace inside with
        | '}' :: rest => some ([], rest)
        | _ => readRecords? known (maxDepth - 1) inside
    | _ => none) text

end Stencil.Json
