import Stencil.Number.Text
import Stencil.Text.Quoted

/-! # Values

The data that a template shows: what a JSON text can hold, and functions without
arguments. Objects keep the order of their fields. A function bears a number, by which
two functions with the same result are told apart.

A function stands for a closure of the host program that answers alike at every call and
does nothing else: its one result is part of the value. Closures with a state of their own
are not among the values.
-/

namespace Stencil

inductive Value where
  | null
  | bool (b : Bool)
  | number (x : Float)
  | string (s : String)
  | array (items : List Value)
  | object (fields : List (String × Value))
  | function (identity : Nat) (result : Value)
  deriving Inhabited

namespace Value

/-- Puts a field: a key that is there keeps its place, a new one comes last. -/
def putField (key : String) (value : Value) : List (String × Value) → List (String × Value)
  | [] => [(key, value)]
  | (k, v) :: fields =>
      if k = key then (k, value) :: fields else (k, v) :: putField key value fields

/-- The object with these fields; of a repeated key the first place and the last value count. -/
def ofFields (fields : List (String × Value)) : Value :=
  .object (fields.foldl (fun done (key, value) => putField key value done) [])

def isNull : Value → Bool
  | null => true
  | _ => false

def isFunction : Value → Bool
  | function _ _ => true
  | _ => false

def array? : Value → Option (List Value)
  | array items => some items
  | _ => none

def object? : Value → Option (List (String × Value))
  | object fields => some fields
  | _ => none

def string? : Value → Option String
  | string s => some s
  | _ => none

/-- The member of an object under a key, or of an array at a decimal index. -/
def get? (v : Value) (segment : String) : Option Value :=
  match v with
  | object fields => fields.lookup segment
  | array items => (Number.index? segment.toList).bind fun i => items[i]?
  | _ => none

/-- The result of calling a function. -/
def invoke? : Value → Option Value
  | function _ result => some result
  | _ => none

/-- The finite number that a value is or writes. -/
def finite? (v : Value) : Option Float :=
  let x := match v with
    | number x => some x
    | string s => Number.read? (Text.trim s.toList)
    | _ => none
  x.filter Float.isFinite

/-- The name of a value's type. -/
def typeName : Value → String
  | null => "null"
  | bool _ => "boolean"
  | number _ => "number"
  | string _ => "string"
  | array _ => "array"
  | object _ => "object"
  | function _ _ => "function"

mutual

/-- The text that is written into a document for a value. -/
def text : Value → String
  | null => ""
  | bool b => if b then "true" else "false"
  | number x => Number.text x
  | string s => s
  | array items => String.intercalate "," (texts items)
  | object _ => "[object Object]"
  | function _ _ => "function"

/-- The texts of values in order. -/
def texts : List Value → List String
  | [] => []
  | v :: vs => text v :: texts vs

end

mutual

/-- The form in which messages show a value. -/
def shown : Value → String
  | null => "null"
  | bool b => if b then "true" else "false"
  | number x => Number.text x
  | string s => Text.quoted s
  | array items => "[" ++ String.intercalate ", " (shownItems items) ++ "]"
  | object fields => "\x7b" ++ String.intercalate ", " (shownFields fields) ++ "\x7d"
  | function _ _ => "[function]"

def shownItems : List Value → List String
  | [] => []
  | v :: vs => shown v :: shownItems vs

def shownFields : List (String × Value) → List String
  | [] => []
  | (key, v) :: fields => (Text.quoted key ++ ": " ++ shown v) :: shownFields fields

end

mutual

/-- Equality: of objects whatever the order of their fields, of functions by number. -/
def same : Value → Value → Bool
  | null, null => true
  | bool a, bool b => a == b
  | number x, number y => x == y
  | string s, string t => s == t
  | array xs, array ys => sameItems xs ys
  | object xs, object ys => xs.length == ys.length && sameFields xs ys
  | function i _, function j _ => i == j
  | _, _ => false

def sameItems : List Value → List Value → Bool
  | [], [] => true
  | x :: xs, y :: ys => same x y && sameItems xs ys
  | _, _ => false

/-- Whether each of the first fields is among the second ones, with an equal value. -/
def sameFields : List (String × Value) → List (String × Value) → Bool
  | [], _ => true
  | (key, x) :: xs, ys =>
      (match ys.lookup key with
        | some y => same x y
        | none => false) && sameFields xs ys

end

instance : BEq Value := ⟨same⟩

end Value

end Stencil
