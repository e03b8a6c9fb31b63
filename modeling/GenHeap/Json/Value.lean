import GenHeap.Decimal
import GenHeap.Json.Token

/-!
JSON values: reading them from tokens, and writing them over several lines.

Reading keeps the open arrays and objects on a stack and takes one token at a time. Writing puts
each entry on a line of its own, two spaces further in than its container; an empty container
stays on one line.
-/

namespace GenHeap

inductive Json where
  | null
  | bool (b : Bool)
  | natural (n : Nat)
  /-- a number that is no natural number, as it is written -/
  | number (literal : List Char)
  /-- a string, without its text if that has half of a surrogate pair -/
  | string (text : Option String)
  | array (values : List Json)
  /-- the entries in their order, also those with the same key -/
  | object (entries : List (Option String × Json))

namespace Json

/-- An open container: what it holds already, the latest first, and for an object the key that
waits for its value. -/
inductive Frame where
  | array (done : List Json)
  | object (done : List (Option String × Json)) (key : Option String)

/-- The value that a token is by itself. -/
def ofToken? : Token → Option Json
  | .null => some null
  | .bool b => some (bool b)
  | .natural n => some (natural n)
  | .number literal => some (number literal)
  | .string text => some (string text)
  | _ => none

mutual

/-- Reads a value inside the open containers. -/
def readValue (stack : List Frame) : List Token → Option Json
  | .beginArray :: .endArray :: rest => readRest stack (array []) rest
  | .beginArray :: rest => readValue (.array [] :: stack) rest
  | .beginObject :: .endObject :: rest => readRest stack (object []) rest
  | .beginObject :: .string key :: .colon :: rest => readValue (.object [] key :: stack) rest
  | token :: rest =>
    match ofToken? token with
    | some v => readRest stack v rest
    | none => none
  | [] => none

/-- Puts a value into the innermost container and reads on. -/
def readRest (stack : List Frame) (v : Json) : List Token → Option Json
  | [] =>
    match stack with
    | [] => some v
    | _ => none
  | .comma :: .string key :: .colon :: rest =>
    match stack with
    | .object done k :: outer => readValue (.object ((k, v) :: done) key :: outer) rest
    | _ => none
  | .comma :: rest =>
    match stack with
    | .array done :: outer => readValue (.array (v :: done) :: outer) rest
    | _ => none
  | .endArray :: rest =>
    match stack with
    | .array done :: outer => readRest outer (array (v :: done).reverse) rest
    | _ => none
  | .endObject :: rest =>
    match stack with
    | .object done k :: outer => readRest outer (object ((k, v) :: done).reverse) rest
    | _ => none
  | _ => none

end

/-- The value that a text holds. -/
def ofText? (s : String) : Option Json := do readValue [] (← Token.ofText? s)

/-! ## Writing -/

/-- A character of a string as it is written. -/
def escape (c : Char) : List Char :=
  match c with
  | '"' => ['\\', '"']
  | '\\' => ['\\', '\\']
  | '\n' => ['\\', 'n']
  | '\r' => ['\\', 'r']
  | '\t' => ['\\', 't']
  | '\x08' => ['\\', 'b']
  | '\x0c' => ['\\', 'f']
  | _ =>
    if c.toNat < 0x20 then
      let digits := Nat.toDigits 16 c.toNat
      '\\' :: 'u' :: List.replicate (4 - digits.length) '0' ++ digits
    else [c]

def quote (s : String) : List Char := '"' :: s.toList.flatMap escape ++ ['"']

/-- The start of a line at some depth. -/
def newLine (depth : Nat) : List Char := '\n' :: List.replicate (2 * depth) ' '

mutual

/-- A value as it is written at some depth. -/
def write (depth : Nat) : Json → List Char
  | null => "null".toList
  | bool b => (if b then "true" else "false").toList
  | natural n => Nat.toDigits 10 n
  | number literal => literal
  | string text => quote (text.getD "")
  | array [] => ['[', ']']
  | array (v :: vs) =>
    '[' :: newLine (depth + 1) ++ write (depth + 1) v ++ writeValues (depth + 1) vs ++
      newLine depth ++ [']']
  | object [] => ['\x7b', '\x7d']
  | object ((k, v) :: es) =>
    '\x7b' :: newLine (depth + 1) ++ quote (k.getD "") ++ [':', ' '] ++ write (depth + 1) v ++
      writeEntries (depth + 1) es ++ newLine depth ++ ['\x7d']

def writeValues (depth : Nat) : List Json → List Char
  | [] => []
  | v :: vs => ',' :: newLine depth ++ write depth v ++ writeValues depth vs

def writeEntries (depth : Nat) : List (Option String × Json) → List Char
  | [] => []
  | (k, v) :: es =>
    ',' :: newLine depth ++ quote (k.getD "") ++ [':', ' '] ++ write depth v ++
      writeEntries depth es

end

def text (v : Json) : String := String.ofList (write 0 v)

mutual

/-- A value as it is written on one line, without blanks between its parts. -/
def writeLine : Json → List Char
  | array [] => ['[', ']']
  | array (v :: vs) => '[' :: writeLine v ++ writeLineValues vs ++ [']']
  | object [] => ['\x7b', '\x7d']
  | object ((k, v) :: es) =>
    '\x7b' :: quote (k.getD "") ++ ':' :: writeLine v ++ writeLineEntries es ++ ['\x7d']
  | v => write 0 v

def writeLineValues : List Json → List Char
  | [] => []
  | v :: vs => ',' :: writeLine v ++ writeLineValues vs

def writeLineEntries : List (Option String × Json) → List Char
  | [] => []
  | (k, v) :: es => ',' :: quote (k.getD "") ++ ':' :: writeLine v ++ writeLineEntries es

end

/-- The text of a value on one line. -/
def line (v : Json) : String := String.ofList (writeLine v)

/-! ## Access -/

/-- The value of a key that occurs exactly once. -/
def single? (entries : List (Option String × Json)) (key : String) : Option Json :=
  match entries.filter (·.1 == some key) with
  | [(_, v)] => some v
  | _ => none

/-- The values of a record with the given field names: an object that has each of them once, or an
array of exactly as many values. Every key of the object has to have a text. -/
def fields? (names : List String) : Json → Option (List Json)
  | object entries =>
    if entries.all (·.1.isSome) then names.mapM (single? entries) else none
  | array values => if values.length = names.length then some values else none
  | _ => none

/-- A case with one value, and without one: an object with the case as its only key. -/
def case? : Json → Option (String × Json)
  | object [(some name, v)] => some (name, v)
  | _ => none

/-- A natural number that is no larger than the bound. -/
def upTo? (largest : Nat) : Json → Option Nat
  | natural n => if n ≤ largest then some n else none
  | _ => none

/-- The double nearest to a number. -/
def float? : Json → Option Float
  | natural n => some (Decimal.toFloat { digits := Nat.toDigits 10 n })
  | number literal => some (Decimal.ofText literal).toFloat
  | _ => none

/-- A whole number without fraction and exponent. -/
def int? : Json → Option Int
  | natural n => some n
  | number ('-' :: digits) =>
    if digits.all Char.isDigit then some (-(ofDigits 10 digits : Int)) else none
  | _ => none

def bool? : Json → Option Bool
  | bool b => some b
  | _ => none

def string? : Json → Option String
  | string text => text
  | _ => none

def array? : Json → Option (List Json)
  | array values => some values
  | _ => none

end Json

end GenHeap
