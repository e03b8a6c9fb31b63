import GenHeap.Digits

/-!
The tokens of JSON text. Of a number only natural numbers keep their value. A string keeps its
text, unless an escape in it stands for half of a surrogate pair: such a string has no text.
-/

namespace GenHeap.Json

inductive Token where
  | beginArray | endArray | beginObject | endObject | comma | colon
  | null
  | bool (b : Bool)
  | natural (n : Nat)
  /-- a number that is negative or has a fraction or an exponent, as it is written -/
  | number (literal : List Char)
  | string (text : Option String)
  deriving DecidableEq, Repr

namespace Token

def isSpace (c : Char) : Bool := c == ' ' || c == '\t' || c == '\n' || c == '\r'

/-- The tokens that are one character. -/
def ofChar? : Char → Option Token
  | '[' => some beginArray
  | ']' => some endArray
  | '\x7b' => some beginObject
  | '\x7d' => some endObject
  | ',' => some comma
  | ':' => some colon
  | _ => none

/-- The tokens that are a word. -/
def ofWord? (word : List Char) : Option Token :=
  if word = "null".toList then some null
  else if word = "true".toList then some (bool true)
  else if word = "false".toList then some (bool false)
  else none

/-! ## Numbers -/

/-- The digits at the start, and what follows; refused if there are none. -/
def digits? (cs : List Char) : Option (List Char × List Char) :=
  let ds := cs.takeWhile Char.isDigit
  if ds.isEmpty then none else some (ds, cs.drop ds.length)

/-- The digits of a whole number: no zero in front of others. -/
def whole? (cs : List Char) : Option (List Char × List Char) :=
  match cs with
  | '0' :: rest => if rest.head?.any Char.isDigit then none else some (['0'], rest)
  | _ => digits? cs

/-- Skips a fraction; answers whether there is one. -/
def fraction? : List Char → Option (Bool × List Char)
  | '.' :: rest => do return (true, (← digits? rest).2)
  | cs => some (false, cs)

/-- Skips an exponent; answers whether there is one. -/
def exponent? : List Char → Option (Bool × List Char)
  | c :: rest =>
    if c = 'e' ∨ c = 'E' then
      match rest with
      | sign :: more =>
        if sign = '+' ∨ sign = '-' then do return (true, (← digits? more).2)
        else do return (true, (← digits? rest).2)
      | [] => none
    else some (false, c :: rest)
  | [] => some (false, [])

/-- The number at the start of a text. -/
def number? (cs : List Char) : Option (Token × List Char) := do
  let negative := cs.head? == some '-'
  let (ds, rest) ← whole? (if negative then cs.tail else cs)
  let (hasFraction, rest) ← fraction? rest
  let (hasExponent, rest) ← exponent? rest
  return (if negative || hasFraction || hasExponent then number (cs.take (cs.length - rest.length))
    else natural (ofDigits 10 ds), rest)

/-! ## Strings -/

/-- A piece of a string: a character, or half of a surrogate pair. -/
inductive Piece where
  | char (c : Char)
  | high (unit : Nat)
  | low (unit : Nat)
  deriving DecidableEq, Repr

namespace Piece

/-- The piece that a UTF-16 unit stands for. -/
def ofUnit (unit : Nat) : Piece :=
  if 0xD800 ≤ unit ∧ unit < 0xDC00 then high unit
  else if 0xDC00 ≤ unit ∧ unit < 0xE000 then low unit
  else char (Char.ofNat unit)

/-- Joins the halves of pairs; nothing if a half stands alone. -/
def join? : List Piece → Option (List Char)
  | [] => some []
  | char c :: rest => (join? rest).map (c :: ·)
  | high h :: low l :: rest =>
    (join? rest).map (Char.ofNat ((h - 0xD800) * 0x400 + (l - 0xDC00) + 0x10000) :: ·)
  | _ => none

end Piece

/-- What a backslash before a character stands for, if it is not a code. -/
def escaped? : Char → Option Char
  | '"' => some '"'
  | '\\' => some '\\'
  | '/' => some '/'
  | 'b' => some '\x08'
  | 'f' => some '\x0c'
  | 'n' => some '\n'
  | 'r' => some '\r'
  | 't' => some '\t'
  | _ => none

/-- The pieces of a string up to its closing quote, and what follows. -/
def pieces? : List Char → Option (List Piece × List Char)
  | [] => none
  | '"' :: rest => some ([], rest)
  | '\\' :: 'u' :: a :: b :: c :: d :: rest =>
    if [a, b, c, d].all isHexDigit then do
      let (ps, rest) ← pieces? rest
      return (.ofUnit (ofDigits 16 [a, b, c, d]) :: ps, rest)
    else none
  | '\\' :: c :: rest => do
    let e ← escaped? c
    let (ps, rest) ← pieces? rest
    return (.char e :: ps, rest)
  | c :: rest =>
    if c.toNat < 0x20 ∨ c = '\\' then none
    else do
      let (ps, rest) ← pieces? rest
      return (.char c :: ps, rest)

def string? (cs : List Char) : Option (Token × List Char) := do
  let (ps, rest) ← pieces? cs
  return (string ((Piece.join? ps).map String.ofList), rest)

/-! ## Text -/

/-- The token at the start of a text that starts with no space. -/
def next? (c : Char) (rest : List Char) : Option (Token × List Char) :=
  match ofChar? c with
  | some t => some (t, rest)
  | none =>
    if c = '"' then string? rest
    else if c.isAlpha then
      let word := (c :: rest).takeWhile Char.isAlpha
      (ofWord? word).map fun t => (t, (c :: rest).drop word.length)
    else number? (c :: rest)

/-- The tokens of a text; every token takes a character at least, so `fuel` may be the length. -/
def ofChars? : Nat → List Char → Option (List Token)
  | _, [] => some []
  | 0, _ :: _ => none
  | fuel + 1, c :: rest =>
    if isSpace c then ofChars? fuel rest
    else do
      let (t, rest) ← next? c rest
      return t :: (← ofChars? fuel rest)

def ofText? (s : String) : Option (List Token) :=
  let cs := s.toList
  ofChars? cs.length cs

end Token

end GenHeap.Json
