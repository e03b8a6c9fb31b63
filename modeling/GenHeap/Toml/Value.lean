import GenHeap.Decimal
import GenHeap.Scan

/-!
TOML values and their text: strings in four notations, numbers, truth values, dates and times,
arrays over several lines, and inline tables on one.

A table under construction remembers how each of its tables came about, since a table must not be
defined twice: a header opens a table that only longer headers imply so far, and dotted keys
extend only tables that dotted keys made.
-/

namespace GenHeap.Toml

inductive Value where
  | string (s : String)
  | integer (n : Int)
  | float (x : Float)
  | bool (b : Bool)
  /-- a date, a time of day, or both -/
  | time
  | array (values : List Value)
  | table (entries : List (String × Value))

/-- How a table came about. -/
inductive Origin where
  /-- by a header of its own, or as a value -/
  | header
  /-- as a part of a longer header -/
  | implied
  /-- as a part of a dotted key -/
  | dotted
  deriving DecidableEq, Repr

/-- What a key of a document under construction stands for. -/
inductive Item where
  | value (v : Value)
  | table (origin : Origin) (entries : List (String × Item))
  /-- an array of tables, one for each of its headers, the latest first -/
  | tables (latest : List (String × Item)) (earlier : List (List (String × Item)))

abbrev Entries := List (String × Item)

namespace Item

mutual

/-- The finished value of an item. -/
def toValue : Item → Value
  | value v => v
  | table _ entries => .table (finish entries)
  | tables latest earlier => .array (finishAll earlier ++ [.table (finish latest)])

/-- The finished entries. -/
def finish : List (String × Item) → List (String × Value)
  | [] => []
  | (key, item) :: rest => (key, item.toValue) :: finish rest

/-- The finished tables, the earliest first. -/
def finishAll : List (List (String × Item)) → List Value
  | [] => []
  | entries :: rest => finishAll rest ++ [.table (finish entries)]

end

end Item

namespace Entries

/-- Puts an item in place of the one with its key, or at the end. -/
def put (key : String) (item : Item) : Entries → Entries
  | [] => [(key, item)]
  | (k, old) :: rest => if k = key then (k, item) :: rest else (k, old) :: put key item rest

/-- Changes the table that a path leads to, through the latest table of an array of tables. Tables
on the way that are not there are made as `made` says; a path of dotted keys leads through no
table with a header. -/
def within (made : Origin) (change : Origin → Entries → Option Entries) :
    List String → Origin → Entries → Option Entries
  | [], origin, entries => change origin entries
  | key :: path, _, entries =>
    match entries.lookup key with
    | none => do return entries.put key (.table made (← within made change path made []))
    | some (.value _) => none
    | some (.table origin inner) =>
      if made = .dotted ∧ origin = .header then none
      else do return entries.put key (.table origin (← within made change path origin inner))
    | some (.tables latest earlier) =>
      do return entries.put key (.tables (← within made change path .header latest) earlier)

/-- Adds a new key with a value below dotted keys; the last table on the way has to be one that
dotted keys made. -/
def define (path : List String) (key : String) (v : Value) (origin : Origin) (entries : Entries) :
    Option Entries :=
  within .dotted (fun last es =>
    if (last = .dotted) = (path = []) ∨ (es.lookup key).isSome then none
    else some (es.put key (.value v))) path origin entries

end Entries

/-- The table with the given definitions, each by dotted keys, a key and a value. -/
def tableOf? (definitions : List (List String × String × Value)) : Option Value := do
  let entries ← definitions.foldlM (fun es (path, key, v) =>
    Entries.define path key v .header es) ([] : Entries)
  return (Item.table .header entries).toValue

/-! ## Blanks and comments -/

def isBlank (c : Char) : Bool := c == ' ' || c == '\t'

def scanBlanks : Scan Unit := modify (·.dropWhile isBlank)

def scanNewline : Scan Unit := Scan.literal "\n" <|> Scan.literal "\r\n"

def isCommentChar (c : Char) : Bool := c == '\t' || (0x20 ≤ c.toNat && c.toNat != 0x7F)

def scanComment : Scan Unit := do
  Scan.char '#'
  let _ ← Scan.takeWhile isCommentChar

/-- Reads the rest of a line: blanks, a comment, and the end of the line or of the text. -/
def scanLineEnd : Scan Unit := do
  scanBlanks
  let _ ← Scan.optional scanComment
  if !(← Scan.isEnd) then scanNewline

/-- Skips blanks, comments and ends of lines. -/
def scanFiller : Scan Unit := do
  let _ ← Scan.many (scanComment <|> scanNewline <|> do let _ ← Scan.takeWhile1 isBlank)

/-! ## Strings -/

/-- Whether a character may stand in a string between quotes as it is. -/
def isQuotedChar (c : Char) : Bool := isCommentChar c && c != '"' && c != '\\'

def isLiteralChar (c : Char) : Bool := isCommentChar c && c != '\''

/-- Reads the character with a code of `n` hexadecimal digits. -/
def scanCode (n : Nat) : Scan Char := do
  let ds ← (List.replicate n ()).mapM fun _ => Scan.charWhere isHexDigit
  let code := ofDigits 16 ds
  guard code.isValidChar
  return Char.ofNat code

/-- Reads what follows a backslash. -/
def scanEscape : Scan Char := do
  match ← Scan.charWhere fun _ => true with
  | 'b' => return '\x08'
  | 'f' => return '\x0c'
  | 'n' => return '\n'
  | 'r' => return '\r'
  | 't' => return '\t'
  | '"' => return '"'
  | '\\' => return '\\'
  | 'u' => scanCode 4
  | 'U' => scanCode 8
  | _ => failure

/-- Reads a piece of a string between quotes. -/
def scanQuotedPiece : Scan (List Char) :=
  Scan.takeWhile1 isQuotedChar <|> do
    Scan.char '\\'
    return [← scanEscape]

/-- Reads a backslash at the end of a line, and all blanks and ends of lines behind it. -/
def scanContinuation : Scan (List Char) := do
  Scan.char '\\'
  scanBlanks
  scanNewline
  let _ ← Scan.many (scanNewline <|> do let _ ← Scan.takeWhile1 isBlank)
  return []

/-- Reads an end of a line inside a string. -/
def scanInnerNewline : Scan (List Char) := do
  scanNewline
  return ['\n']

/-- Reads one or two quotes with something else behind them. -/
def scanInnerQuotes (quote : Char) : Scan (List Char) := do
  let quotes ← Scan.takeWhile1 (· == quote)
  guard (quotes.length < 3 ∧ !(← Scan.isEnd))
  return quotes

/-- Reads the three quotes at the end of a string, and up to two in front that belong to it. -/
def scanClosing (quote : Char) : Scan (List Char) := do
  let quotes ← Scan.takeWhile1 (· == quote)
  guard (3 ≤ quotes.length ∧ quotes.length ≤ 5)
  return quotes.drop 3

/-- Reads a string over several lines, of the given pieces. -/
def scanLong (quote : Char) (piece : Scan (List Char)) : Scan (List Char) := do
  Scan.literal (String.ofList [quote, quote, quote])
  let _ ← Scan.optional scanNewline
  let pieces ← Scan.many (piece <|> scanInnerNewline <|> scanInnerQuotes quote)
  return pieces.flatten ++ (← scanClosing quote)

def scanBasic : Scan (List Char) := do
  Scan.char '"'
  let pieces ← Scan.many scanQuotedPiece
  Scan.char '"'
  return pieces.flatten

def scanLiteral : Scan (List Char) := do
  Scan.char '\''
  let cs ← Scan.takeWhile isLiteralChar
  Scan.char '\''
  return cs

def scanString : Scan String := String.ofList <$> (
  scanLong '"' (scanContinuation <|> scanQuotedPiece) <|> scanBasic <|>
  scanLong '\'' (Scan.takeWhile1 isLiteralChar) <|> scanLiteral)

/-! ## Keys -/

def isKeyChar (c : Char) : Bool := c.isAlphanum || c == '-' || c == '_'

def scanSimpleKey : Scan String :=
  String.ofList <$> (scanBasic <|> scanLiteral <|> Scan.takeWhile1 isKeyChar)

/-- Reads keys with dots between them, and blanks around each. -/
def scanKey : Scan (List String) :=
  Scan.separated (do scanBlanks; let key ← scanSimpleKey; scanBlanks; return key) (Scan.char '.')

/-! ## Numbers -/

def isDigitOf (base : Nat) (c : Char) : Bool := isHexDigit c && digitValue c < base

/-- The digits at the start, with single underscores between them, and what follows. -/
def digitRun (base : Nat) : List Char → List Char × List Char
  | '_' :: c :: rest =>
    if isDigitOf base c then
      let (ds, rest) := digitRun base rest
      (c :: ds, rest)
    else ([], '_' :: c :: rest)
  | c :: rest =>
    if isDigitOf base c then
      let (ds, rest) := digitRun base rest
      (c :: ds, rest)
    else ([], c :: rest)
  | [] => ([], [])

/-- Reads digits with single underscores between them. -/
def scanDigits (base : Nat) : Scan (List Char) := do
  let c ← Scan.charWhere (isDigitOf base)
  let (ds, rest) := digitRun base (← get)
  set rest
  return c :: ds

/-- Reads a sign, if there is one; answers whether it is a minus. -/
def scanSign : Scan Bool := do
  return (← Scan.optional (Scan.oneOf ['+', '-'])) == some '-'

/-- Reads the digits of a decimal whole number: no zero in front of others. -/
def scanWhole : Scan (List Char) := do
  if (← Scan.peek) = some '0' then
    Scan.char '0'
    return ['0']
  scanDigits 10

/-- Whether a whole number is a signed 64-bit one. -/
def isInteger (n : Int) : Bool := -0x8000000000000000 ≤ n && n < 0x8000000000000000

/-- Reads a whole number in a base other than ten, behind its mark. -/
def scanBased (mark : String) (base : Nat) : Scan Int := do
  Scan.literal mark
  return ofDigits base (← scanDigits base)

def scanDecimal : Scan Int := do
  let negative ← scanSign
  let n := ofDigits 10 (← scanWhole)
  return if negative then -(n : Int) else n

def scanInteger : Scan Int := do
  let n ← scanBased "0x" 16 <|> scanBased "0o" 8 <|> scanBased "0b" 2 <|> scanDecimal
  guard (isInteger n)
  return n

def scanExponent : Scan Int := do
  let _ ← Scan.oneOf ['e', 'E']
  let negative ← scanSign
  let n := ofDigits 10 (← scanDigits 10)
  return if negative then -(n : Int) else n

/-- Reads a number with a fraction or an exponent; infinity is no such number, though minus
infinity may come of one. -/
def scanPoint : Scan Float := do
  let negative ← scanSign
  let whole ← scanWhole
  let fraction ← Scan.optional (Scan.char '.' *> scanDigits 10)
  let exponent ← Scan.optional scanExponent
  guard (fraction.isSome || exponent.isSome)
  let digits := fraction.getD []
  let x := (Decimal.mk negative (whole ++ digits) (exponent.getD 0 - digits.length)).toFloat
  guard (x != 1.0 / 0.0)
  return x

/-- Reads infinity or what is no number. -/
def scanSpecial : Scan Float := do
  let negative ← scanSign
  let x ← (do Scan.literal "inf"; return 1.0 / 0.0) <|> (do Scan.literal "nan"; return 0.0 / 0.0)
  return if negative then -x else x

/-! ## Dates and times -/

/-- Reads a number of `n` digits in some bounds. -/
def scanBounded (n low high : Nat) : Scan Nat := do
  let v ← Scan.digitsOf n
  guard (low ≤ v ∧ v ≤ high)
  return v

def daysIn (year month : Nat) : Nat :=
  if month = 2 then if year % 4 = 0 ∧ (year % 100 ≠ 0 ∨ year % 400 = 0) then 29 else 28
  else if month ∈ [4, 6, 9, 11] then 30
  else 31

def scanDate : Scan Unit := do
  let year ← Scan.digitsOf 4
  Scan.char '-'
  let month ← scanBounded 2 1 12
  Scan.char '-'
  let _ ← scanBounded 2 1 (daysIn year month)

def scanTimeOfDay : Scan Unit := do
  let _ ← scanBounded 2 0 23
  Scan.char ':'
  let _ ← scanBounded 2 0 59
  Scan.char ':'
  let _ ← scanBounded 2 0 60
  let _ ← Scan.optional (Scan.char '.' *> Scan.takeWhile1 Char.isDigit)

def scanOffset : Scan Unit := do
  if (← Scan.oneOf ['Z', 'z', '+', '-']) ∈ ['+', '-'] then
    let _ ← scanBounded 2 0 23
    Scan.char ':'
    let _ ← scanBounded 2 0 59

/-- Reads a date, a time of day, or both with an offset or without. -/
def scanTime : Scan Unit :=
  (do
    scanDate
    let _ ← Scan.optional (do
      let _ ← Scan.oneOf ['T', 't', ' ']
      scanTimeOfDay
      let _ ← Scan.optional scanOffset)) <|> scanTimeOfDay

/-! ## Values -/

/-- Reads a value that is neither an array nor a table. -/
def scanScalar : Scan Value :=
  Value.string <$> scanString <|> (do scanTime; return Value.time) <|>
  Value.float <$> (scanPoint <|> scanSpecial) <|> Value.integer <$> scanInteger <|>
  (do Scan.literal "true"; return Value.bool true) <|>
  (do Scan.literal "false"; return Value.bool false)

/-- Reads entries with commas between them; none at all is fine. -/
def scanList {α : Type} (entry : Scan α) : Scan (List α) := do
  return (← Scan.optional (Scan.separated entry (Scan.char ','))).getD []

/-- Reads the definition of a key of an inline table. -/
def scanDefinition (value : Scan Value) : Scan (List String × String × Value) := do
  let keys ← scanKey
  Scan.char '='
  scanBlanks
  let v ← value
  scanBlanks
  let some key := keys.getLast? | failure
  return (keys.dropLast, key, v)

/-- Reads an array of the given values, which may be followed by a comma. -/
def scanArray (value : Scan Value) : Scan Value := do
  Scan.char '['
  let values ← scanList (do scanFiller; let v ← value; scanFiller; return v)
  unless values.isEmpty do
    let _ ← Scan.optional (Scan.char ',')
  scanFiller
  Scan.char ']'
  return .array values

/-- Reads an inline table of the given values. -/
def scanTable (value : Scan Value) : Scan Value := do
  Scan.char '\x7b'
  let definitions ← scanList (scanDefinition value)
  scanBlanks
  Scan.char '\x7d'
  let some table := tableOf? definitions | failure
  return table

/-- Reads a value that holds others inside one another up to some depth. -/
def scanNested : Nat → Scan Value
  | 0 => failure
  | depth + 1 => do
    match ← Scan.peek with
    | some '[' => scanArray (scanNested depth)
    | some '\x7b' => scanTable (scanNested depth)
    | _ => scanScalar

/-- How deep values may stand inside one another. -/
def maxDepth : Nat := 80

def scanValue : Scan Value := scanNested maxDepth

end GenHeap.Toml
