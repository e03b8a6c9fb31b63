import GenHeap.Scan

/-!
Points in time as calendar date and time of day in UTC, and their text. Reading takes a date, a
separator, a time of day and an offset, with blanks between most parts, and moves the result to
UTC; writing uses one form, with as few fraction digits (none, three, six or nine) as are exact.
A leap second is second 60 of any minute.
-/

namespace GenHeap

structure UtcTime where
  year : Int
  month : Nat
  day : Nat
  hour : Nat
  minute : Nat
  second : Nat
  nanosecond : Nat
  deriving DecidableEq, Repr

namespace UtcTime

/-- The first and the last year of the calendar. -/
def firstYear : Int := -262143
def lastYear : Int := 262142

def isLeapYear (year : Int) : Bool := year % 4 == 0 && (year % 100 != 0 || year % 400 == 0)

def daysIn (year : Int) (month : Nat) : Nat :=
  if month = 2 then if isLeapYear year then 29 else 28
  else if month ∈ [4, 6, 9, 11] then 30
  else 31

/-- Whether the parts name a point in time of the calendar. -/
def isValid (t : UtcTime) : Bool :=
  firstYear ≤ t.year && t.year ≤ lastYear && 1 ≤ t.month && t.month ≤ 12 &&
  1 ≤ t.day && t.day ≤ daysIn t.year t.month && t.hour ≤ 23 && t.minute ≤ 59 && t.second ≤ 60 &&
  t.nanosecond < 1000000000

def nextDay (t : UtcTime) : UtcTime :=
  if t.day < daysIn t.year t.month then { t with day := t.day + 1 }
  else if t.month < 12 then { t with month := t.month + 1, day := 1 }
  else { t with year := t.year + 1, month := 1, day := 1 }

def previousDay (t : UtcTime) : UtcTime :=
  if 1 < t.day then { t with day := t.day - 1 }
  else if 1 < t.month then { t with month := t.month - 1, day := daysIn t.year (t.month - 1) }
  else { t with year := t.year - 1, month := 12, day := 31 }

def minutesOfDay : Int := 1440

/-- The time of UTC when clocks that are ahead by some minutes, less than a day, show `t`. -/
def ofLocal (t : UtcTime) (ahead : Int) : UtcTime :=
  let minutes := t.hour * 60 + t.minute - ahead
  let ofDay := (minutes % minutesOfDay).toNat
  let t := { t with hour := ofDay / 60, minute := ofDay % 60 }
  if minutes < 0 then t.previousDay else if minutesOfDay ≤ minutes then t.nextDay else t

/-! ## Reading -/

/-- Reads a number of up to `most` digits after blanks. -/
def scanNumber (most : Nat) : Scan Nat := do
  Scan.blanks
  return ofDigits 10 (← Scan.digits most)

/-- Reads a year: up to four digits, or any number of them after a sign. -/
def scanYear : Scan Int := do
  Scan.blanks
  match ← get with
  | '-' :: rest => set rest; return -(ofDigits 10 (← Scan.digits rest.length) : Int)
  | '+' :: rest => set rest; return ofDigits 10 (← Scan.digits rest.length)
  | _ => return ofDigits 10 (← Scan.digits 4)

/-- Reads a mark between numbers, after blanks. -/
def scanMark (c : Char) : Scan Unit := do
  Scan.blanks
  Scan.char c

/-- Reads a fraction of a second in nanoseconds, if there is one; digits after the ninth are
dropped. -/
def scanFraction : Scan Nat := do
  match ← get with
  | '.' :: rest =>
    set rest
    let ds ← Scan.digits 9
    let _ ← Scan.takeWhile Char.isDigit
    return ofDigits 10 ds * Nat.pow 10 (9 - ds.length)
  | _ => return 0

/-- Reads how far, in minutes, local clocks are ahead of UTC. -/
def scanOffset : Scan Int := do
  Scan.blanks
  match ← get with
  | c :: rest =>
    if c = 'Z' ∨ c = 'z' then set rest; return 0
    if (c :: rest.take 2).map Char.toUpper = ['U', 'T', 'C'] then set (rest.drop 2); return 0
    let sign ← Scan.oneOf ['+', '-', '−']
    let hours ← Scan.digitsOf 2
    let _ ← Scan.takeWhile fun c => c == ':' || isBlank c
    let minutes ← Scan.digitsOf 2
    guard (hours < 24 ∧ minutes < 60)
    let ahead : Int := hours * 60 + minutes
    return if sign = '+' then ahead else -ahead
  | [] => failure

/-- Reads a local time and its offset. -/
def scanLocal : Scan (UtcTime × Int) := do
  let year ← scanYear
  scanMark '-'
  let month ← scanNumber 2
  scanMark '-'
  let day ← scanNumber 2
  let _ ← Scan.oneOf ['t', 'T', ' ']
  let hour ← scanNumber 2
  scanMark ':'
  let minute ← scanNumber 2
  scanMark ':'
  let second ← scanNumber 2
  let nanosecond ← scanFraction
  let ahead ← scanOffset
  Scan.blanks
  return ({ year, month, day, hour, minute, second, nanosecond }, ahead)

/-- The point in time that a text names; only blanks may follow. -/
def ofText? (s : String) : Option UtcTime := do
  let (t, ahead) ← Scan.whole? scanLocal s
  guard t.isValid
  let t := t.ofLocal ahead
  guard t.isValid
  return t

/-! ## Writing -/

/-- Four digits for the years from 0 to 9999, a sign and at least four digits for others. -/
def yearText (year : Int) : List Char :=
  if year < 0 then '-' :: padded 4 year.natAbs
  else if 9999 < year then '+' :: padded 4 year.natAbs
  else padded 4 year.natAbs

def fractionText (nanosecond : Nat) : List Char :=
  if nanosecond = 0 then []
  else if nanosecond % 1000000 = 0 then '.' :: padded 3 (nanosecond / 1000000)
  else if nanosecond % 1000 = 0 then '.' :: padded 6 (nanosecond / 1000)
  else '.' :: padded 9 nanosecond

def text (t : UtcTime) : String :=
  String.ofList (yearText t.year ++ '-' :: padded 2 t.month ++ '-' :: padded 2 t.day ++
    'T' :: padded 2 t.hour ++ ':' :: padded 2 t.minute ++ ':' :: padded 2 t.second ++
    fractionText t.nanosecond ++ ['Z'])

end UtcTime

end GenHeap
