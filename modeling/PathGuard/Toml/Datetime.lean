import PathGuard.Ascii

/-!
# Dates and times

Dates, times of day and offsets as a TOML document writes them, and their canonical text. A value
holds a date, a time, or both, and an offset only where it holds both. Seconds may be left out, and
a fraction is kept to the ninth digit.

## Main definitions

- `Datetime`: a date, a time, and an offset
- `Datetime.ofChars?`: the value of a text
- `Datetime.text`: the canonical text
-/

namespace PathGuard.Toml

/-- A day of the calendar. -/
structure Date where
  year : Nat
  month : Nat
  day : Nat
  deriving DecidableEq, Repr

/-- A time of day. -/
structure TimeOfDay where
  hour : Nat
  minute : Nat
  second? : Option Nat
  nanosecond? : Option Nat
  deriving DecidableEq, Repr

/-- The distance of a local time from universal time. -/
inductive UtcOffset where
  | zulu
  | minutes (n : Int)
  deriving DecidableEq, Repr

/-- A date, a time, or both. -/
structure Datetime where
  date? : Option Date
  time? : Option TimeOfDay
  offset? : Option UtcOffset
  deriving DecidableEq, Repr

/-- The decimal digits of a number, with zeros in front up to a width. -/
def padded (width n : Nat) : List Char :=
  let digits := Nat.toDigits 10 n
  List.replicate (width - digits.length) '0' ++ digits

/-- Reads a number of exactly as many digits as asked for. -/
def readDigits (count : Nat) (cs : List Char) : Option (Nat × List Char) :=
  let digits := cs.take count
  if digits.length = count ∧ digits.all Char.isDigit then
    match cs.drop count with
    | [] => some (Ascii.decimal digits, [])
    | c :: rest => if c.isDigit then none else some (Ascii.decimal digits, c :: rest)
  else none

def readChar (c : Char) : List Char → Option (List Char)
  | [] => none
  | d :: rest => if c = d then some rest else none

namespace Date

def daysIn (year month : Nat) : Nat :=
  if month = 2 then
    if year % 4 = 0 ∧ (year % 100 ≠ 0 ∨ year % 400 = 0) then 29 else 28
  else if [4, 6, 9, 11].contains month then 30
  else 31

def isValid (d : Date) : Bool :=
  1 ≤ d.month && d.month ≤ 12 && 1 ≤ d.day && d.day ≤ daysIn d.year d.month

/-- Reads a date: the year, the month and the day between dashes. -/
def read (cs : List Char) : Option (Date × List Char) := do
  let (year, rest) ← readDigits 4 cs
  let (month, rest) ← readDigits 2 (← readChar '-' rest)
  let (day, rest) ← readDigits 2 (← readChar '-' rest)
  let date : Date := ⟨year, month, day⟩
  if date.isValid then some (date, rest) else none

def text (d : Date) : List Char :=
  padded 4 d.year ++ '-' :: padded 2 d.month ++ '-' :: padded 2 d.day

end Date

namespace TimeOfDay

/-- Whether a time is in the day. A minute may have one second too many. -/
def isValid (t : TimeOfDay) : Bool :=
  t.hour ≤ 23 && t.minute ≤ 59 && t.second?.getD 0 ≤ 60

/-- The nanoseconds of a fraction; digits after the ninth do not count. -/
def nanoseconds (digits : List Char) : Nat :=
  let kept := digits.take 9
  Ascii.decimal kept * Nat.pow 10 (9 - kept.length)

/-- Reads the fraction of a second, if there is a point. -/
def readFraction : List Char → Option (Option Nat × List Char)
  | '.' :: rest =>
    match rest.span Char.isDigit with
    | ([], _) => none
    | (digits, rest) => some (some (nanoseconds digits), rest)
  | cs => some (none, cs)

/-- Reads a time: the hour, the minute and perhaps the second between colons. -/
def read (cs : List Char) : Option (TimeOfDay × List Char) := do
  let (hour, rest) ← readDigits 2 cs
  let (minute, rest) ← readDigits 2 (← readChar ':' rest)
  let (time, rest) : TimeOfDay × List Char ← match rest with
    | ':' :: rest => do
      let (second, rest) ← readDigits 2 rest
      let (nanosecond?, rest) ← readFraction rest
      pure (⟨hour, minute, some second, nanosecond?⟩, rest)
    | rest => pure (⟨hour, minute, none, none⟩, rest)
  if time.isValid then some (time, rest) else none

/-- The digits of a fraction without the zeros at its end, of which one digit remains. -/
def fractionText (nanosecond : Nat) : List Char :=
  match ((padded 9 nanosecond).reverse.dropWhile (· == '0')).reverse with
  | [] => ['0']
  | digits => digits

def text (t : TimeOfDay) : List Char :=
  padded 2 t.hour ++ ':' :: padded 2 t.minute
    ++ (match t.second? with
      | some second => ':' :: padded 2 second
      | none => [])
    ++ (match t.nanosecond? with
      | some nanosecond => '.' :: fractionText nanosecond
      | none => [])

end TimeOfDay

namespace UtcOffset

def readMinutes (cs : List Char) : Option (Nat × List Char) := do
  let (hour, rest) ← readDigits 2 cs
  let (minute, rest) ← readDigits 2 (← readChar ':' rest)
  if hour ≤ 23 ∧ minute ≤ 59 then some (60 * hour + minute, rest) else none

/-- Reads an offset, if the text does not end. -/
def read : List Char → Option (Option UtcOffset × List Char)
  | [] => some (none, [])
  | 'Z' :: rest => some (some zulu, rest)
  | 'z' :: rest => some (some zulu, rest)
  | '+' :: rest => (readMinutes rest).map fun (n, rest) => (some (minutes n), rest)
  | '-' :: rest => (readMinutes rest).map fun (n, rest) => (some (minutes (-(n : Int))), rest)
  | _ => none

def text : UtcOffset → List Char
  | zulu => ['Z']
  | minutes n =>
    (if n < 0 then '-' else '+') :: padded 2 (n.natAbs / 60) ++ ':' :: padded 2 (n.natAbs % 60)

end UtcOffset

namespace Datetime

def isSeparator (c : Char) : Bool :=
  c == 'T' || c == 't' || c == ' '

def ofChars? (cs : List Char) : Option Datetime :=
  match Date.read cs with
  | some (date, []) => some ⟨some date, none, none⟩
  | some (date, c :: rest) => do
    if !isSeparator c then none
    let (time, rest) ← TimeOfDay.read rest
    let (offset?, rest) ← UtcOffset.read rest
    if rest.isEmpty then some ⟨some date, some time, offset?⟩ else none
  | none => do
    let (time, rest) ← TimeOfDay.read cs
    if rest.isEmpty then some ⟨none, some time, none⟩ else none

def text (d : Datetime) : String :=
  let date := d.date?.elim [] Date.text
  let time := d.time?.elim [] TimeOfDay.text
  let between := if d.date?.isSome && d.time?.isSome then ['T'] else []
  String.ofList (date ++ between ++ time ++ d.offset?.elim [] UtcOffset.text)

end Datetime

end PathGuard.Toml
