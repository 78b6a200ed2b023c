import PhpTypes.Text.Blank
import PhpTypes.Toml.Scanner

/-!
# Dates and times in TOML

A moment is a date, a time of day, or both; a date with a time can say how far the clock is ahead
of universal time. Each part has a fixed number of digits, only the fraction of a second has any
number of them, of which nine count.

A moment has one written form besides those that are read: a `T` stands between date and time, a
`Z` for universal time, and the fraction has no zeros at its end.
-/

namespace PhpTypes.Toml

/-- A day of the calendar. -/
structure Date where
  year : Nat
  month : Nat
  day : Nat
  deriving DecidableEq, Repr

/-- A time of day. -/
structure Time where
  hour : Nat
  minute : Nat
  second : Option Nat
  /-- The fraction of the second, in nanoseconds. -/
  nanosecond : Option Nat
  deriving DecidableEq, Repr

/-- How a clock differs from universal time. -/
inductive Offset where
  /-- It shows universal time. -/
  | universal
  /-- It is ahead by some minutes, or behind if they are negative. -/
  | minutes (n : Int)
  deriving DecidableEq, Repr

/-- A date, a time, or both. -/
inductive Moment where
  | day (date : Date)
  | clock (time : Time)
  | dated (date : Date) (time : Time) (offset : Option Offset)
  deriving DecidableEq, Repr

/-! ## The calendar -/

/-- Whether a year has a 29th of February. -/
def isLeapYear (year : Nat) : Bool :=
  year % 4 == 0 && (year % 100 != 0 || year % 400 == 0)

/-- The number of days in a month. -/
def daysIn (year month : Nat) : Nat :=
  if month == 2 then if isLeapYear year then 29 else 28
  else if [4, 6, 9, 11].contains month then 30
  else 31

/-- Whether the calendar has the day. -/
def Date.isValid (date : Date) : Bool :=
  1 ≤ date.month && date.month ≤ 12 && 1 ≤ date.day && date.day ≤ daysIn date.year date.month

/-- Whether a clock can show the time. A second may be a leap second. -/
def Time.isValid (time : Time) : Bool :=
  time.hour ≤ 23 && time.minute ≤ 59 && time.second.all (· ≤ 60)

/-! ## Reading -/

/-- A number of exactly `n` digits. -/
def digits (n : Nat) : Reader Nat := fun text =>
  let word := text.takeWhile Char.isDigit
  if word.length == n then some (Nat.ofDigitChars 10 word 0, text.drop n) else none

/-- A date, `2024-02-29`. -/
def date : Reader Date := fun text => do
  let (year, rest) ← digits 4 text
  let (month, rest) ← digits 2 (← mark '-' rest)
  let (day, rest) ← digits 2 (← mark '-' rest)
  let date : Date := { year, month, day }
  guard date.isValid
  return (date, rest)

/-- The fraction of a second behind its dot, in nanoseconds. -/
def fraction : Reader Nat := fun text =>
  match text.takeWhile Char.isDigit with
  | [] => none
  | word =>
    let padded := (word ++ List.replicate 9 '0').take 9
    some (Nat.ofDigitChars 10 padded 0, text.drop word.length)

/-- The seconds of a time with their fraction, of which both may be missing. -/
def seconds (text : List Char) : Option (Option Nat × Option Nat × List Char) :=
  match text with
  | ':' :: rest => do
    let (second, rest) ← digits 2 rest
    match rest with
    | '.' :: rest => do
      let (nanosecond, rest) ← fraction rest
      return (some second, some nanosecond, rest)
    | rest => return (some second, none, rest)
  | text => some (none, none, text)

/-- A time, `07:32`, `07:32:00` or `07:32:00.5`. -/
def time : Reader Time := fun text => do
  let (hour, rest) ← digits 2 text
  let (minute, rest) ← digits 2 (← mark ':' rest)
  let (second, nanosecond, rest) ← seconds rest
  let time : Time := { hour, minute, second, nanosecond }
  guard time.isValid
  return (time, rest)

/-- The minutes of an offset behind its sign, `01:30`. -/
def offsetMinutes : Reader Nat := fun text => do
  let (hours, rest) ← digits 2 text
  let (minutes, rest) ← digits 2 (← mark ':' rest)
  guard (hours ≤ 23 && minutes ≤ 59)
  return (60 * hours + minutes, rest)

/-- An offset, which may be missing. -/
def offset (text : List Char) : Option (Option Offset × List Char) :=
  match text with
  | 'Z' :: rest => some (some .universal, rest)
  | 'z' :: rest => some (some .universal, rest)
  | '+' :: rest => (offsetMinutes rest).map fun (n, rest) => (some (.minutes n), rest)
  | '-' :: rest => (offsetMinutes rest).map fun (n, rest) => (some (.minutes (-n)), rest)
  | text => some (none, text)

/-- A time behind a date with the mark or the space between them. -/
def timeOfDate : Reader (Time × Option Offset) := fun text =>
  match text with
  | [] => none
  | c :: rest => do
    guard (c == 'T' || c == 't' || c == ' ')
    let (time, rest) ← time rest
    let (offset, rest) ← offset rest
    return ((time, offset), rest)

/-- A moment. If what follows a date is not a time, the moment ends with the date. -/
def moment : Reader Moment := fun text =>
  match date text with
  | some (date, rest) =>
    match timeOfDate rest with
    | some ((time, offset), rest) => some (.dated date time offset, rest)
    | none => some (.day date, rest)
  | none => (time text).map fun (time, rest) => (.clock time, rest)

/-! ## Writing -/

/-- A number with zeros in front up to the given number of digits. -/
def padded (width n : Nat) : List Char :=
  (Nat.toDigits 10 n).leftpad width '0'

/-- The written form of a date. -/
def Date.toText (date : Date) : List Char :=
  padded 4 date.year ++ '-' :: padded 2 date.month ++ '-' :: padded 2 date.day

/-- The digits of a fraction of a second. One zero stays if there are no other digits. -/
def fractionText (nanosecond : Nat) : List Char :=
  match Text.dropEndWhile (· == '0') (padded 9 nanosecond) with
  | [] => ['0']
  | digits => digits

/-- The written form of a time. -/
def Time.toText (time : Time) : List Char :=
  padded 2 time.hour ++ ':' :: padded 2 time.minute ++
    (time.second.elim [] fun n => ':' :: padded 2 n) ++
    time.nanosecond.elim [] fun n => '.' :: fractionText n

/-- The written form of an offset. -/
def Offset.toText : Offset → List Char
  | universal => ['Z']
  | minutes n =>
    let sign := if n < 0 then '-' else '+'
    sign :: padded 2 (n.natAbs / 60) ++ ':' :: padded 2 (n.natAbs % 60)

/-- The written form of a moment. -/
def Moment.toText : Moment → String
  | day date => .ofList date.toText
  | clock time => .ofList time.toText
  | dated date time offset =>
    .ofList (date.toText ++ 'T' :: time.toText ++ offset.elim [] Offset.toText)

end PhpTypes.Toml
