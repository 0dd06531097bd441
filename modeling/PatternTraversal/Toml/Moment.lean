import PatternTraversal.Toml.Number

/-!
# Dates and times

A date is a day of the calendar. A time of day may follow it, with a distance from universal time,
and a time of day may stand alone.
-/

namespace PatternTraversal

namespace Toml

/-- The number of exactly as many decimal digits as asked for. -/
def fixedDigits : (count : Nat) → (known : Nat) → Reader Nat
  | 0, known => pure known
  | count + 1, known => do
    let c ← Reader.satisfy Char.isDigit
    fixedDigits count (10 * known + (hexDigit? c).getD 0)

/-- Two digits that stand for a number in a range. -/
def twoDigits (least most : Nat) : Reader Nat :=
  Reader.guarded (fixedDigits 2 0) fun n => least ≤ n && n ≤ most

/-- Whether February has a 29th day. -/
def isLeapYear (year : Nat) : Bool := year % 4 = 0 && (year % 100 ≠ 0 || year % 400 = 0)

/-- Number of days of a month. -/
def daysInMonth (year month : Nat) : Nat :=
  match month with
  | 2 => if isLeapYear year then 29 else 28
  | 4 | 6 | 9 | 11 => 30
  | _ => 31

/-- A day of the calendar. -/
def date : Reader Unit := do
  let year ← fixedDigits 4 0
  Reader.char '-'
  let month ← twoDigits 1 12
  Reader.char '-'
  let _ ← twoDigits 1 (daysInMonth year month)

/-- A time of day; a minute may have a leap second. -/
def timeOfDay : Reader Unit := do
  let _ ← twoDigits 0 23
  Reader.char ':'
  let _ ← twoDigits 0 59
  Reader.char ':'
  let _ ← twoDigits 0 60
  let _ ← optional (do
    Reader.char '.'
    Reader.guarded (Reader.takeWhile Char.isDigit) (!·.isEmpty))

/-- Distance from universal time. -/
def offset : Reader Unit :=
  (do let _ ← Reader.satisfy fun c => c = 'Z' || c = 'z') <|>
  (do
    let _ ← Reader.satisfy fun c => c = '+' || c = '-'
    let _ ← twoDigits 0 23
    Reader.char ':'
    let _ ← twoDigits 0 59)

/-- A date, a date with a time, or a time. -/
def moment : Reader Unit :=
  (do
    date
    let _ ← optional (do
      let _ ← Reader.satisfy fun c => c = 'T' || c = 't' || c = ' '
      timeOfDay
      optional offset)) <|>
  timeOfDay

end Toml

end PatternTraversal
