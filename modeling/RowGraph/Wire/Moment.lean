import RowGraph.Power
import RowGraph.Text.Blank
import RowGraph.Wire.Calendar

/-!
# Reading dates and times

Dates are written `2024-02-29`, times of a day `23:59:59.25`, and moments as both with a `T`
between them, with or without a time zone. Numbers may have fewer digits than usual, and blanks
may stand in front of them and after most parts. A second 60 is a leap second: it counts in
nanoseconds as the first second of the next minute, but stays on its day.
-/

namespace RowGraph.Wire

abbrev Reader (α : Type) := List Char → Option (α × List Char)

def digitValue? (c : Char) : Option Nat := if c.isDigit then some (c.toNat - 48) else none

def readDigits (value : Nat) : Nat → List Char → Nat × List Char
  | 0, cs => (value, cs)
  | _ + 1, [] => (value, [])
  | limit + 1, c :: cs => match digitValue? c with
    | some d => readDigits (10 * value + d) limit cs
    | none => (value, c :: cs)

def readNatural (limit : Nat) : Reader Nat := fun cs =>
  match cs with
  | [] => none
  | c :: _ => if c.isDigit then some (readDigits 0 limit cs) else none

def readChar (c : Char) : Reader Unit
  | d :: cs => if d = c then some ((), cs) else none
  | [] => none

def readField (lowest highest : Nat) : Reader Nat := fun cs => do
  let (n, cs) ← readNatural 2 (Text.trimFront cs)
  if lowest ≤ n ∧ n ≤ highest then some (n, cs) else none

def readYear : Reader Int := fun cs =>
  match Text.trimFront cs with
  | '-' :: cs => (readNatural cs.length cs).map fun (n, cs) => (-(n : Int), cs)
  | '+' :: cs => (readNatural cs.length cs).map fun (n, cs) => ((n : Int), cs)
  | cs => (readNatural 4 cs).map fun (n, cs) => ((n : Int), cs)

def readDate : Reader Date := fun cs => do
  let (year, cs) ← readYear cs
  let (_, cs) ← readChar '-' (Text.trimFront cs)
  let (month, cs) ← readField 1 12 cs
  let (_, cs) ← readChar '-' (Text.trimFront cs)
  let (day, cs) ← readField 1 31 cs
  let date : Date := { year, month, day }
  if date.isValid then some (date, cs) else none

def secondLength : Nat := 1000000000

def daySeconds : Nat := 86400

/-- A time of the day: a second, and the nanoseconds since it started. A leap second has no second
of its own and is the time after the end of the one before it. -/
structure TimeOfDay where
  second : Nat
  nanos : Nat

def nanosSince2000 (days : Int) (time : TimeOfDay) (offset : Int) : Int :=
  (days * daySeconds + time.second - offset) * secondLength + time.nanos

def readFraction : Reader Nat := fun cs =>
  match cs with
  | '.' :: digits => do
      let (n, rest) ← readNatural 9 digits
      let places := digits.length - rest.length
      some (n * tenPow (9 - places), rest.dropWhile Char.isDigit)
  | _ => some (0, cs)

def readTime : Reader TimeOfDay := fun cs => do
  let (hour, cs) ← readField 0 23 cs
  let (_, cs) ← readChar ':' (Text.trimFront cs)
  let (minute, cs) ← readField 0 59 cs
  let (_, cs) ← readChar ':' (Text.trimFront cs)
  let (second, cs) ← readField 0 60 cs
  let (fraction, cs) ← readFraction cs
  let time : TimeOfDay :=
    { second := 3600 * hour + 60 * minute + min second 59
      nanos := (second - 59) * secondLength + fraction }
  some (time, Text.trimFront cs)

def readOffset : Reader Nat := fun cs =>
  match cs with
  | h₁ :: h₂ :: cs => do
      let hours := 10 * (← digitValue? h₁) + (← digitValue? h₂)
      match cs.dropWhile fun c => c == ':' || Text.isBlank c with
      | m₁ :: m₂ :: cs =>
          let tens ← digitValue? m₁
          let minutes := 10 * tens + (← digitValue? m₂)
          if tens < 6 then some (3600 * hours + 60 * minutes, cs) else none
      | _ => none
  | _ => none

def readZone : Reader Int := fun cs =>
  if (cs.take 3).map Char.toUpper = ['U', 'T', 'C'] then some (0, cs.drop 3)
  else match cs with
    | [] => none
    | sign :: rest =>
        if sign = 'Z' ∨ sign = 'z' then some (0, rest)
        else if sign = '+' then (readOffset rest).map fun (n, cs) => ((n : Int), cs)
        else if sign = '-' ∨ sign = '\u2212' then
          (readOffset rest).map fun (n, cs) => (-(n : Int), cs)
        else none

def complete {α : Type} : Option (α × List Char) → Option α
  | some (a, cs) => if (Text.trimFront cs).isEmpty then some a else none
  | none => none

def dateDays? (s : String) : Option Int := (complete (readDate s.toList)).map Date.days

def localNanos? (s : String) : Option Int :=
  complete do
    let (date, cs) ← readDate s.toList
    let (_, cs) ← readChar 'T' (Text.trimFront cs)
    let (time, cs) ← readTime cs
    some (nanosSince2000 date.days time 0, cs)

/-- The nanoseconds since the start of 2000 in Greenwich of a moment with a time zone. The zone is
less than a day, and the second of the moment is in the calendar in Greenwich too. -/
def zonedNanos? (s : String) : Option Int :=
  complete do
    let (date, cs) ← readDate s.toList
    let cs ← match cs with
      | c :: cs => if c = 'T' ∨ c = 't' ∨ c = ' ' then some cs else none
      | [] => none
    let (time, cs) ← readTime cs
    let (offset, cs) ← readZone cs
    let seconds := date.days * daySeconds + time.second - offset
    if offset.natAbs < daySeconds ∧ firstDay * daySeconds ≤ seconds ∧
        seconds < (lastDay + 1) * daySeconds then
      some (nanosSince2000 date.days time offset, cs)
    else none

end RowGraph.Wire
