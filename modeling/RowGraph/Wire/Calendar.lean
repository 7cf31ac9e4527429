/-!
# The calendar

Dates of the Gregorian calendar, extended to all years, and their distance in days from the first
of January 2000. A year counts as leap if it is divisible by 4, but not by 100 unless by 400.
-/

namespace RowGraph.Wire

def isLeap (year : Int) : Bool := year % 4 == 0 && (year % 100 != 0 || year % 400 == 0)

def daysInMonth (year : Int) (month : Nat) : Nat :=
  if month = 2 then (if isLeap year then 29 else 28)
  else if month ∈ [4, 6, 9, 11] then 30
  else 31

def daysBeforeMonth (year : Int) : Nat → Nat
  | 0 => 0
  | 1 => 0
  | month + 2 => daysBeforeMonth year (month + 1) + daysInMonth year (month + 1)

def daysBeforeYear (year : Int) : Int :=
  let past := year - 1
  365 * past + past / 4 - past / 100 + past / 400

def firstYear : Int := -262143

def lastYear : Int := 262142

structure Date where
  year : Int
  month : Nat
  day : Nat
  deriving DecidableEq

namespace Date

def isValid (d : Date) : Bool :=
  firstYear ≤ d.year && d.year ≤ lastYear && 1 ≤ d.month && d.month ≤ 12 && 1 ≤ d.day &&
    d.day ≤ daysInMonth d.year d.month

def days (d : Date) : Int :=
  daysBeforeYear d.year - daysBeforeYear 2000 + daysBeforeMonth d.year d.month + d.day - 1

end Date

def firstDay : Int := Date.days ⟨firstYear, 1, 1⟩

def lastDay : Int := Date.days ⟨lastYear, 12, 31⟩

end RowGraph.Wire
