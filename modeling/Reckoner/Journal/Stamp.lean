import Reckoner.Number.Layout

/-!
The text of a time: date and time of day in universal time, to the microsecond. The date is counted
in cycles of 400 years, which all have the same number of days, with years that start in March so
that a leap day is the last day of its year.
-/
namespace Reckoner.Journal

open Number

structure Date where
  year : Nat
  month : Nat
  day : Nat

def cycleDays : Nat := 146097

/-- The days from the start of a cycle to the first day of 1970. -/
def daysBefore1970 : Nat := 719468

/-- The date that comes a number of days after the first day of 1970. -/
def Date.ofDays (days : Nat) : Date :=
  let n := days + daysBefore1970
  let inCycle := n % cycleDays
  let year := (inCycle - inCycle / 1460 + inCycle / 36524 - inCycle / 146096) / 365
  let inYear := inCycle - (365 * year + year / 4 - year / 100)
  let month := (5 * inYear + 2) / 153
  let day := inYear - (153 * month + 2) / 5 + 1
  let fromJanuary := if month < 10 then month + 3 else month - 9
  ⟨400 * (n / cycleDays) + year + (if fromJanuary ≤ 2 then 1 else 0), fromJanuary, day⟩

/-- Decimal digits with leading zeros. -/
def padded (width n : Nat) : List Char :=
  let digits := decimalDigits n
  List.replicate (width - digits.length) '0' ++ digits

/-- The text of the time that comes a number of microseconds after the start of 1970. -/
def stampOf (microseconds : Nat) : List Char :=
  let seconds := microseconds / 1000000
  let date := Date.ofDays (seconds / 86400)
  padded 4 date.year ++ '-' :: padded 2 date.month ++ '-' :: padded 2 date.day
    ++ 'T' :: padded 2 (seconds / 3600 % 24) ++ ':' :: padded 2 (seconds / 60 % 60)
    ++ ':' :: padded 2 (seconds % 60) ++ '.' :: padded 6 (microseconds % 1000000) ++ ['Z']

end Reckoner.Journal
