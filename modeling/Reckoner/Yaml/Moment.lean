import Reckoner.Yaml.Cursor

/-!
Dates and times of day. A date is written in three parts; a time of day may follow it, with a
fraction of a second and a time zone. One line feed at the end does not count.
-/
namespace Reckoner.Yaml

open Text Number

/-- The parts of a date, and of a time of day if there is one; the zone of a time of day is its
distance in minutes. -/
structure Moment where
  year : Nat
  month : Nat
  day : Nat
  clock : Option (Nat × Nat × Nat)
  zone : Int

/-- A text without the line feed at its end. -/
def dropLastLineFeed (s : List Char) : List Char :=
  if s.getLast? = some '\n' then s.dropLast else s

namespace Moment

/-- A number of `least` to `most` digits, and the rest. -/
def digits? (least most : Nat) (s : List Char) : Option (Nat × List Char) :=
  let run := (s.take most).takeWhile isAsciiDigit
  if least ≤ run.length then some (digitsValue run, s.drop run.length) else none

def expect? (c : Char) : List Char → Option (List Char)
  | x :: r => if x = c then some r else none
  | [] => none

/-- The distance of a time zone in hours, or in hours and minutes. -/
def distance? (s : List Char) : Option Nat := do
  let (hours, s) ← digits? 1 2 s
  match s with
  | [] => return 60 * hours
  | ':' :: r =>
    let (minutes, s) ← digits? 2 2 r
    if s.isEmpty then some (60 * hours + minutes) else none
  | _ => none

/-- A time zone at the end of a text; nothing stands for no zone. -/
def zone? (s : List Char) : Option Int :=
  match s.dropWhile isSpaceOrTab with
  | ['Z'] => some 0
  | '+' :: r => (distance? r).map fun n => (n : Int)
  | '-' :: r => (distance? r).map fun n => -(n : Int)
  | _ => if s.isEmpty then some 0 else none

/-- A time of day, with an optional fraction and time zone. -/
def clock? (s : List Char) : Option ((Nat × Nat × Nat) × Int) := do
  let (hour, s) ← digits? 1 2 s
  let s ← expect? ':' s
  let (minute, s) ← digits? 2 2 s
  let s ← expect? ':' s
  let (second, s) ← digits? 2 2 s
  let s := match s with
    | '.' :: r => r.dropWhile isAsciiDigit
    | s => s
  let zone ← zone? s
  return ((hour, minute, second), zone)

/-- What divides a date from a time of day. -/
def afterGap? : List Char → Option (List Char)
  | 'T' :: r => some r
  | 't' :: r => some r
  | s => if s.head?.any isSpaceOrTab then some (s.dropWhile isSpaceOrTab) else none

/-- Reads a date, or a date and a time of day. -/
def ofText? (s : List Char) : Option Moment := do
  let (year, s) ← digits? 4 4 (dropLastLineFeed s)
  let s ← expect? '-' s
  let (month, s) ← digits? 1 2 s
  let s ← expect? '-' s
  let (day, s) ← digits? 1 2 s
  if s.isEmpty then return ⟨year, month, day, none, 0⟩
  else
    let s ← afterGap? s
    let (clock, zone) ← clock? s
    return ⟨year, month, day, some clock, zone⟩

/-- Whether a text looks like a date or time. A date by itself must have two digits for its month
and its day. -/
def isWritten (s : List Char) : Bool :=
  (ofText? s).any fun m => m.clock.isSome || s.length == "0000-00-00".length

def isLeap (year : Nat) : Bool :=
  year % 4 == 0 && (year % 100 != 0 || year % 400 == 0)

def monthLength (year month : Nat) : Nat :=
  if month = 2 then (if isLeap year then 29 else 28)
  else if month = 4 || month = 6 || month = 9 || month = 11 then 30
  else 31

/-- The first part that is out of its range; the zone is looked at first. -/
def problem? (m : Moment) : Option TimeProblem :=
  if 1440 ≤ m.zone.natAbs then some (.zone m.zone)
  else if m.year = 0 then some .year
  else if m.month = 0 || 12 < m.month then some .month
  else if m.day = 0 || monthLength m.year m.month < m.day then some .day
  else match m.clock with
    | none => none
    | some (hour, minute, second) =>
      if 23 < hour then some .hour
      else if 59 < minute then some .minute
      else if 59 < second then some .second
      else none

end Moment

end Reckoner.Yaml
