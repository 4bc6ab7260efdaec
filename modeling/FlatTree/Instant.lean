/-!
# Instants

An instant is what a clock and a calendar show at some distance from UTC: date, time of day down to
the nanosecond, and offset. Two instants compare by the moment alone. A second numbered 60 is a
leap second: it comes after every part of the second 59 and before the next minute.

The calendar is Gregorian also for the years before its start. It has a year 0, negative years
before that, and a first and a last year.
-/

namespace FlatTree

def isLeapYear (year : Int) : Bool :=
  year % 4 == 0 && (year % 100 != 0 || year % 400 == 0)

def firstYear : Int := -262143

def lastYear : Int := 262142

/-- Days of the month, 0 where there is no such month. -/
def daysInMonth (year : Int) : Nat → Nat
  | 2 => if isLeapYear year then 29 else 28
  | 4 | 6 | 9 | 11 => 30
  | 1 | 3 | 5 | 7 | 8 | 10 | 12 => 31
  | _ => 0

/-- What clock and calendar show. The offset counts minutes east of UTC. -/
structure ClockReading where
  year : Int
  month : Nat
  day : Nat
  hour : Nat
  minute : Nat
  second : Nat
  nano : Nat
  offset : Int
deriving DecidableEq, Repr

namespace ClockReading

def daysBeforeYear (year : Int) : Int :=
  365 * year + (year + 3) / 4 - (year + 99) / 100 + (year + 399) / 400

def daysBeforeMonth (year : Int) (month : Nat) : Nat :=
  (List.range (month - 1)).foldl (fun days m => days + daysInMonth year (m + 1)) 0

/-- The day, as shown, in days from the start of the year 0; the first day of that year is 1. -/
def dayNumber (r : ClockReading) : Int :=
  daysBeforeYear r.year + daysBeforeMonth r.year r.month + r.day

def minutes (r : ClockReading) : Int :=
  (r.dayNumber * 24 + r.hour) * 60 + r.minute - r.offset

/-- Seconds of UTC from a fixed start, a leap second counting as the second before it. -/
def seconds (r : ClockReading) : Int :=
  r.minutes * 60 + min r.second 59

/-- Nanoseconds into the second; those of a leap second lie beyond the thousand million. -/
def nanos (r : ClockReading) : Nat :=
  if r.second = 60 then 1000000000 + r.nano else r.nano

/-- The day at UTC, which near midnight is the one before or after the day shown. -/
def utcDay (r : ClockReading) : Int :=
  r.minutes / 1440

/-- A date of the calendar, at UTC as well as shown, a time of day, and an offset of less than one
day. -/
def Valid (r : ClockReading) : Prop :=
  firstYear ≤ r.year ∧ r.year ≤ lastYear ∧ 1 ≤ r.day ∧ r.day ≤ daysInMonth r.year r.month ∧
    r.hour < 24 ∧ r.minute < 60 ∧ r.second ≤ 60 ∧ r.nano < 1000000000 ∧ r.offset.natAbs < 1440 ∧
    daysBeforeYear firstYear < r.utcDay ∧ r.utcDay ≤ daysBeforeYear (lastYear + 1)

instance (r : ClockReading) : Decidable r.Valid := by
  unfold Valid
  infer_instance

end ClockReading

structure Instant where
  reading : ClockReading
  valid : reading.Valid
deriving DecidableEq, Repr

/-- Seconds and nanoseconds, which decide the order. -/
def Instant.moment (t : Instant) : Int × Nat :=
  (t.reading.seconds, t.reading.nanos)

instance : Ord Instant := ⟨fun s t =>
  (compare s.moment.1 t.moment.1).then (compare s.moment.2 t.moment.2)⟩

end FlatTree
