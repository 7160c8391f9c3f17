/-!
The Gregorian calendar, counted in days from 1 January 1970. Years are grouped into eras of four
hundred years that start on 1 March, so that the leap day comes last in its year.
-/

namespace ResourcePki

structure Date where
  year : Int
  month : Nat
  day : Nat
deriving DecidableEq, Repr

namespace Date

def isLeapYear (year : Int) : Bool := year % 4 = 0 && (year % 100 ≠ 0 || year % 400 = 0)

def daysInMonth (year : Int) (month : Nat) : Nat :=
  if month = 2 then (if isLeapYear year then 29 else 28)
  else if month = 4 ∨ month = 6 ∨ month = 9 ∨ month = 11 then 30
  else 31

def isValid (d : Date) : Bool :=
  1 ≤ d.month && d.month ≤ 12 && 1 ≤ d.day && d.day ≤ daysInMonth d.year d.month

/-- Days in the era before a day that is given by the year of the era and the day of its year. -/
def dayOfEra (year dayOfYear : Int) : Int := year * 365 + year / 4 - year / 100 + dayOfYear

/-- The number of days since 1 January 1970. -/
def dayNumber (d : Date) : Int :=
  let year := if d.month ≤ 2 then d.year - 1 else d.year
  let month : Int := if d.month ≤ 2 then d.month + 9 else (d.month : Int) - 3
  let dayOfYear := (153 * month + 2) / 5 + (d.day - 1)
  year / 400 * 146097 + dayOfEra (year % 400) dayOfYear - 719468

/-- The date a number of days after 1 January 1970. -/
def ofDayNumber (n : Int) : Date :=
  let z := n + 719468
  let doe := z % 146097
  let yoe := (doe - doe / 1460 + doe / 36524 - doe / 146096) / 365
  let doy := doe - dayOfEra yoe 0
  let mp := (5 * doy + 2) / 153
  let day := doy - (153 * mp + 2) / 5 + 1
  let month := if mp < 10 then mp + 3 else mp - 9
  let year := yoe + z / 146097 * 400
  ⟨if month ≤ 2 then year + 1 else year, month.toNat, day.toNat⟩

end Date

end ResourcePki
