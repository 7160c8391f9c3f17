import ResourcePki.Time.Basic
import ResourcePki.Text.Scan
import ResourcePki.Json.Form

/-!
Times as text. They are written as in RFC 3339, in UTC, with as many places of the second as are
needed, in steps of three. The reader takes any offset from UTC, and is lenient in the rest: a
number may be shorter than its place or have a blank in front.
-/

namespace ResourcePki.Time

open Text

/-! ### Writing -/

/-- The parts of a time on the clock; a leap second is second 60. -/
structure Clock where
  date : Date
  hour : Nat
  minute : Nat
  second : Nat
  nanosecond : Nat
deriving DecidableEq, Repr

def clock (t : Time) : Clock :=
  let seconds := t.ticks / ticksPerSecond
  let part := (t.ticks % ticksPerSecond).toNat
  let ofDay := (seconds % 86400).toNat
  { date := .ofDayNumber (seconds / 86400)
    hour := ofDay / 3600
    minute := ofDay / 60 % 60
    second := ofDay % 60 + part / 1000000000
    nanosecond := part % 1000000000 }

/-- Four digits; years that need more, or come before the year 0, have a sign. -/
def yearText (year : Int) : List Char :=
  if 0 ≤ year ∧ year ≤ 9999 then padded 10 4 year.toNat
  else (if year < 0 then '-' else '+') :: padded 10 4 year.natAbs

def dateText (d : Date) : List Char :=
  yearText d.year ++ '-' :: padded 10 2 d.month ++ '-' :: padded 10 2 d.day

def clockText (c : Clock) : List Char :=
  padded 10 2 c.hour ++ ':' :: padded 10 2 c.minute ++ ':' :: padded 10 2 c.second

/-- No places, or three, six or nine of them. -/
def fractionText (nanosecond : Nat) : List Char :=
  if nanosecond = 0 then []
  else if nanosecond % 1000000 = 0 then '.' :: padded 10 3 (nanosecond / 1000000)
  else if nanosecond % 1000 = 0 then '.' :: padded 10 6 (nanosecond / 1000)
  else '.' :: padded 10 9 nanosecond

def textIn (zone : String) (t : Time) : String :=
  let c := t.clock
  .ofList (dateText c.date ++ 'T' :: clockText c ++ fractionText c.nanosecond ++ zone.toList)

/-- The text in data, ending in `Z`. -/
def text (t : Time) : String := t.textIn "Z"

/-- The text in messages, with the offset from UTC spelled out. -/
def messageText (t : Time) : String := t.textIn "+00:00"

/-- Date and time of day to the second, as at the start of a log line. -/
def stamp (t : Time) : String :=
  let c := t.clock
  .ofList (dateText c.date ++ ' ' :: clockText c)

/-! ### Reading -/

/-- A number of at least one and at most so many digits, with white space in front. -/
def number? (most : Nat) (cs : List Char) : Option (Nat × List Char) :=
  let cs := trimStart cs
  let ds := (cs.take most).takeWhile Char.isDigit
  (numeral? 10 ds).map (·, cs.drop ds.length)

/-- A year has four digits, or a sign and any number of them. -/
def year? (cs : List Char) : Option (Int × List Char) :=
  match trimStart cs with
  | '-' :: rest => if (rest.head?.any Char.isDigit) then
      (number? rest.length rest).map fun (n, rest) => (-(n : Int), rest) else none
  | '+' :: rest => if (rest.head?.any Char.isDigit) then
      (number? rest.length rest).map fun (n, rest) => ((n : Int), rest) else none
  | rest => (number? 4 rest).map fun (n, rest) => ((n : Int), rest)

/-- A separator with white space before it. -/
def mark? (c : Char) (cs : List Char) : Option (List Char) := strip? [c] (trimStart cs)

/-- Places of the second, if a point follows; places after the ninth do not count. -/
def nanoseconds? : List Char → Option (Nat × List Char)
  | '.' :: rest => do
    let ds := rest.takeWhile Char.isDigit
    let kept := ds.take 9
    let n ← numeral? 10 kept
    return (n * Nat.pow 10 (9 - kept.length), rest.drop ds.length)
  | rest => some (0, rest)

def offset? (cs : List Char) : Option (Int × List Char) :=
  match stripAnyCase? ['u', 't', 'c'] cs with
  | some rest => some (0, rest)
  | none =>
    match cs with
    | 'Z' :: rest => some (0, rest)
    | 'z' :: rest => some (0, rest)
    | sign :: h₁ :: h₂ :: rest => do
      let negative ← if sign = '+' then some false
        else if sign = '-' ∨ sign = '\u2212' then some true else none
      let hours ← digits? 10 0 [h₁, h₂]
      match rest.dropWhile fun c => c = ':' || isBlank c with
      | m₁ :: m₂ :: rest => do
        let minutes ← digits? 10 0 [m₁, m₂]
        if minutes < 60 ∧ hours < 24 then
          let seconds : Int := hours * 3600 + minutes * 60
          return (if negative then -seconds else seconds, rest)
        else none
      | _ => none
    | _ => none

def yearInRange (year : Int) : Bool := -262143 ≤ year && year ≤ 262142

/-- The time of a date and time of day at an offset; second 60 is a leap second. -/
def ofClock? (c : Clock) (offset : Int) : Option Time :=
  if c.date.isValid ∧ yearInRange c.date.year ∧ c.hour < 24 ∧ c.minute < 60 ∧ c.second ≤ 60 then
    let part := c.nanosecond + (if c.second = 60 then 1000000000 else 0)
    let seconds : Int := c.date.dayNumber * 86400 + c.hour * 3600 + c.minute * 60 + min c.second 59
    let t : Time := ⟨(seconds - offset) * ticksPerSecond + part⟩
    if yearInRange t.clock.date.year then some t else none
  else none

def ofText? (text : String) : Option Time := do
  let (year, rest) ← year? text.toList
  let (month, rest) ← number? 2 (← mark? '-' rest)
  let (day, rest) ← number? 2 (← mark? '-' rest)
  let rest ← match rest with
    | c :: rest => if c = 'T' ∨ c = 't' ∨ c = ' ' then some rest else none
    | [] => none
  let (hour, rest) ← number? 2 rest
  let (minute, rest) ← number? 2 (← mark? ':' rest)
  let (second, rest) ← number? 2 (← mark? ':' rest)
  let (nanosecond, rest) ← nanoseconds? rest
  let (offset, rest) ← offset? (trimStart rest)
  if (trimStart rest).isEmpty then
    ofClock? ⟨⟨year, month, day⟩, hour, minute, second, nanosecond⟩ offset
  else none

instance : JsonForm Time where
  toJson t := .str t.text
  ofJson? | .str s => ofText? s | _ => none

end ResourcePki.Time

namespace ResourcePki

instance : JsonForm Validity where
  toJson v := .obj [("not_before", toJson v.notBefore), ("not_after", toJson v.notAfter)]
  ofJson? j := do
    let [notBefore, notAfter] ← j.slots [["not_before"], ["not_after"]] | none
    return ⟨← Json.required notBefore, ← Json.required notAfter⟩

end ResourcePki
