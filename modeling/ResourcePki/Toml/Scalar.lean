import ResourcePki.Text.Scan
import ResourcePki.Time.Calendar
import ResourcePki.Toml.Value

/-! The TOML values that stand without quotes: truth values, numbers, dates and times. -/

namespace ResourcePki.Toml

open Text

/-- Digits of a base with single underscores between them, which are dropped. -/
def grouped? (isDigit : Char → Bool) : List Char → Option (List Char)
  | [] => none
  | [c] => if isDigit c then some [c] else none
  | c :: '_' :: rest => if isDigit c then (grouped? isDigit rest).map (c :: ·) else none
  | c :: rest => if isDigit c then (grouped? isDigit rest).map (c :: ·) else none

/-- The value of grouped digits of a base. -/
def groupedNumeral? (base : Nat) (cs : List Char) : Option Nat :=
  (grouped? (fun c => (digit? base c).isSome) cs).bind (numeral? base)

/-- Takes a sign off, if there is one. -/
def signed (cs : List Char) : Bool × List Char :=
  match cs with
  | '-' :: rest => (true, rest)
  | '+' :: rest => (false, rest)
  | _ => (false, cs)

/-- A decimal number without a zero in front of other digits. -/
def decimal? (cs : List Char) : Option Nat :=
  if cs.head? = some '0' ∧ cs.length ≠ 1 then none else groupedNumeral? 10 cs

/-- A number that fits 64 bits with a sign. -/
def fitting (n : Int) : Option TomlValue :=
  if Int64.minValue.toInt ≤ n ∧ n ≤ Int64.maxValue.toInt then some (.int n) else none

def integer? (cs : List Char) : Option TomlValue :=
  match cs with
  | '0' :: 'x' :: ds => (groupedNumeral? 16 ds).bind fun n => fitting n
  | '0' :: 'o' :: ds => (groupedNumeral? 8 ds).bind fun n => fitting n
  | '0' :: 'b' :: ds => (groupedNumeral? 2 ds).bind fun n => fitting n
  | _ =>
    let (negative, ds) := signed cs
    (decimal? ds).bind fun n => fitting (if negative then -(n : Int) else n)

def isExponent (cs : List Char) : Bool := (grouped? Char.isDigit (signed cs).2).isSome

/-- Whether some text is a number with a fraction or an exponent or both, without a sign. -/
def isReal (cs : List Char) : Bool :=
  let mantissa := cs.takeWhile fun c => c ≠ 'e' && c ≠ 'E'
  let exponent := cs.drop mantissa.length
  let exponentOk := exponent.isEmpty || isExponent (exponent.drop 1)
  match cut? '.' mantissa with
  | some (whole, fraction) =>
    (decimal? whole).isSome && (grouped? Char.isDigit fraction).isSome && exponentOk
  | none => (decimal? mantissa).isSome && !exponent.isEmpty && exponentOk

def real? (cs : List Char) : Option TomlValue :=
  let number := (signed cs).2
  if number = ['i', 'n', 'f'] ∨ number = ['n', 'a', 'n'] ∨ isReal number then some (.real cs)
  else none

/-- A number of exactly two digits, up to a largest one. -/
def twoDigits? (least most : Nat) (cs : List Char) : Option Nat :=
  if cs.length = 2 ∧ cs.all Char.isDigit then
    (numeral? 10 cs).filter fun n => least ≤ n && n ≤ most
  else none

def isDate (cs : List Char) : Bool :=
  match split '-' cs with
  | [year, month, day] =>
    year.length = 4 && year.all Char.isDigit &&
      match numeral? 10 year, twoDigits? 1 12 month, twoDigits? 1 31 day with
      | some y, some m, some d => Date.isValid ⟨y, m, d⟩
      | _, _, _ => false
  | _ => false

/-- Hours, minutes, seconds and perhaps a fraction of a second. -/
def isClock (cs : List Char) : Bool :=
  match split ':' cs with
  | [hour, minute, second] =>
    let (second, fraction) := (cut? '.' second).getD (second, ['0'])
    (twoDigits? 0 23 hour).isSome && (twoDigits? 0 59 minute).isSome &&
      (twoDigits? 0 60 second).isSome && !fraction.isEmpty && fraction.all Char.isDigit
  | _ => false

def isOffset (cs : List Char) : Bool :=
  match cs with
  | [c] => c = 'Z' || c = 'z'
  | sign :: rest =>
    (sign = '+' || sign = '-') &&
      match split ':' rest with
      | [hour, minute] => (twoDigits? 0 23 hour).isSome && (twoDigits? 0 59 minute).isSome
      | _ => false
  | [] => true

/-- Whether some text can start an offset from UTC. -/
def startsOffset (c : Char) : Bool := c = 'Z' || c = 'z' || c = '+' || c = '-'

def isDatetime (cs : List Char) : Bool :=
  let date := cs.take 10
  match cs.drop 10 with
  | [] => isDate date || isClock cs
  | mark :: rest =>
    let clock := rest.takeWhile (! startsOffset ·)
    isClock cs || (isDate date && (mark = 'T' || mark = 't' || mark = ' ') && isClock clock &&
      isOffset (rest.drop clock.length))

/-- The value of some text without quotes. -/
def scalar? (cs : List Char) : Option TomlValue :=
  if cs = "true".toList then some (.bool true)
  else if cs = "false".toList then some (.bool false)
  else if isDatetime cs then some (.datetime cs)
  else (integer? cs).orElse fun _ => real? cs

end ResourcePki.Toml
