import ResourcePki.Json.Form

/-!
Bytes as text in standard base64: padding is required, white space and stray bits are refused.
-/

namespace ResourcePki

abbrev Bytes := List UInt8

namespace Base64

def digitValue? (c : Char) : Option Nat :=
  if 'A' ≤ c ∧ c ≤ 'Z' then some (c.toNat - 'A'.toNat)
  else if 'a' ≤ c ∧ c ≤ 'z' then some (c.toNat - 'a'.toNat + 26)
  else if '0' ≤ c ∧ c ≤ '9' then some (c.toNat - '0'.toNat + 52)
  else if c = '+' then some 62
  else if c = '/' then some 63
  else none

def digit (n : Nat) : Char :=
  if n < 26 then Char.ofNat ('A'.toNat + n)
  else if n < 52 then Char.ofNat ('a'.toNat + (n - 26))
  else if n < 62 then Char.ofNat ('0'.toNat + (n - 52))
  else if n = 62 then '+'
  else '/'

/-- Three bytes are four digits; one or two at the end are filled up with padding. -/
def encode : Bytes → List Char
  | [] => []
  | [a] =>
    let n := a.toNat * 16
    [digit (n / 64), digit (n % 64), '=', '=']
  | [a, b] =>
    let n := (a.toNat * 256 + b.toNat) * 4
    [digit (n / 4096), digit (n / 64 % 64), digit (n % 64), '=']
  | a :: b :: c :: rest =>
    let n := (a.toNat * 256 + b.toNat) * 256 + c.toNat
    digit (n / 262144) :: digit (n / 4096 % 64) :: digit (n / 64 % 64) :: digit (n % 64) ::
      encode rest

def decode? : List Char → Option Bytes
  | [] => some []
  | [p, q, '=', '='] => do
    let n := (← digitValue? p) * 64 + (← digitValue? q)
    if n % 16 = 0 then return [UInt8.ofNat (n / 16)] else none
  | [p, q, r, '='] => do
    let n := ((← digitValue? p) * 64 + (← digitValue? q)) * 64 + (← digitValue? r)
    if n % 4 = 0 then return [UInt8.ofNat (n / 1024), UInt8.ofNat (n / 4 % 256)] else none
  | p :: q :: r :: s :: rest => do
    let n := (((← digitValue? p) * 64 + (← digitValue? q)) * 64 + (← digitValue? r)) * 64
      + (← digitValue? s)
    return UInt8.ofNat (n / 65536) :: UInt8.ofNat (n / 256 % 256) :: UInt8.ofNat (n % 256) ::
      (← decode? rest)
  | _ => none

end Base64

instance : JsonForm Bytes where
  toJson b := .str (.ofList (Base64.encode b))
  ofJson? | .str s => Base64.decode? s.toList | _ => none

end ResourcePki
