import ResourcePki.Resources.Set
import ResourcePki.Text.Scan

/-!
The text of resource sets. A family is written as a list of its blocks with commas between: AS
numbers as `AS5` or `AS1-AS9`, addresses as a prefix where a block is one and as a range where it
is not. IPv6 addresses are written in the short form of RFC 5952.
-/

namespace ResourcePki

open Text

/-! ### Addresses -/

namespace Ipv4

/-- Four decimal octets without zeros in front. -/
def octet? (cs : List Char) : Option Nat :=
  if cs.head? = some '0' ∧ cs.length ≠ 1 then none
  else (numeral? 10 cs).filter (· < 256)

def ofText? (cs : List Char) : Option Nat := do
  let [a, b, c, d] := (split '.' cs).map octet? | none
  return (((← a) * 256 + (← b)) * 256 + (← c)) * 256 + (← d)

def toText (n : Nat) : List Char :=
  join ['.'] ([n >>> 24 % 256, n >>> 16 % 256, n >>> 8 % 256, n % 256].map (Nat.toDigits 10 ·))

end Ipv4

namespace Ipv6

/-- A group of one to four hexadecimal digits. -/
def group? (cs : List Char) : Option Nat :=
  if cs.length ≤ 4 then numeral? 16 cs else none

/-- Groups with a colon between them, or none at all. -/
def groups? (cs : List Char) : Option (List Nat) :=
  if cs.isEmpty then some [] else (split ':' cs).mapM group?

/-- What stands before and after the first double colon, if there is one. -/
def cutGap? : List Char → Option (List Char × List Char)
  | ':' :: ':' :: rest => some ([], rest)
  | c :: rest => (cutGap? rest).map fun (l, r) => (c :: l, r)
  | [] => none

/-- Eight groups, of which one or more zeros in a row may be left out once. -/
def ofText? (cs : List Char) : Option Nat := do
  let groups ← match cutGap? cs with
    | none => (groups? cs).filter (·.length = 8)
    | some (l, r) => do
      let l ← groups? l
      let r ← groups? r
      if l.length + r.length ≤ 7 then
        some (l ++ List.replicate (8 - l.length - r.length) 0 ++ r)
      else none
  return groups.foldl (· * 65536 + ·) 0

def groups (n : Nat) : List Nat := [7, 6, 5, 4, 3, 2, 1, 0].map fun i => n >>> (16 * i) % 65536

def zeroRun (l : List Nat) : Nat := (l.takeWhile (· = 0)).length

/-- The place and length of the longest run of zeros, the first of those of equal length. -/
def longestRun (l : List Nat) : Nat × Nat :=
  (List.range l.length).foldl (fun best i =>
    let run := zeroRun (l.drop i)
    if best.2 < run then (i, run) else best) (0, 0)

def groupsText (l : List Nat) : List Char := join [':'] (l.map (Nat.toDigits 16 ·))

/-- Leaves the longest run of two or more zeros out; ends mapped IPv4 addresses in dotted form. -/
def toText (n : Nat) : List Char :=
  if n >>> 32 = 0xffff then "::ffff:".toList ++ Ipv4.toText (n % UInt32.size)
  else
    let l := groups n
    let (start, run) := longestRun l
    if run < 2 then groupsText l
    else groupsText (l.take start) ++ [':', ':'] ++ groupsText (l.drop (start + run))

end Ipv6

/-! ### Blocks -/

structure AddressForm where
  bits : Nat
  ofText? : List Char → Option Nat
  toText : Nat → List Char

def Ipv4.form : AddressForm := ⟨32, Ipv4.ofText?, Ipv4.toText⟩

def Ipv6.form : AddressForm := ⟨128, Ipv6.ofText?, Ipv6.toText⟩

/-- The block between two numbers given in order. -/
def Block.between? (first last : Nat) : Option Block :=
  if h : first ≤ last then some ⟨first, last, h⟩ else none

namespace AddressForm

/-- The block of a prefix; bits of the address beyond the prefix are cleared. -/
def prefixBlock (form : AddressForm) (address length : Nat) : Block :=
  let size := 1 <<< (form.bits - length)
  ⟨address / size * size, address / size * size + (size - 1), Nat.le_add_right _ _⟩

/-- An address, a range or a prefix. -/
def block? (form : AddressForm) (cs : List Char) : Option Block :=
  match cut? '/' cs with
  | some (address, length) => do
    return form.prefixBlock (← form.ofText? address) (← natural? form.bits length)
  | none =>
    match cut? '-' cs with
    | some (first, last) => do Block.between? (← form.ofText? first) (← form.ofText? last)
    | none => do
      let n ← form.ofText? cs
      return ⟨n, n, Nat.le_refl n⟩

/-- The number of free bits if the block is exactly one prefix. -/
def freeBits? (b : Block) : Option Nat :=
  let size := b.last - b.first + 1
  if 1 <<< size.log2 = size ∧ b.first % size = 0 then some size.log2 else none

def blockText (form : AddressForm) (b : Block) : List Char :=
  match freeBits? b with
  | some 0 => form.toText b.first
  | some k => form.toText b.first ++ '/' :: Nat.toDigits 10 (form.bits - k)
  | none => form.toText b.first ++ '-' :: form.toText b.last

end AddressForm

namespace Asn

/-- A number with or without `AS` in front. -/
def ofText? (cs : List Char) : Option Nat :=
  natural? Family.asn.largest ((stripAnyCase? ['a', 's'] cs).getD cs)

def block? (cs : List Char) : Option Block :=
  match cut? '-' cs with
  | some (first, last) => do Block.between? (← ofText? first) (← ofText? last)
  | none => do
    let n ← ofText? cs
    return ⟨n, n, Nat.le_refl n⟩

def toText (n : Nat) : List Char := 'A' :: 'S' :: Nat.toDigits 10 n

def blockText (b : Block) : List Char :=
  if b.first = b.last then toText b.first else toText b.first ++ '-' :: toText b.last

end Asn

/-! ### Sets -/

namespace Family

def block? : Family → List Char → Option Block
  | .asn => Asn.block?
  | .ipv4 => Ipv4.form.block?
  | .ipv6 => Ipv6.form.block?

def blockText : Family → Block → List Char
  | .asn => Asn.blockText
  | .ipv4 => Ipv4.form.blockText
  | .ipv6 => Ipv6.form.blockText

/-- A comma separated list of blocks in any order; empty elements are skipped. -/
def blocks? (f : Family) (text : String) : Option Blocks := do
  let elements := ((split ',' text.toList).map trim).filter (! ·.isEmpty)
  return .ofList (← elements.mapM f.block?)

def blocksText (f : Family) (s : Blocks) : String :=
  .ofList (join [',', ' '] (s.toList.map f.blockText))

end Family

namespace ResourceSet

def text (r : ResourceSet) (f : Family) : String := f.blocksText (r.part f)

/-- Reads the three families; names the first that is ill-formed. -/
def ofTexts (asn ipv4 ipv6 : String) : Except Family ResourceSet :=
  match Family.asn.blocks? asn, Family.ipv4.blocks? ipv4, Family.ipv6.blocks? ipv6 with
  | none, _, _ => .error .asn
  | _, none, _ => .error .ipv4
  | _, _, none => .error .ipv6
  | some a, some b, some c => .ok ⟨a, b, c⟩

/-- The set as it stands in messages. -/
def describe (r : ResourceSet) : String :=
  s!"asn: '{r.text .asn}', ipv4: '{r.text .ipv4}', ipv6: '{r.text .ipv6}'"

end ResourceSet

end ResourcePki
