/-!
JSON values and their text. Objects keep their entries in the order given, repeated names
included, because what a repeated name means is up to the reader of the object.
-/

namespace ResourcePki

inductive Json where
  | null
  | bool (b : Bool)
  /-- A number without fraction and exponent that fits 64 bits. -/
  | int (n : Int)
  /-- Any other number, as it was written. -/
  | real (text : List Char)
  | str (s : String)
  | arr (items : List Json)
  | obj (entries : List (String × Json))
deriving Inhabited, Repr

namespace Json

def entries (name : String) : List (String × Json) → List Json
  | [] => []
  | (key, v) :: rest => if key = name then v :: entries name rest else entries name rest

def get? (name : String) : Json → Option Json
  | .obj es => (entries name es).head?
  | _ => none

def hexByte (n : Nat) : List Char := [Nat.digitChar (n / 16), Nat.digitChar (n % 16)]

/-- A character inside quotes: quote, backslash and control characters are escaped. -/
def escapeChar (c : Char) : List Char :=
  if c = '"' then ['\\', '"']
  else if c = '\\' then ['\\', '\\']
  else if c = '\n' then ['\\', 'n']
  else if c = '\r' then ['\\', 'r']
  else if c = '\t' then ['\\', 't']
  else if c = '\x08' then ['\\', 'b']
  else if c = '\x0c' then ['\\', 'f']
  else if c.toNat < 32 then ['\\', 'u', '0', '0'] ++ hexByte c.toNat
  else [c]

def quote (s : String) : List Char := '"' :: s.toList.flatMap escapeChar ++ ['"']

mutual

/-- The text without white space. -/
def chars : Json → List Char
  | .null => ['n', 'u', 'l', 'l']
  | .bool true => ['t', 'r', 'u', 'e']
  | .bool false => ['f', 'a', 'l', 's', 'e']
  | .int n => if n < 0 then '-' :: Nat.toDigits 10 n.natAbs else Nat.toDigits 10 n.natAbs
  | .real text => text
  | .str s => quote s
  | .arr items => '[' :: itemsChars items
  | .obj es => '\x7b' :: entriesChars es

/-- The items of an array with the closing bracket. -/
def itemsChars : List Json → List Char
  | [] => [']']
  | [v] => v.chars ++ [']']
  | v :: w :: rest => v.chars ++ ',' :: itemsChars (w :: rest)

/-- The entries of an object with the closing brace. -/
def entriesChars : List (String × Json) → List Char
  | [] => ['\x7d']
  | [(key, v)] => quote key ++ ':' :: (v.chars ++ ['\x7d'])
  | (key, v) :: e :: rest => quote key ++ ':' :: (v.chars ++ ',' :: entriesChars (e :: rest))

end

def text (j : Json) : String := .ofList j.chars

end Json

end ResourcePki
