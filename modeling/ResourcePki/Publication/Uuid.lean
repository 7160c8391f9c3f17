import ResourcePki.Json.Form

/-!
Universally unique identifiers. They are written as 32 lower case hexadecimal digits in five
groups, and read in a few other notations as well.
-/

namespace ResourcePki

structure Uuid where
  value : Nat
deriving DecidableEq, Repr, Inhabited

namespace Uuid

open Text

/-- The groups of digits have these lengths. -/
def groupLengths : List Nat := [8, 4, 4, 4, 12]

/-- Cuts digits into groups with hyphens between them. -/
def hyphenate : List Nat → List Char → List Char
  | [], ds => ds
  | [n], ds => ds.take n
  | n :: ns, ds => ds.take n ++ '-' :: hyphenate ns (ds.drop n)

def text (u : Uuid) : String := .ofList (hyphenate groupLengths (padded 16 32 u.value))

def ofGroups? (cs : List Char) : Option Uuid :=
  let parts := split '-' cs
  if parts.map List.length = groupLengths then (numeral? 16 parts.flatten).map (⟨·⟩) else none

/-- Plain digits, or groups that may stand in braces or after `urn:uuid:`. -/
def ofText? (s : String) : Option Uuid :=
  let cs := s.toList
  if cs.length = 32 then (numeral? 16 cs).map (⟨·⟩)
  else if cs.length = 38 ∧ cs.head? = some '\x7b' ∧ cs.getLast? = some '\x7d' then
    ofGroups? (cs.drop 1).dropLast
  else ofGroups? ((stripAnyCase? "urn:uuid:".toList cs).getD cs)

instance : JsonForm Uuid where
  toJson u := .str u.text
  ofJson? | .str s => ofText? s | _ => none

end Uuid

end ResourcePki
