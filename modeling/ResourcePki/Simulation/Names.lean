import ResourcePki.Publication.Uuid

/-!
Ids for simulations. The ids of a series share their first digits, and the last twelve count. In a
text they are shown by a short name with the same number.
-/

namespace ResourcePki

structure IdSeries where
  /-- The first 24 characters of the ids. -/
  stem : String
deriving DecidableEq, Repr

namespace IdSeries

/-- The handles that are drawn for publishers. -/
def handles : IdSeries := ⟨"d1e5c0de-0000-4000-8000-"⟩

/-- The ids of trust anchor requests. -/
def requests : IdSeries := ⟨"d1e5c0de-0001-4000-8000-"⟩

def get (s : IdSeries) (n : Nat) : Uuid :=
  (Uuid.ofText? (s.stem ++ String.ofList (Text.padded 16 12 n))).getD ⟨0⟩

/-- Replaces a mark together with what is taken after it, if anything is. -/
def replaceMarked (mark : String) (take : List Char → List Char) (f : List Char → String)
    (text : String) : String :=
  match text.splitOn mark with
  | [] => text
  | first :: rest =>
    first ++ String.join (rest.map fun part =>
      let taken := take part.toList
      if taken.isEmpty then mark ++ part
      else f taken ++ String.ofList (part.toList.drop taken.length))

/-- Writes a name in place of each id. -/
def shorten (s : IdSeries) (name : Nat → String) (text : String) : String :=
  replaceMarked s.stem (·.take 12) (fun ds => name ((Text.numeral? 16 ds).getD 0)) text

/-- Writes the ids in place of a mark with a number. -/
def expand (s : IdSeries) (mark : String) (text : String) : String :=
  replaceMarked mark (·.takeWhile Char.isDigit)
    (fun ds => (s.get ((Text.numeral? 10 ds).getD 0)).text) text

end IdSeries

end ResourcePki
