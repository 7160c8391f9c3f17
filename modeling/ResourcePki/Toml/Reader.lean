import ResourcePki.Toml.Quoted
import ResourcePki.Toml.Scalar

/-!
Reading TOML documents. A document is a sequence of lines that enter values into a growing table,
or name the table that the lines after them go to. Tables can be made in several ways, and each way
limits how they can be added to later: that is what the kinds of `TomlNode` are for.
-/

namespace ResourcePki

/-- How a table in a document came about. -/
inductive TomlTableKind where
  /-- By a header for a table inside it; a header of its own may follow. -/
  | implied
  /-- By the first parts of a dotted key; such keys may add to it. -/
  | dotted
  /-- By its header. -/
  | headed
deriving DecidableEq, Repr

/-- A part of a document while it is read. -/
inductive TomlNode where
  /-- A value after a key, which nothing is added to. -/
  | value (v : TomlValue)
  | table (kind : TomlTableKind) (entries : List (String × TomlNode))
  /-- Tables under one name in double brackets; the last one is added to. -/
  | tables (items : List (List (String × TomlNode)))
deriving Inhabited

namespace TomlNode

mutual

def toValue : TomlNode → TomlValue
  | value v => v
  | table _ entries => .table (entriesValue entries)
  | tables items => .arr (itemsValue items)

def entriesValue : List (String × TomlNode) → List (String × TomlValue)
  | [] => []
  | (key, node) :: rest => (key, node.toValue) :: entriesValue rest

def itemsValue : List (List (String × TomlNode)) → List TomlValue
  | [] => []
  | entries :: rest => .table (entriesValue entries) :: itemsValue rest

end

abbrev Entries := List (String × TomlNode)

/-- Puts a node under a key, in the place of the one that is there. -/
def put (es : Entries) (key : String) (node : TomlNode) : Entries :=
  if es.any (·.1 = key) then es.map fun e => if e.1 = key then (key, node) else e
  else es ++ [(key, node)]

/-- Changes the entries of the table at the end of the path of a header. -/
def underHeader (f : Entries → Option Entries) : List String → Entries → Option Entries
  | [], es => f es
  | key :: path, es => do
    match es.lookup key with
    | none => return put es key (.table .implied (← underHeader f path []))
    | some (.table kind inner) => return put es key (.table kind (← underHeader f path inner))
    | some (.tables items) =>
      let last ← underHeader f path (items.getLast?.getD [])
      return put es key (.tables (items.dropLast ++ [last]))
    | some (.value _) => none

/-- Enters a value under a key that is new. -/
def enter (key : String) (v : TomlValue) (es : Entries) : Option Entries :=
  if es.any (·.1 = key) then none else some (put es key (.value v))

/-- Enters a value under a dotted key. Tables that have a header are not added to in this way. -/
def enterDotted (key : String) (v : TomlValue) : List String → Entries → Option Entries
  | [], es => enter key v es
  | part :: path, es => do
    match es.lookup part with
    | none => return put es part (.table .dotted (← enterDotted key v path []))
    | some (.table kind inner) =>
      if kind = .headed ∨ (path.isEmpty ∧ kind ≠ .dotted) then none
      else return put es part (.table kind (← enterDotted key v path inner))
    | some (.tables items) =>
      if path.isEmpty then none
      else
        let last ← enterDotted key v path (items.getLast?.getD [])
        return put es part (.tables (items.dropLast ++ [last]))
    | some (.value _) => none

/-- Makes the table of a header. -/
def head (key : String) (es : Entries) : Option Entries :=
  match es.lookup key with
  | none => some (put es key (.table .headed []))
  | some (.table .implied inner) => some (put es key (.table .headed inner))
  | _ => none

/-- Makes another table of a header in double brackets. -/
def headAnother (key : String) (es : Entries) : Option Entries :=
  match es.lookup key with
  | none => some (put es key (.tables [[]]))
  | some (.tables items) => some (put es key (.tables (items ++ [[]])))
  | _ => none

end TomlNode

namespace Toml

open Text

def skipBlanks (cs : List Char) : List Char := cs.dropWhile fun c => c = ' ' || c = '\t'

def skipComment? (cs : List Char) : Option (List Char) :=
  match cs with
  | '#' :: rest =>
    let comment := rest.takeWhile isPlain
    let rest := rest.drop comment.length
    if rest.isEmpty || (newline? rest).isSome then some rest else none
  | _ => some cs

/-- Skips blanks, comments and line breaks; the fuel is the length of the text. -/
def skipLines? : Nat → List Char → Option (List Char)
  | 0, _ => none
  | fuel + 1, cs => do
    let rest ← skipComment? (skipBlanks cs)
    match newline? rest with
    | some rest => skipLines? fuel rest
    | none => return rest

def endOfLine? (cs : List Char) : Option (List Char) := do
  let rest ← skipComment? (skipBlanks cs)
  if rest.isEmpty then return rest else newline? rest

def isBareKeyChar (c : Char) : Bool := c.isAlphanum || c = '_' || c = '-'

def simpleKey? (cs : List Char) : Option (String × List Char) :=
  match quotedLine? cs with
  | some (key, rest) => some (.ofList key, rest)
  | none =>
    let key := cs.takeWhile isBareKeyChar
    if key.isEmpty then none else some (.ofList key, cs.drop key.length)

/-- A key with dots between its parts; the fuel is the length of the text. -/
def key? : Nat → List Char → Option (List String × List Char)
  | 0, _ => none
  | fuel + 1, cs => do
    let (part, rest) ← simpleKey? (skipBlanks cs)
    match skipBlanks rest with
    | '.' :: rest => do
      let (parts, rest) ← key? fuel rest
      return (part :: parts, rest)
    | rest => return ([part], rest)

def endsScalar (c : Char) : Bool :=
  c = ' ' || c = '\t' || c = '\n' || c = '\r' || c = ',' || c = ']' || c = '\x7d' || c = '#'

/-- The text of a value without quotes; a time of day may follow a date after a blank. -/
def scalarText (cs : List Char) : List Char :=
  let first := cs.takeWhile (! endsScalar ·)
  match cs.drop first.length with
  | ' ' :: rest =>
    let second := rest.takeWhile (! endsScalar ·)
    if isDate first && second.head?.any Char.isDigit then first ++ ' ' :: second else first
  | _ => first

mutual

def value? : Nat → List Char → Option (TomlValue × List Char)
  | 0, _ => none
  | fuel + 1, cs =>
    match cs with
    | '[' :: rest => (items? fuel rest).map fun (items, rest) => (.arr items, rest)
    | '\x7b' :: rest => do
      let (entries, rest) ← match skipBlanks rest with
        | '\x7d' :: rest => some ([], rest)
        | rest => inline? fuel [] rest
      return (.table (TomlNode.entriesValue entries), rest)
    | c :: rest =>
      if c = '"' ∨ c = '\'' then (quoted? (c :: rest)).map fun (s, rest) => (.str (.ofList s), rest)
      else
        let text := scalarText (c :: rest)
        (scalar? text).map (·, (c :: rest).drop text.length)
    | [] => none

/-- The items of an array, after its opening bracket or a comma. -/
def items? : Nat → List Char → Option (List TomlValue × List Char)
  | 0, _ => none
  | fuel + 1, cs => do
    match ← skipLines? (cs.length + 1) cs with
    | ']' :: rest => return ([], rest)
    | cs => do
      let (v, rest) ← value? fuel cs
      match ← skipLines? (rest.length + 1) rest with
      | ',' :: rest => do
        let (items, rest) ← items? fuel rest
        return (v :: items, rest)
      | ']' :: rest => return ([v], rest)
      | _ => none

/-- The entries of a table on one line, after its opening brace or a comma. -/
def inline? : Nat → TomlNode.Entries → List Char → Option (TomlNode.Entries × List Char)
  | 0, _, _ => none
  | fuel + 1, es, cs => do
    let (key, rest) ← key? (cs.length + 1) cs
    let '=' :: rest := skipBlanks rest | none
    let (v, rest) ← value? fuel (skipBlanks rest)
    let es ← TomlNode.enterDotted (key.getLast?.getD "") v key.dropLast es
    match skipBlanks rest with
    | ',' :: rest => inline? fuel es rest
    | '\x7d' :: rest => return (es, rest)
    | _ => none

end

/-- A header with its brackets, after the opening ones. -/
def header? (closing : List Char) (cs : List Char) : Option (List String × List Char) := do
  let (path, rest) ← key? (cs.length + 1) cs
  return (path, ← endOfLine? (← strip? closing (skipBlanks rest)))

/-- A key with its value, up to the end of the line. -/
def entry? (cs : List Char) : Option (List String × TomlValue × List Char) := do
  let (key, rest) ← key? (cs.length + 1) cs
  let '=' :: rest := skipBlanks rest | none
  let rest := skipBlanks rest
  let (v, rest) ← value? (2 * rest.length + 1) rest
  return (key, v, ← endOfLine? rest)

/-- The lines of a document, for a table that lines go to; the fuel is the length of the text. -/
def lines? : Nat → List String → TomlNode.Entries → List Char → Option TomlNode.Entries
  | 0, _, _, _ => none
  | fuel + 1, current, root, cs => do
    match ← skipLines? (cs.length + 1) cs with
    | [] => return root
    | '[' :: '[' :: rest => do
      let (path, rest) ← header? [']', ']'] rest
      let head := TomlNode.headAnother (path.getLast?.getD "")
      let root ← TomlNode.underHeader head path.dropLast root
      lines? fuel path root rest
    | '[' :: rest => do
      let (path, rest) ← header? [']'] rest
      let root ← TomlNode.underHeader (TomlNode.head (path.getLast?.getD "")) path.dropLast root
      lines? fuel path root rest
    | cs => do
      let (key, v, rest) ← entry? cs
      let root ← TomlNode.underHeader
        (TomlNode.enterDotted (key.getLast?.getD "") v key.dropLast) current root
      lines? fuel current root rest

def ofText? (text : String) : Option TomlValue := do
  let cs := text.toList
  let cs := (strip? ['\ufeff'] cs).getD cs
  return .table (TomlNode.entriesValue (← lines? (cs.length + 1) [] [] cs))

end Toml

end ResourcePki
