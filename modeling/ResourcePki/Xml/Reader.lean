import ResourcePki.Text.Scan
import ResourcePki.Xml.Node

/-!
Reading XML documents: an optional declaration and document type, one element, and comments.
Processing instructions and sections of raw text are refused. Every node takes at least one
character, so the length of the text is fuel enough.
-/

namespace ResourcePki.Xml

open Text

def skipSpace (cs : List Char) : List Char := cs.dropWhile isSpace

/-- The character with a code, unless it is no character or the code is zero. -/
def codeChar? (n : Nat) : Option Char :=
  if n ≠ 0 ∧ n.isValidChar then some (Char.ofNat n) else none

/-- The character that a reference stands for, given without its ampersand and semicolon. -/
def reference? : List Char → Option Char
  | '#' :: 'x' :: ds => (numeral? 16 ds).bind codeChar?
  | '#' :: ds => (numeral? 10 ds).bind codeChar?
  | name => (references.find? (·.2 = name)).map (·.1)

/-- Replaces references by what they stand for; the fuel is the length of the text. -/
def unescape? : Nat → List Char → Option (List Char)
  | _, [] => some []
  | 0, _ => none
  | fuel + 1, '&' :: rest => do
    let (name, rest) ← cut? ';' rest
    return (← reference? name) :: (← unescape? fuel rest)
  | fuel + 1, c :: rest => (unescape? fuel rest).map (c :: ·)

/-- What stands in a tag and after it; a quoted part may hold the end of a tag. -/
def tag? (quote : Option Char) : List Char → Option (List Char × List Char)
  | [] => none
  | c :: rest =>
    match quote with
    | some q => (tag? (if c = q then none else some q) rest).map fun (t, rest) => (c :: t, rest)
    | none =>
      if c = '>' then some ([], rest)
      else (tag? (if c = '"' ∨ c = '\'' then some c else none) rest).map
        fun (t, rest) => (c :: t, rest)

/-- The rest of a text after the first occurrence of a mark. -/
def after? (mark : List Char) : List Char → Option (List Char)
  | [] => none
  | c :: rest =>
    match strip? mark (c :: rest) with
    | some rest => some rest
    | none => after? mark rest

/-- Names with values in quotes, each name once; the fuel is the length of the text. -/
def attributes? : Nat → List (String × String) → List Char → Option (List (String × String))
  | 0, done, _ => some done
  | fuel + 1, done, cs =>
    match skipSpace cs with
    | [] => some done
    | cs => do
      let name := cs.takeWhile fun c => !isSpace c && c ≠ '='
      let key := String.ofList name
      if name.isEmpty || done.any (·.1 = key) then none
      let '=' :: cs := skipSpace (cs.drop name.length) | none
      let quote :: cs := skipSpace cs | none
      if quote ≠ '"' ∧ quote ≠ '\'' then none
      let (value, rest) ← cut? quote cs
      let value ← unescape? value.length value
      attributes? fuel (done ++ [(key, .ofList value)]) rest

/-- The start of an element: its name, its attributes, and whether it is empty. -/
structure StartTag where
  name : List Char
  attributes : List (String × String)
  isEmpty : Bool

def startTag? (content : List Char) : Option StartTag := do
  let isEmpty := content.getLast? = some '/'
  let content := if isEmpty then content.dropLast else content
  let name := content.takeWhile (! isSpace ·)
  if name.isEmpty then none
  let rest := content.drop name.length
  return ⟨name, ← attributes? (rest.length + 1) [] rest, isEmpty⟩

mutual

/-- An element, given after its opening bracket. -/
def element? : Nat → List Char → Option (XmlNode × List Char)
  | 0, _ => none
  | fuel + 1, cs => do
    let (content, rest) ← tag? none cs
    let start ← startTag? content
    let name := String.ofList start.name
    if start.isEmpty then return (.element name start.attributes [], rest)
    let (children, rest) ← nodes? fuel rest
    let rest ← strip? ('<' :: '/' :: start.name) rest
    let '>' :: rest := skipSpace rest | none
    return (.element name start.attributes children, rest)

/-- Nodes up to the end of the element around them, or of the text. -/
def nodes? : Nat → List Char → Option (List XmlNode × List Char)
  | 0, _ => none
  | _, [] => some ([], [])
  | _, '<' :: '/' :: rest => some ([], '<' :: '/' :: rest)
  | fuel + 1, '<' :: '!' :: '-' :: '-' :: rest => do
    let rest ← after? ['-', '-', '>'] rest
    let (nodes, rest) ← nodes? fuel rest
    return (.comment :: nodes, rest)
  | _, '<' :: '!' :: _ => none
  | _, '<' :: '?' :: _ => none
  | fuel + 1, '<' :: rest => do
    let (node, rest) ← element? fuel rest
    let (nodes, rest) ← nodes? fuel rest
    return (node :: nodes, rest)
  | fuel + 1, c :: rest => do
    let text := (c :: rest).takeWhile (· ≠ '<')
    let (nodes, rest) ← nodes? fuel ((c :: rest).drop text.length)
    return (.text text :: nodes, rest)

end

/-- The rest of a text after the end of a document type, which may hold other brackets. -/
def afterBrackets? : Nat → List Char → Option (List Char)
  | _, [] => none
  | depth, '<' :: rest => afterBrackets? (depth + 1) rest
  | 0, '>' :: rest => some rest
  | depth + 1, '>' :: rest => afterBrackets? depth rest
  | depth, _ :: rest => afterBrackets? depth rest

/-- Skips declarations, document types, comments and blanks before the root element. -/
def skipProlog? : Nat → List Char → Option (List Char)
  | 0, _ => none
  | fuel + 1, cs =>
    match skipSpace cs with
    | '<' :: '?' :: 'x' :: 'm' :: 'l' :: rest => (after? ['?', '>'] rest).bind (skipProlog? fuel)
    | '<' :: '!' :: '-' :: '-' :: rest => (after? ['-', '-', '>'] rest).bind (skipProlog? fuel)
    | '<' :: '!' :: rest => do
      let rest ← stripAnyCase? "doctype".toList rest
      skipProlog? fuel (← afterBrackets? 0 rest)
    | cs => some cs

def root? (text : String) : Option XmlNode := do
  let cs := text.toList
  let '<' :: cs ← skipProlog? (cs.length + 1) ((strip? ['\ufeff'] cs).getD cs) | none
  let (root, rest) ← element? (2 * cs.length + 2) cs
  let (nodes, rest) ← nodes? (2 * rest.length + 2) rest
  if rest.isEmpty && nodes.all isFiller then return root else none

end ResourcePki.Xml
