import ResourcePki.Json.Value
import ResourcePki.Text.Scan

/-!
Writing settings as TOML. A text is written in the plainest quotes that will do: double quotes, if
nothing has to be escaped; single quotes; three quotes of either kind; and escapes at the last.
-/

namespace ResourcePki.Toml

def longestRunOf (c : Char) (cs : List Char) : Nat :=
  (cs.foldl (fun (best, run) d => if d = c then (max best (run + 1), run + 1) else (best, 0))
    (0, 0)).1

/-- Whether a character can only be written as an escape. -/
def isControl (c : Char) : Bool :=
  (c.toNat < 32 && c ≠ '\t' && c ≠ '\n') || c.toNat = 127

def escapeText (c : Char) : List Char :=
  if c = '\x08' then ['\\', 'b']
  else if c = '\t' then ['\\', 't']
  else if c = '\n' then ['\\', 'n']
  else if c = '\x0c' then ['\\', 'f']
  else if c = '\r' then ['\\', 'r']
  else if c = '"' then ['\\', '"']
  else if c = '\\' then ['\\', '\\']
  else '\\' :: 'u' :: (Text.padded 16 4 c.toNat).map Char.toUpper

/--
A text with escapes. Over several lines, line breaks stand for themselves, and so do up to two
quotes in a row.
-/
def escaped (lines : Bool) : Nat → List Char → List Char
  | _, [] => []
  | quotes, c :: rest =>
    if c = '"' then
      if lines ∧ quotes < 2 then c :: escaped lines (quotes + 1) rest
      else escapeText c ++ escaped lines 0 rest
    else if isControl c ∨ c = '\t' ∨ c = '\\' ∨ (c = '\n' ∧ !lines) then
      escapeText c ++ escaped lines 0 rest
    else c :: escaped lines 0 rest

def quote (s : String) : List Char :=
  let cs := s.toList
  let control := cs.any isControl
  let backslash := cs.contains '\\'
  let newline := cs.contains '\n'
  let double := longestRunOf '"' cs
  let single := longestRunOf '\'' cs
  let first := if newline then ['\n'] else []
  if !control && !backslash && double = 0 && !newline then '"' :: escaped false 0 cs ++ ['"']
  else if !control && single = 0 && !newline then '\'' :: cs ++ ['\'']
  else if !control && !backslash && double ≤ 2 then
    ['"', '"', '"'] ++ first ++ escaped true 0 cs ++ ['"', '"', '"']
  else if !control && single ≤ 2 then ['\'', '\'', '\''] ++ first ++ cs ++ ['\'', '\'', '\'']
  else if newline then ['"', '"', '"'] ++ first ++ escaped true 0 cs ++ ['"', '"', '"']
  else '"' :: escaped false 0 cs ++ ['"']

/-- The value of a setting; only texts, numbers and truth values are settings. -/
def settingText : Json → List Char
  | .str s => quote s
  | j => j.chars

/-- A line for each setting that is no table. -/
def settingLines (es : List (String × Json)) : List Char :=
  es.flatMap fun (key, v) =>
    match v with
    | .obj _ => []
    | v => key.toList ++ [' ', '=', ' '] ++ settingText v ++ ['\n']

/-- A header and lines for each setting that is a table. -/
def settingTables (es : List (String × Json)) : List Char :=
  es.flatMap fun (key, v) =>
    match v with
    | .obj inner => ['\n', '['] ++ key.toList ++ [']', '\n'] ++ settingLines inner
    | _ => []

/-- Settings, those in tables last. -/
def document (es : List (String × Json)) : String := .ofList (settingLines es ++ settingTables es)

end ResourcePki.Toml
