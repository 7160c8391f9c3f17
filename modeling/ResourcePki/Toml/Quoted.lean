import ResourcePki.Text.Scan

/-!
Quoted text in TOML: in double quotes, where a backslash escapes, or in single quotes, where it does
not; and over several lines, in three quotes of either kind.
-/

namespace ResourcePki.Toml

open Text

/-- Tabs are the only control characters that may stand for themselves. -/
def isPlain (c : Char) : Bool := c = '\t' || (32 ≤ c.toNat && c.toNat ≠ 127)

def codePoint? (ds : List Char) : Option Char :=
  (numeral? 16 ds).bind fun n => if n.isValidChar then some (Char.ofNat n) else none

def escape? : List Char → Option (Char × List Char)
  | 'b' :: rest => some ('\x08', rest)
  | 't' :: rest => some ('\t', rest)
  | 'n' :: rest => some ('\n', rest)
  | 'f' :: rest => some ('\x0c', rest)
  | 'r' :: rest => some ('\r', rest)
  | '"' :: rest => some ('"', rest)
  | '\\' :: rest => some ('\\', rest)
  | 'u' :: rest =>
    if 4 ≤ rest.length then (codePoint? (rest.take 4)).map (·, rest.drop 4) else none
  | 'U' :: rest =>
    if 8 ≤ rest.length then (codePoint? (rest.take 8)).map (·, rest.drop 8) else none
  | _ => none

/-- A line break at the start of a text. -/
def newline? : List Char → Option (List Char)
  | '\n' :: rest => some rest
  | '\r' :: '\n' :: rest => some rest
  | _ => none

/-- The rest of a text in double quotes, after the opening one; the fuel is the text's length. -/
def basicRest? : Nat → List Char → List Char → Option (List Char × List Char)
  | 0, _, _ => none
  | _, _, [] => none
  | _, done, '"' :: rest => some (done.reverse, rest)
  | fuel + 1, done, '\\' :: rest => do
    let (c, rest) ← escape? rest
    basicRest? fuel (c :: done) rest
  | fuel + 1, done, c :: rest => if isPlain c then basicRest? fuel (c :: done) rest else none

/-- The rest of a text in single quotes, after the opening one. -/
def literalRest? : List Char → List Char → Option (List Char × List Char)
  | _, [] => none
  | done, c :: rest =>
    if c = '\'' then some (done.reverse, rest)
    else if isPlain c then literalRest? (c :: done) rest
    else none

/-- Three closing quotes, with up to two before them that belong to the text. -/
def closing? (quote : Char) (cs : List Char) : Option (List Char × List Char) :=
  let count := (cs.takeWhile (· = quote)).length
  if 3 ≤ count then
    let extra := min (count - 3) 2
    some (List.replicate extra quote, cs.drop (extra + 3))
  else none

def dropBlank : List Char → List Char
  | ' ' :: rest => dropBlank rest
  | '\t' :: rest => dropBlank rest
  | '\n' :: rest => dropBlank rest
  | '\r' :: '\n' :: rest => dropBlank rest
  | rest => rest

/-- What a backslash at the end of a line leaves out: the rest of the line and all blanks after. -/
def lineEnd? (cs : List Char) : Option (List Char) :=
  (newline? (cs.dropWhile fun c => c = ' ' || c = '\t')).map dropBlank

/-- The rest of a text over several lines, after the opening quotes; the fuel is its length. -/
def linesRest? (quote : Char) (escapes : Bool) :
    Nat → List Char → List Char → Option (List Char × List Char)
  | 0, _, _ => none
  | _, _, [] => none
  | fuel + 1, done, c :: rest =>
    if c = quote then
      match closing? quote (c :: rest) with
      | some (extra, rest) => some (done.reverse ++ extra, rest)
      | none => linesRest? quote escapes fuel (c :: done) rest
    else if escapes ∧ c = '\\' then
      match lineEnd? rest with
      | some rest => linesRest? quote escapes fuel done rest
      | none => do
        let (c, rest) ← escape? rest
        linesRest? quote escapes fuel (c :: done) rest
    else
      match newline? (c :: rest) with
      | some rest => linesRest? quote escapes fuel ('\n' :: done) rest
      | none => if isPlain c then linesRest? quote escapes fuel (c :: done) rest else none

/-- Drops a line break right after the opening quotes. -/
def dropFirstBreak (cs : List Char) : List Char := (newline? cs).getD cs

/-- A text in quotes on one line. -/
def quotedLine? : List Char → Option (List Char × List Char)
  | '"' :: rest => basicRest? (rest.length + 1) [] rest
  | '\'' :: rest => literalRest? [] rest
  | _ => none

def quoted? : List Char → Option (List Char × List Char)
  | '"' :: '"' :: '"' :: rest => linesRest? '"' true (rest.length + 1) [] (dropFirstBreak rest)
  | '\'' :: '\'' :: '\'' :: rest => linesRest? '\'' false (rest.length + 1) [] (dropFirstBreak rest)
  | cs => quotedLine? cs

end ResourcePki.Toml
