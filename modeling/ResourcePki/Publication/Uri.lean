import ResourcePki.Json.Form

/-!
The URIs of published objects. A URI is kept as it was written; only its characters, its scheme
and the segments of its path are checked.
-/

namespace ResourcePki

namespace Uri

open Text

inductive Fault where
  | characters
  | scheme
  | shape
  | emptySegments
  | dotSegments
deriving DecidableEq, Repr

def Fault.message : Fault → String
  | .characters => "invalid characters"
  | .scheme => "bad URI scheme"
  | .shape => "bad URI"
  | .emptySegments => "URI with empty path segments"
  | .dotSegments => "URI with dot path segments"

def isAllowed (c : Char) : Bool :=
  c = '!' || ('$' ≤ c && c ≤ ';') || c = '=' || ('A' ≤ c && c ≤ 'Z') || c = '_' ||
    ('a' ≤ c && c ≤ 'z') || c = '~'

def checkCharacters (cs : List Char) : Except Fault Unit :=
  if cs.all isAllowed then .ok () else .error .characters

/-- Only the last segment may be empty, and none may be a dot or two. -/
def checkSegments : List (List Char) → Except Fault Unit
  | [] => .ok ()
  | ['.'] :: _ => .error .dotSegments
  | ['.', '.'] :: _ => .error .dotSegments
  | [] :: [] => .ok ()
  | [] :: _ => .error .emptySegments
  | _ :: rest => checkSegments rest

def checkPath (cs : List Char) : Except Fault Unit := checkSegments (split '/' cs)

def stripScheme (scheme : String) (cs : List Char) : Except Fault (List Char) := do
  checkCharacters cs
  match stripAnyCase? (scheme ++ "://").toList cs with
  | some rest => return rest
  | none => throw .scheme

end Uri

/-- The place of an object or a directory in a repository that is read with rsync. -/
structure RsyncUri where
  text : String
deriving DecidableEq, Repr, Inhabited

namespace RsyncUri

open Text Uri

/-- A host, a module and a path. -/
def ofText (text : String) : Except Fault RsyncUri := do
  let rest ← stripScheme "rsync" text.toList
  match cut? '/' rest with
  | some (_ :: _, rest) =>
    match cut? '/' rest with
    | some (_ :: _, path) => do
      checkPath path
      return ⟨text⟩
    | _ => throw .shape
  | _ => throw .shape

/-- Adds a path, after a slash if the URI does not end in one. -/
def join (uri : RsyncUri) (path : String) : Except Fault RsyncUri := do
  let cs := path.toList
  if cs.isEmpty then return uri
  checkCharacters cs
  checkPath cs
  let base := uri.text.toList
  return ⟨.ofList (if base.getLast? = some '/' then base ++ cs else base ++ '/' :: cs)⟩

instance : JsonForm RsyncUri where
  toJson u := .str u.text
  ofJson? | .str s => (ofText s).toOption | _ => none

end RsyncUri

/-- The address of a document that is read over HTTPS. -/
structure HttpsUri where
  text : String
deriving DecidableEq, Repr, Inhabited

namespace HttpsUri

open Text Uri

/-- A host and a path. -/
def ofText (text : String) : Except Fault HttpsUri := do
  let rest ← stripScheme "https" text.toList
  match cut? '/' rest with
  | some (_ :: _, path) => do
    checkPath path
    return ⟨text⟩
  | _ => throw .shape

instance : JsonForm HttpsUri where
  toJson u := .str u.text
  ofJson? | .str s => (ofText s).toOption | _ => none

end HttpsUri

end ResourcePki
