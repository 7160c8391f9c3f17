import ResourcePki.Config.Basic
import ResourcePki.Toml.Reader
import ResourcePki.Toml.Writer

/-! The configuration file, which is a TOML document. -/

namespace ResourcePki

/-- A log type in a document: its name, alone or as the only key of an empty table. -/
def LogType.ofSetting? : Json → Option LogType
  | .str s => ofText? s
  | .obj [(s, .obj [])] => ofText? s
  | .obj [(s, .arr [])] => ofText? s
  | _ => none

namespace Config

def toToml (c : Config) : String := Toml.document c.toFields

def ofToml (env : LogEnvironment) (text : String) : Except ConfigError Config :=
  match (Toml.ofText? text).bind fun v => ofFields? LogType.ofSetting? env v.toJson with
  | some c => .ok c
  | none => .error .malformed

/-- The text of a file, if it can be read and is valid UTF-8. -/
def textOf (content : Option ByteArray) : Except ConfigError String :=
  match content.bind String.fromUTF8? with
  | some text => .ok text
  | none => .error .unreadable

def ofFile (env : LogEnvironment) (content : Option ByteArray) : Except ConfigError Config := do
  ofToml env (← textOf content)

end Config

end ResourcePki
