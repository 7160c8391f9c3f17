/-!
The arguments of the program. They are read from left to right; the first that is wrong, or asks
for help, decides.
-/

namespace ResourcePki.CommandLine

inductive Command where
  /-- Prints the configuration that is used when there is none. -/
  | config
  /-- Checks the CAs of a saved tree. -/
  | audit (state : String)
deriving DecidableEq, Repr

structure Options where
  config : Option String
  command : Command
deriving DecidableEq, Repr

inductive Refusal where
  | usage
  /-- Help or the version was asked for. -/
  | help
deriving DecidableEq, Repr

/-- Whether an argument is an option or a group of them, not a value. -/
def isOption (arg : String) : Bool :=
  match arg.toList with
  | '-' :: _ :: _ => true
  | _ => false

/-- Whether an argument can be the value of the option before it. -/
def isValue (arg : String) : Bool := !isOption arg && arg ≠ ""

/-- Takes a value for an option that may be given once. -/
def setOnce (current : Option String) (value : String) : Except Refusal String :=
  if current.isSome || value = "" then .error .usage else .ok value

/-- The value that an argument gives to a long option, after an equals sign. -/
def attached? (option : String) (arg : String) : Option String :=
  if (option ++ "=").isPrefixOf arg then some (String.ofList (arg.toList.drop (option.length + 1)))
  else none

/-- The rest of the arguments of the audit; `pending` says that the last one wants a value. -/
def readAudit (pending : Bool) (state : Option String) : List String → Except Refusal Command
  | [] => if pending then .error .usage else state.elim (.error .usage) (.ok <| .audit ·)
  | arg :: rest =>
    if pending then
      if isValue arg then do readAudit false (← setOnce state arg) rest else .error .usage
    else if arg = "--" then
      if rest.isEmpty then state.elim (.error .usage) (.ok <| .audit ·) else .error .usage
    else if arg = "--state" then readAudit true state rest
    else
      match attached? "--state" arg with
      | some value => do readAudit false (← setOnce state value) rest
      | none =>
        if arg = "--help" ∨ "-h".isPrefixOf arg then .error .help else .error .usage

def readNothing (command : Command) : List String → Except Refusal Command
  | [] => .ok command
  | ["--"] => .ok command
  | arg :: _ => if arg = "--help" ∨ "-h".isPrefixOf arg then .error .help else .error .usage

def readHelp : List String → Refusal
  | [] => .help
  | [arg] => if arg = "config" ∨ arg = "audit" ∨ arg = "help" then .help else .usage
  | _ => .usage

/-- The value in a group of short options that starts with the one for the configuration. -/
def shortValue? (arg : String) : Option String :=
  match arg.toList with
  | '-' :: 'c' :: '=' :: rest => some (.ofList rest)
  | '-' :: 'c' :: c :: rest => some (.ofList (c :: rest))
  | _ => none

/-- All arguments; `pending` says that the last one wants a value. -/
def read (pending : Bool) (config : Option String) : List String → Except Refusal Options
  | [] => .error .usage
  | arg :: rest =>
    if pending then
      if isValue arg then do read false (← setOnce config arg) rest else .error .usage
    else if arg = "-c" ∨ arg = "--config" then read true config rest
    else
      match (attached? "--config" arg).orElse fun _ => shortValue? arg with
      | some value => do read false (← setOnce config value) rest
      | none =>
        if arg = "--help" ∨ arg = "--version" ∨ "-h".isPrefixOf arg ∨ "-V".isPrefixOf arg then
          .error .help
        else if arg = "config" then do return ⟨config, ← readNothing .config rest⟩
        else if arg = "audit" then do return ⟨config, ← readAudit false none rest⟩
        else if arg = "help" then .error (readHelp rest)
        else .error .usage

/-- The variable that names a configuration file when no argument does. -/
def configVariable : String := "RPKI_ISSUER_CONFIG"

/-- The options that arguments and the variable for the configuration file give. -/
def Options.ofArguments (args : List String) (configured : Option String) :
    Except Refusal Options := do
  let options ← read false none args
  match options.config, configured with
  | none, some "" => throw .usage
  | none, some file => return { options with config := some file }
  | _, _ => return options

end ResourcePki.CommandLine
