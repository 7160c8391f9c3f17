import ResourcePki.CommandLine.Options
import ResourcePki.Config.Toml
import ResourcePki.Invariant.Check
import ResourcePki.Logging

/-!
Carrying out a command of the program. What the program needs of its surroundings is a `Host`, so
that a run on real files and one on files in memory are the same computation.
-/

namespace ResourcePki

structure Host (m : Type → Type) where
  now : m Time
  environment : String → m (Option String)
  /-- The content of a file that can be read. -/
  readFile : String → m (Option ByteArray)
  /-- Makes sure that a file can be appended to. -/
  openFile : String → m Bool
  appendFile : String → String → m Unit
  print : String → m Unit
  printError : String → m Unit

namespace Host

variable {m : Type → Type} [Monad m] (host : Host m)

def logEnvironment : m LogEnvironment := do
  return { level := ← host.environment LogEnvironment.levelVariable
           type := ← host.environment LogEnvironment.typeVariable }

def readConfig (path : String) : m (Except ConfigError Config) := do
  return Config.ofFile (← host.logEnvironment) (← host.readFile path)

def openLog (c : Config) : m (Except ConfigError Logger) := do
  match c.logSink with
  | .error e => return .error e
  | .ok (.file path) =>
    if ← host.openFile path then return .ok ⟨c.logLevel, .file path⟩
    else return .error (.other s!"Failed to open log file '{path}'")
  | .ok sink => return .ok ⟨c.logLevel, sink⟩

/-- Logs a record. The system log is not written to. -/
def log (logger : Logger) (r : LogRecord) : m Unit := do
  if logger.admits r then
    let line := logger.line (← host.now) r
    match logger.sink with
    | .stderr => host.printError line
    | .file path => host.appendFile path line
    | .syslog => return ()

/-- Logs records as the configuration in a file asks for. -/
def logUnder (path : String) (records : List LogRecord) : m (Except ConfigError Unit) := do
  match ← host.readConfig path with
  | .error e => return .error e
  | .ok c =>
    match ← host.openLog c with
    | .error e => return .error e
    | .ok logger => do
      records.forM (host.log logger)
      return .ok ()

end Host

namespace CommandLine

inductive Outcome where
  | done
  | violations (messages : List String)
deriving DecidableEq, Repr

def Outcome.exitCode : Outcome → UInt32
  | done => 0
  | violations _ => 1

inductive Failure where
  | config (e : ConfigError)
  /-- A file could not be read; the context says which. -/
  | io (context : String)
  | state
deriving DecidableEq, Repr

/-- The tree in a file, given its content if it can be read. -/
def treeOf (path : String) (content : Option ByteArray) : Except Failure CaTree :=
  match content.bind String.fromUTF8? with
  | none => .error (.io s!"cannot read '{path}'")
  | some text =>
    match (Json.ofText? text).bind ofJson? with
    | some tree => .ok tree
    | none => .error .state

/-- What is logged before the CAs of a tree are checked. -/
def auditRecord (path : String) (tree : CaTree) : LogRecord where
  target := "rpki_issuer::cli"
  level := .info
  message := s!"Auditing {tree.size} CAs from '{path}'"

section

variable {m : Type → Type} [Monad m] (host : Host m)

def loadConfig (path : Option String) : m (Except ConfigError Config) := do
  let config ← match path with
    | some path => host.readConfig path
    | none => (.ok <| .initial ·) <$> host.logEnvironment
  return do
    let c ← config
    c.verify
    return c

def audit (logger : Option Logger) (path : String) : m (Except Failure Outcome) := do
  match treeOf path (← host.readFile path) with
  | .error e => return .error e
  | .ok tree => do
    if let some logger := logger then host.log logger (auditRecord path tree)
    match (auditTree tree).map (·.message) with
    | [] => return .ok .done
    | messages => return .ok (.violations messages)

def run (options : Options) : m (Except Failure Outcome) := do
  match options.command with
  | .config => do
    host.print ((Config.initial (← host.logEnvironment)).toToml ++ "\n")
    return .ok .done
  | .audit state => do
    match ← loadConfig host options.config with
    | .error e => return .error (.config e)
    | .ok c =>
      match ← host.openLog c with
      | .error e => return .error (.config e)
      | .ok logger => do
        let outcome ← audit host (some logger) state
        if let .ok (.violations messages) := outcome then
          messages.forM fun message => host.print (message ++ "\n")
        return outcome

def runArguments (args : List String) : m (Except Refusal (Except Failure Outcome)) := do
  match Options.ofArguments args (← host.environment configVariable) with
  | .error e => return .error e
  | .ok options => return .ok (← run host options)

end

end CommandLine

end ResourcePki
