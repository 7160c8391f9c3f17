import ResourcePki.Config.Basic

/-! The log: which records go into it, and the lines they become. -/

namespace ResourcePki

/-- Something to be logged by a part of the system, which is named like `rpki_issuer::cli`. -/
structure LogRecord where
  target : String
  level : LogLevel
  message : String
deriving DecidableEq, Repr

namespace LogLevel

/-- The level as it stands in a line. -/
def label (l : LogLevel) : String := (((names.find? (·.2 = l)).map (·.1)).getD "").toUpper

end LogLevel

inductive LogSink where
  | stderr
  | file (path : String)
  | syslog
deriving DecidableEq, Repr

structure Logger where
  level : LogLevel
  sink : LogSink
deriving DecidableEq, Repr

namespace Logger

/--
Parts of the system that log too much at the global level: libraries are not heard below a warning,
and what happens with every command is never traced.
-/
def overrides (level : LogLevel) : List (String × LogLevel) :=
  [("tokio", min level .warn), ("mio", min level .warn), ("rpki", min level .warn),
    ("rpki_issuer::ca::tree", min level .debug),
    ("rpki_issuer::server::dispatch", min level .debug),
    ("rpki_issuer::server::invariants", min level .debug)]

/-- Whether a part of the system is another, or belongs to it. -/
def covers (part target : String) : Bool :=
  target = part || (part ++ "::").isPrefixOf target

def levelFor (l : Logger) (target : String) : LogLevel :=
  (((overrides l.level).find? fun o => covers o.1 target).map (·.2)).getD l.level

def admits (l : Logger) (r : LogRecord) : Bool := decide (r.level ≤ l.levelFor r.target)

/-- The line for a record; at the two highest levels it names the part of the system. -/
def line (l : Logger) (now : Time) (r : LogRecord) : String :=
  if LogLevel.debug ≤ l.level then
    s!"{now.stamp} [{r.level.label}] [{r.target}] {r.message}\n"
  else s!"{now.stamp} [{r.level.label}] {r.message}\n"

end Logger

def syslogFacilities : List String :=
  ["kern", "user", "mail", "daemon", "auth", "syslog", "lpr", "news", "uucp", "cron", "authpriv",
    "ftp", "local0", "local1", "local2", "local3", "local4", "local5", "local6", "local7"]

/-- Facilities are named in any case, and may be preceded by `log_`. -/
def isSyslogFacility (s : String) : Bool :=
  let name := s.toLower
  syslogFacilities.any fun f => name = f || name = "log_" ++ f

def Config.logSink (c : Config) : Except ConfigError LogSink :=
  match c.logType with
  | .stderr => .ok .stderr
  | .file => .ok (.file c.logFile)
  | .syslog =>
    if isSyslogFacility c.syslogFacility then .ok .syslog
    else .error (.other "Invalid syslog_facility")

end ResourcePki
