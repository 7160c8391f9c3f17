import ResourcePki.Issuance.Handlers
import ResourcePki.Json.Form

/-! The configuration of the system. -/

namespace ResourcePki

/-- How much is logged; each level includes those before it. -/
inductive LogLevel where
  | off
  | error
  | warn
  | info
  | debug
  | trace
deriving DecidableEq, Repr

namespace LogLevel

def names : List (String × LogLevel) :=
  [("off", off), ("error", error), ("warn", warn), ("info", info), ("debug", debug),
    ("trace", trace)]

def rank : LogLevel → Nat
  | off => 0
  | error => 1
  | warn => 2
  | info => 3
  | debug => 4
  | trace => 5

instance : LE LogLevel := ⟨fun a b => a.rank ≤ b.rank⟩

instance (a b : LogLevel) : Decidable (a ≤ b) := inferInstanceAs (Decidable (a.rank ≤ b.rank))

instance : Min LogLevel := ⟨fun a b => if a ≤ b then a else b⟩

/-- The level with a name in any case. -/
def ofText? (s : String) : Option LogLevel := names.lookup s.toLower

instance : JsonForm LogLevel where
  toJson := Json.nameOf names
  ofJson? | .str s => ofText? s | _ => none

end LogLevel

inductive LogType where
  | stderr
  | file
  | syslog
deriving DecidableEq, Repr

namespace LogType

def names : List (String × LogType) := [("stderr", stderr), ("file", file), ("syslog", syslog)]

def ofText? (s : String) : Option LogType := names.lookup s

instance : JsonForm LogType := ⟨Json.nameOf names, Json.named? names⟩

end LogType

inductive ConfigError where
  | unreadable
  | malformed
  | other (text : String)
deriving DecidableEq, Repr

/-- The log type with a name, which must be written in lower case. -/
def LogType.ofText (s : String) : Except ConfigError LogType :=
  match ofText? s with
  | some type => .ok type
  | none => .error (.other s!"expected \"stderr\", \"file\" or \"syslog\", found: \"{s}\"")

/-- What the environment of the program says about logging. -/
structure LogEnvironment where
  level : Option String := none
  type : Option String := none
deriving DecidableEq, Repr

namespace LogEnvironment

def levelVariable : String := "RPKI_ISSUER_LOG_LEVEL"

def typeVariable : String := "RPKI_ISSUER_LOG_TYPE"

/-- What the variables are set to; one without a sensible value does not count. -/
def ofVariables (get : String → Option String) : LogEnvironment where
  level := get levelVariable
  type := get typeVariable

def logLevel (env : LogEnvironment) : LogLevel := (env.level.bind LogLevel.ofText?).getD .info

def logType (env : LogEnvironment) : LogType := (env.type.bind LogType.ofText?).getD .stderr

end LogEnvironment

structure Config where
  logLevel : LogLevel
  logType : LogType
  logFile : String := "./rpki-issuer.log"
  syslogFacility : String := "daemon"
  allResourcesCa : CaName := "CN=ALL Resources,O=Internet"
  productionCa : CaName := "CN=Production CA"
  /-- The number of CAs that a run of the update job counts at most. -/
  updateLimit : Nat := 1000
  /-- How many updates run at the same time; as many as the host likes if not given. -/
  updateWorkers : Option Nat := none
  publisherLimit : Nat := 10
  /-- Whether the managed model is checked; the hosted one always is. -/
  checksManaged : Bool := true
  /-- How often a command is repeated after a failure that may pass. -/
  retries : Nat := 3
  timing : IssuanceTiming := {}
deriving DecidableEq, Repr

namespace IssuanceTiming

def verify (t : IssuanceTiming) : Except ConfigError Unit :=
  if t.validWeeks < 2 then .error (.other "child_certificate_valid_weeks must be at least 2")
  else if t.reissueWeeks < 1 then
    .error (.other "child_certificate_reissue_weeks_before must be at least 1")
  else if t.validWeeks ≤ t.reissueWeeks then
    .error (.other ("child_certificate_reissue_weeks_before must be smaller than " ++
      "child_certificate_valid_weeks"))
  else .ok ()

instance : JsonForm IssuanceTiming where
  toJson t := .obj [("child_certificate_valid_weeks", toJson t.validWeeks),
    ("child_certificate_reissue_weeks_before", toJson t.reissueWeeks)]
  ofJson? j := do
    let [validWeeks, reissueWeeks] ← j.slots
      [["child_certificate_valid_weeks"], ["child_certificate_reissue_weeks_before"]] | none
    let initial : IssuanceTiming := {}
    return ⟨← Json.orElse validWeeks initial.validWeeks,
      ← Json.orElse reissueWeeks initial.reissueWeeks⟩

end IssuanceTiming

namespace Config

/-- What is taken when nothing is configured. -/
def initial (env : LogEnvironment) : Config := { logLevel := env.logLevel, logType := env.logType }

/-- The first thing that makes a configuration unusable. -/
def verify (c : Config) : Except ConfigError Unit :=
  if c.allResourcesCa = "" then .error (.other "all_resources_ca_name must be set")
  else if c.productionCa = "" then .error (.other "production_ca_name must be set")
  else if c.allResourcesCa = c.productionCa then
    .error (.other "all_resources_ca_name and production_ca_name must differ")
  else if c.updateWorkers = some 0 then .error (.other "update_workers must be at least 1")
  else if c.publisherLimit = 0 then
    .error (.other "publisher_repositories_limit must be at least 1")
  else c.timing.verify

def policy (c : Config) : IssuancePolicy where
  timing := c.timing
  publisherLimit := c.publisherLimit
  checksManaged := c.checksManaged

def toFields (c : Config) : List (String × Json) :=
  [("log_level", toJson c.logLevel), ("log_type", toJson c.logType),
    ("log_file", toJson c.logFile), ("syslog_facility", toJson c.syslogFacility),
    ("all_resources_ca_name", toJson c.allResourcesCa),
    ("production_ca_name", toJson c.productionCa), ("update_count_limit", toJson c.updateLimit)] ++
  Json.entry? "update_workers" c.updateWorkers ++
  [("publisher_repositories_limit", toJson c.publisherLimit),
    ("invariant_checking_enabled", toJson c.checksManaged), ("command_retries", toJson c.retries),
    ("issuance_timing", toJson c.timing)]

/-- Reads a configuration; what is not given is taken from the initial one. -/
def ofFields? (logTypeOf? : Json → Option LogType) (env : LogEnvironment) (j : Json) :
    Option Config := do
  let [logLevel, logType, logFile, syslogFacility, allResourcesCa, productionCa, updateLimit,
    updateWorkers, publisherLimit, checksManaged, retries, timing] ← j.slots [["log_level"],
      ["log_type"], ["log_file"], ["syslog_facility"], ["all_resources_ca_name"],
      ["production_ca_name"], ["update_count_limit"], ["update_workers"],
      ["publisher_repositories_limit"], ["invariant_checking_enabled"], ["command_retries"],
      ["issuance_timing"]] | none
  let base := initial env
  return { logLevel := ← Json.orElse logLevel base.logLevel
           logType := ← match logType with
             | none => some base.logType
             | some j => logTypeOf? j
           logFile := ← Json.orElse logFile base.logFile
           syslogFacility := ← Json.orElse syslogFacility base.syslogFacility
           allResourcesCa := ← Json.orElse allResourcesCa base.allResourcesCa
           productionCa := ← Json.orElse productionCa base.productionCa
           updateLimit := ← Json.orElse updateLimit base.updateLimit
           updateWorkers := ← Json.orElse updateWorkers none
           publisherLimit := ← Json.orElse publisherLimit base.publisherLimit
           checksManaged := ← Json.orElse checksManaged base.checksManaged
           retries := ← Json.orElse retries base.retries
           timing := ← Json.orElse timing {} }

def toJson (c : Config) : Json := .obj c.toFields

def ofJson? (env : LogEnvironment) (j : Json) : Option Config :=
  ofFields? ResourcePki.ofJson? env j

end Config

end ResourcePki
