import ResourcePki.Command
import ResourcePki.Error
import ResourcePki.Invariant.Violation

/-! What goes into the log while commands and jobs run, other than what is of interest to few. -/

namespace ResourcePki

inductive Severity where
  | warn
  | error
deriving DecidableEq, Repr

def Severity.text : Severity → String
  | warn => "WARN"
  | error => "ERROR"

inductive Event where
  | lookupFailed (ca : CaName) (e : Error)
  | retrying (command : CaCommand) (attempt : Nat) (e : Error)
  | invariantViolated (command : CaCommand) (violation : InvariantViolation)
  | cleanupFailed (e : Error) (fault : RepositoryFault)
  | alreadyRemoved (handle : PublisherHandle) (ca : CaName)
  | allResourcesCaMissing (name : CaName)
  | productionCaMissing (name : CaName)
  | caUpdateFailed (ca : CaName) (e : Error)
  | updateLimitReached (limit : Nat)
  | jobStillRunning (job : String)
  | jobFailed (job : String) (e : Error)
deriving DecidableEq, Repr

namespace Event

def severity : Event → Severity
  | cleanupFailed _ _ => .error
  | allResourcesCaMissing _ => .error
  | productionCaMissing _ => .error
  | caUpdateFailed _ _ => .error
  | jobFailed _ _ => .error
  | _ => .warn

def message : Event → String
  | lookupFailed ca e => s!"Could not look up resources for CA '{ca}': {e.message}"
  | retrying command attempt e =>
    s!"Retrying command {command.text} after transient error (attempt {attempt}): {e.message}"
  | invariantViolated command violation =>
    s!"invariant check failed after {command.text}: {violation.message}"
  | cleanupFailed e fault =>
    s!"Cleanup after error '{e.message}' failed as well: {fault.message}"
  | alreadyRemoved handle ca =>
    s!"Publisher '{handle.text}' of CA '{ca}' was already removed from the repository service"
  | allResourcesCaMissing name => s!"All resources CA '{name}' was not found."
  | productionCaMissing name => s!"Production CA '{name}' was not found."
  | caUpdateFailed ca e => s!"Error for CA '{ca}': {e.message}"
  | updateLimitReached limit =>
    s!"Reached the limit of {limit} updates, remaining CAs are updated in the next run"
  | jobStillRunning job => s!"Skipping '{job}', it is still running"
  | jobFailed job e => s!"Background service '{job}' failed: {e.message}"

end Event

end ResourcePki
