import ResourcePki.Issuance.Services
import ResourcePki.Publishing.Service
import ResourcePki.Registry
import ResourcePki.Simulation.Names

/-!
Collaborators for simulations. Each follows a plan that says how its next calls fail, and answers
the others by a rule: signatures, keys and repositories can be told apart by what they were asked.
-/

namespace ResourcePki

/-- How the next calls come out: an entry of a plan is a failure or a success, and what comes after
the end succeeds. -/
abbrev FailurePlan := List (Option Error)

def FailurePlan.failure? (plan : FailurePlan) (n : Nat) : Option Error := (plan[n]?).join

/-- Signs with the name of the key and the serial number. Some subjects are refused, which does not
count as a call; the plan begins after a number of signings. -/
def Signer.planned (refused : List String) (plan : FailurePlan) (start : Nat) : Signer :=
  fun history key template =>
    if refused.contains template.subjectName then .error (.signer "signer refuses")
    else
      let since := history.take (history.length - start)
      match plan.failure? (since.countP fun s => !refused.contains s.template.subjectName) with
      | some e => .error e
      | none => .ok s!"{key}:{template.serial}".toUTF8.toList

/-- Names the keys by counting them; the plan begins after a number of answers. -/
def KeySource.planned (plan : FailurePlan) (start : Nat) : KeySource := fun history =>
  match plan.failure? (history.length - start) with
  | some e => .error e
  | none => .ok s!"GENKEY-{(history.countP (·.toOption.isSome)) + 1}"

/-- Like `lookup`, but the look-up of some names fails. -/
def ResourceRegistry.lookupExcept (r : ResourceRegistry) (offline : List CaName) :
    ResourceLookup := fun ca =>
  if offline.contains ca.name then .error (.resourceLookup "registry offline") else r.lookup ca

namespace RepositoryResponse

/-- The repository that is made for a handle. -/
def simulated (handle : PublisherHandle) : RepositoryResponse where
  idCert := "cmVwb3NpdG9yeQ=="
  name := ⟨handle.text⟩
  service := ⟨"https://repo.example.net/rfc8181/"⟩
  info := { base := ⟨s!"rsync://repo.example.net/repo/{handle.text}/"⟩
            notification := some ⟨"https://repo.example.net/rrdp/notification.xml"⟩ }
  tag := none

end RepositoryResponse

namespace RepositoryCall

def isCreate : RepositoryCall → Bool
  | create _ _ _ => true
  | delete _ _ => false

end RepositoryCall

/-- A repository service that draws its handles in order and fails as told, until told otherwise. -/
def RepositoryService.planned (creating deleting : PublisherHandle → Option RepositoryFault) :
    RepositoryService where
  create := fun _ handle _ => (creating handle).elim (.ok (.simulated handle)) .error
  delete := fun _ handle => (deleting handle).elim (.ok ()) .error
  handle := fun calls => IdSeries.handles.get (calls.countP (·.isCreate) + 1)

end ResourcePki
