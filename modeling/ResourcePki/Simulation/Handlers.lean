import ResourcePki.Dispatch.Engine
import ResourcePki.Simulation.Plan

/-! Handlers and command services for simulations: they note what they were given. -/

namespace ResourcePki

def KeyRing.setCheckNeeded (r : KeyRing) (needed : Bool) : KeyRing :=
  { r with checkNeeded := needed }

/-- Marks the keys of a managed CA as needing a check. -/
def CertificateAuthority.flagKeys (ca : CertificateAuthority) :
    Except Error CertificateAuthority :=
  ca.requireKeys.map fun keys => ca.withKeys (keys.setCheckNeeded true)

/-- What handlers remember: the names of those that ran, and what is left of the plan of each. -/
structure HandlerTrace where
  names : List String := []
  plans : List FailurePlan
deriving DecidableEq, Repr

def HandlerTrace.next (t : HandlerTrace) (i : Nat) : Except Error Unit × HandlerTrace :=
  match t.plans[i]?.getD [] with
  | [] => (.ok (), t)
  | none :: rest => (.ok (), { t with plans := t.plans.set i rest })
  | some e :: rest => (.error e, { t with plans := t.plans.set i rest })

/-- What a handler does, once it has noted its name and before it takes the next entry of its
plan. -/
structure HandlerPlan where
  name : String
  order : Int
  filter : CommandFilter
  /-- The CA whose keys are marked. -/
  flag : Option CaId
  effect : Bool
deriving DecidableEq, Repr

/-- The handler with a plan, given its place among the plans. -/
def HandlerPlan.handler (p : HandlerPlan) (i : Nat) : Handler HandlerTrace where
  name := p.name
  order := p.order
  filter := p.filter
  handle := fun _ => do
    Action.ask fun t => ((), { t with names := t.names ++ [p.name] })
    if let some id := p.flag then Action.update id (·.flagKeys)
    if p.effect then Action.setHadEffect
    Action.attempt (·.next i)

/-- What a command service remembers: the commands it was given, and what came of the job that it
is to run in the midst of its next command. -/
structure CommandTrace (ρ : Type) where
  commands : List CaCommand := []
  nested : List ρ := []
  reenter : Bool := false

namespace CommandTrace

variable {ρ : Type}

/-- Changes nothing and answers as told for the CA. -/
def service (answers : CaId → Except Error CommandStatus) : CommandService (CommandTrace ρ) :=
  fun command e =>
    (answers command.ca,
      { e with memory := { e.memory with commands := e.memory.commands ++ [command] } })

/-- Like `service`, but runs a job once a command is executed, if it is to do so. -/
def reentering (answers : CaId → Except Error CommandStatus)
    (job : Engine (CommandTrace ρ) → ρ × Engine (CommandTrace ρ)) :
    CommandService (CommandTrace ρ) := fun command e =>
  let (r, e) := service answers command e
  if e.memory.reenter then
    let (nested, e) := job { e with memory := { e.memory with reenter := false } }
    (r, { e with memory := { e.memory with nested := e.memory.nested ++ [nested] } })
  else (r, e)

def clear (t : CommandTrace ρ) : CommandTrace ρ := { t with commands := [], nested := [] }

end CommandTrace

end ResourcePki
