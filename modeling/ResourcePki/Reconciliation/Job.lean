import ResourcePki.Reconciliation.Round

/-!
The job that brings all certificates in line with the resource registry: the production CA first,
then everything below it, within a budget of updates.
-/

namespace ResourcePki

structure UpdateReport where
  /-- CAs whose certificates changed, up to the limit. -/
  updated : Nat := 0
  /-- CAs below the production CA. -/
  considered : Nat := 0
  failed : Nat := 0
  /-- CAs whose certificates changed after the limit was reached. -/
  beyondLimit : Nat := 0
deriving DecidableEq, Repr

inductive JobResult where
  | success
  | skipped
  | failure
deriving DecidableEq, Repr

namespace JobResult

def all : List JobResult := [success, skipped, failure]

def text : JobResult → String
  | success => "success"
  | skipped => "skipped"
  | failure => "failure"

end JobResult

structure UpdateJob (ε : Type) where
  allResourcesCa : CaName
  productionCa : CaName
  /-- How many updates a run may count. -/
  limit : Nat
  /-- Whether there is a resource registry to go by. -/
  registry : Except Error Unit
  execute : CommandService ε
  /-- The order of steps for a number of tasks. -/
  schedule : Nat → List Nat := oneByOne

namespace UpdateJob

variable {ε : Type}

def name : String := "all-ca-certificate-update"

/-- The production CA, if the tree is ready to be updated. -/
def production? (job : UpdateJob ε) (e : Engine ε) : Option CaIdentity × Engine ε :=
  if (e.tree.findByName? job.allResourcesCa).isNone then
    (none, e.note (.allResourcesCaMissing job.allResourcesCa))
  else
    match e.tree.findByName? job.productionCa with
    | none => (none, e.note (.productionCaMissing job.productionCa))
    | some ca => (some ca.identity, e)

def report (round : UpdateRound ε) : UpdateReport where
  updated := round.budget.count
  considered := round.tasks.length
  failed := round.count .failed
  beyondLimit := round.count .updatedBeyondLimit

def updateChildren (job : UpdateJob ε) (children : List CaIdentity) (e : Engine ε) :
    UpdateReport × Engine ε :=
  let round := (UpdateRound.start children job.limit e).run job.execute
    (job.schedule children.length)
  (report round,
    if job.limit ≤ round.budget.count then round.engine.note (.updateLimitReached job.limit)
    else round.engine)

def run (job : UpdateJob ε) (e : Engine ε) : Except Error UpdateReport × Engine ε :=
  match job.registry with
  | .error err => (.error err, e)
  | .ok () =>
    match job.production? e with
    | (none, e) => (.ok {}, e)
    | (some production, e) =>
      match job.execute (.update production.id) e with
      | (.error err, e) => (.error err, e)
      | (.ok _, e) =>
        match e.tree.descendantsOf production.name with
        | .error err => (.error err, e)
        | .ok children =>
          let (report, e) := job.updateChildren children e
          (.ok report, e)

/-- Runs the job unless it is running or this is not the node for it; failures go into the log. -/
def start (job : UpdateJob ε) (active : Bool) (e : Engine ε) : JobResult × Engine ε :=
  if !active then (.skipped, e)
  else if e.updating then (.skipped, e.note (.jobStillRunning name))
  else
    match job.run { e with updating := true } with
    | (.ok _, e) => (.success, { e with updating := false })
    | (.error err, e) => (.failure, { e.note (.jobFailed name err) with updating := false })

end UpdateJob

end ResourcePki
