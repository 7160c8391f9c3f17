import ResourcePki.Dispatch.Engine

/-!
One round of updates for a list of CAs. Each is a task of three steps: ask whether the budget is
used up, execute the command, and count it if it had an effect. The steps of different tasks may
mix in any way; a schedule says which task takes the next step. Since the budget is asked before
and counted after a command, tasks that are under way together can go beyond it.
-/

namespace ResourcePki

/-- The number of updates that a round may count. -/
structure UpdateBudget where
  limit : Nat
  count : Nat := 0
deriving DecidableEq, Repr

namespace UpdateBudget

def isExhausted (b : UpdateBudget) : Bool := b.limit ≤ b.count

/-- Counts one more update unless the limit is reached. -/
def spend? (b : UpdateBudget) : Option UpdateBudget :=
  if b.count < b.limit then some { b with count := b.count + 1 } else none

end UpdateBudget

inductive ChildOutcome where
  | updated
  | updatedBeyondLimit
  | unchanged
  | skipped
  | failed
deriving DecidableEq, Repr

inductive TaskState where
  | waiting
  /-- The budget was not used up. -/
  | admitted
  | executed (result : Except Error CommandStatus)
  | done (outcome : ChildOutcome)

structure UpdateTask where
  child : CaIdentity
  state : TaskState := .waiting

/-- The command that updates a CA. -/
def CaCommand.update (id : CaId) : CaCommand := ⟨id, .background, .updateAllIncoming⟩

structure UpdateRound (ε : Type) where
  tasks : List UpdateTask
  budget : UpdateBudget
  engine : Engine ε

namespace UpdateRound

variable {ε : Type}

def start (children : List CaIdentity) (limit : Nat) (e : Engine ε) : UpdateRound ε :=
  { tasks := children.map fun child => { child }, budget := { limit }, engine := e }

/-- Counts what came of a command. -/
def settle (child : CaIdentity) (budget : UpdateBudget) (e : Engine ε) :
    Except Error CommandStatus → ChildOutcome × UpdateBudget × Engine ε
  | .error err => (.failed, budget, e.note (.caUpdateFailed child.name err))
  | .ok status =>
    if status.hadEffect then
      match budget.spend? with
      | some budget => (.updated, budget, e)
      | none => (.updatedBeyondLimit, budget, e)
    else (.unchanged, budget, e)

/-- Lets a task take its next step; a task that is done takes none. -/
def advance (execute : CommandService ε) (r : UpdateRound ε) (i : Nat) : UpdateRound ε :=
  match r.tasks[i]? with
  | none => r
  | some task =>
    let put (state : TaskState) := r.tasks.set i { task with state }
    match task.state with
    | .waiting =>
      { r with tasks := put (if r.budget.isExhausted then .done .skipped else .admitted) }
    | .admitted =>
      let (result, engine) := execute (.update task.child.id) r.engine
      { r with tasks := put (.executed result), engine }
    | .executed result =>
      let (outcome, budget, engine) := settle task.child r.budget r.engine result
      { tasks := put (.done outcome), budget, engine }
    | .done _ => r

def run (execute : CommandService ε) (schedule : List Nat) (r : UpdateRound ε) : UpdateRound ε :=
  schedule.foldl (advance execute) r

/-- How many tasks came to an end in a way. -/
def count (r : UpdateRound ε) (outcome : ChildOutcome) : Nat :=
  r.tasks.countP fun task =>
    match task.state with
    | .done o => o = outcome
    | _ => false

end UpdateRound

/-- Every task takes its three steps before the next begins. -/
def oneByOne (n : Nat) : List Nat := (List.range n).flatMap fun i => [i, i, i]

/-- Like `oneByOne`, but the commands of some tasks run together: each of these tasks begins in its
place, and all go on once the last of them has begun. -/
def together (group : Nat → Bool) (n : Nat) : List Nat :=
  let members := (List.range n).filter group
  (List.range n).flatMap fun i =>
    if group i then
      i :: if members.getLast? = some i then members ++ members else []
    else [i, i, i]

end ResourcePki
