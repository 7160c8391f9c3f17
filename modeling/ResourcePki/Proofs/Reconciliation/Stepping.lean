import Mathlib.Data.List.Induction
import Mathlib.Data.List.Infix
import ResourcePki.Proofs.Reconciliation.Sweep

/-! The steps of the tasks of a round. A step moves one task on, as `Moves` says, and may execute a
command; the commands of a schedule are `executions`. -/

namespace ResourcePki

namespace TaskState

def isDone : TaskState → Bool
  | .done _ => true
  | _ => false

def endedAs (outcome : ChildOutcome) : TaskState → Bool
  | .done o => o = outcome
  | _ => false

/-- The budget let the task pass, and the task is not done. -/
def inProgress : TaskState → Bool
  | .admitted | .executed _ => true
  | .waiting | .done _ => false

def hasExecuted : TaskState → Bool
  | .waiting | .admitted | .done .skipped => false
  | .executed _ | .done _ => true

/-- The command had an effect, which is not counted yet. -/
def hasEffect : TaskState → Bool
  | .executed (.ok status) => status.hadEffect
  | _ => false

/-- The command failed, which is not settled yet. -/
def hasFailed : TaskState → Bool
  | .executed (.error _) => true
  | _ => false

end TaskState

namespace UpdateRound

open TaskState (endedAs hasEffect hasFailed hasExecuted isDone)

variable {ε : Type}

structure Execution where
  task : Nat
  child : CaIdentity
  result : Except Error CommandStatus

def Execution.hadEffect (x : Execution) : Bool := (TaskState.executed x.result).hasEffect

def Execution.failed (x : Execution) : Bool := (TaskState.executed x.result).hasFailed

/-- The command that the next step of a task executes, if it does. -/
def executionAt (execute : CommandService ε) (r : UpdateRound ε) (i : Nat) : List Execution :=
  match r.tasks[i]? with
  | some ⟨child, .admitted⟩ => [⟨i, child, (execute (.update child.id) r.engine).1⟩]
  | _ => []

/-- The commands that the steps of a schedule execute, in their order. -/
def executions (execute : CommandService ε) : List Nat → UpdateRound ε → List Execution
  | [], _ => []
  | i :: rest, r => executionAt execute r i ++ executions execute rest (advance execute r i)

def tally (p : TaskState → Bool) (r : UpdateRound ε) : Nat :=
  r.tasks.countP fun task => p task.state

def inProgress (r : UpdateRound ε) : Nat := r.tally TaskState.inProgress

theorem count_eq_tally (r : UpdateRound ε) (outcome : ChildOutcome) :
    r.count outcome = r.tally (endedAs outcome) := by
  unfold count tally
  congr 1

/-- What a step makes of the state of a task and of the budget. -/
inductive Moves (b : UpdateBudget) : TaskState → TaskState → UpdateBudget → Prop
  | skip (hbudget : b.limit ≤ b.count) : Moves b .waiting (.done .skipped) b
  | enter (hbudget : b.count < b.limit) : Moves b .waiting .admitted b
  | perform (result : Except Error CommandStatus) : Moves b .admitted (.executed result) b
  | spend {status : CommandStatus} (heffect : status.hadEffect = true)
      (hbudget : b.count < b.limit) :
      Moves b (.executed (.ok status)) (.done .updated) { b with count := b.count + 1 }
  | exceed {status : CommandStatus} (heffect : status.hadEffect = true)
      (hbudget : b.limit ≤ b.count) :
      Moves b (.executed (.ok status)) (.done .updatedBeyondLimit) b
  | keep {status : CommandStatus} (heffect : status.hadEffect = false) :
      Moves b (.executed (.ok status)) (.done .unchanged) b
  | fail (err : Error) : Moves b (.executed (.error err)) (.done .failed) b

/-- The commands that a step to a state executed. -/
def executionsOf (i : Nat) (child : CaIdentity) : TaskState → List Execution
  | .executed result => [⟨i, child, result⟩]
  | _ => []

/-- The next step of a task, with the commands that it executes. -/
inductive Step (r : UpdateRound ε) (i : Nat) : List Execution → UpdateRound ε → Prop
  /-- There is no such task, or it is done. -/
  | idle : Step r i [] r
  | move {child : CaIdentity} {state state' : TaskState} {budget : UpdateBudget} (engine : Engine ε)
      (htask : r.tasks[i]? = some ⟨child, state⟩) (hmoves : Moves r.budget state state' budget) :
      Step r i (executionsOf i child state') ⟨r.tasks.set i ⟨child, state'⟩, budget, engine⟩

theorem moves_settle (child : CaIdentity) (b : UpdateBudget) (e : Engine ε)
    (result : Except Error CommandStatus) :
    Moves b (.executed result) (.done (settle child b e result).1)
      (settle child b e result).2.1 := by
  cases result with
  | error err => exact .fail err
  | ok status =>
    unfold settle UpdateBudget.spend?
    dsimp only
    cases heffect : status.hadEffect with
    | false => exact .keep heffect
    | true =>
      rw [if_pos rfl]
      by_cases hbudget : b.count < b.limit
      · rw [if_pos hbudget]
        exact .spend heffect hbudget
      · rw [if_neg hbudget]
        exact .exceed heffect (Nat.le_of_not_lt hbudget)

theorem advance_step (execute : CommandService ε) (r : UpdateRound ε) (i : Nat) :
    Step r i (executionAt execute r i) (advance execute r i) := by
  obtain ⟨tasks, budget, e⟩ := r
  cases htask : tasks[i]? with
  | none =>
    rw [show executionAt execute ⟨tasks, budget, e⟩ i = [] by rw [executionAt, htask],
      show advance execute ⟨tasks, budget, e⟩ i = ⟨tasks, budget, e⟩ by rw [advance, htask]]
    exact .idle
  | some task =>
    obtain ⟨child, state⟩ := task
    rw [advance_of_getElem? _ _ htask, executionAt, htask]
    cases state with
    | waiting =>
      dsimp only
      by_cases hbudget : budget.limit ≤ budget.count
      · rw [show budget.isExhausted = true from decide_eq_true hbudget]
        exact .move e htask (.skip hbudget)
      · rw [show budget.isExhausted = false from decide_eq_false hbudget]
        exact .move e htask (.enter (Nat.lt_of_not_le hbudget))
    | admitted => exact .move _ htask (.perform _)
    | executed result =>
      exact .move (r := ⟨tasks, budget, e⟩) _ htask (moves_settle child budget e result)
    | done _ => exact .idle

/-- A step of a task changes how many tasks are in a kind of state by this task only. -/
theorem tally_set {r : UpdateRound ε} {i : Nat} {child : CaIdentity} {state : TaskState}
    (htask : r.tasks[i]? = some ⟨child, state⟩) (state' : TaskState) (budget : UpdateBudget)
    (engine : Engine ε) (p : TaskState → Bool) :
    tally p ⟨r.tasks.set i ⟨child, state'⟩, budget, engine⟩ + (p state).toNat =
      r.tally p + (p state').toNat := by
  obtain ⟨hi, hget⟩ := List.getElem?_eq_some_iff.mp htask
  have hle := List.boole_getElem_le_countP (p := fun task : UpdateTask => p task.state) hi
  unfold tally
  rw [List.countP_set hi]
  rw [hget] at hle ⊢
  dsimp only at hle ⊢
  generalize r.tasks.countP _ = n at hle ⊢
  have hboole : ∀ b : Bool, (if b = true then 1 else 0) = b.toNat := by decide
  rw [hboole] at hle ⊢
  rw [hboole]
  omega

theorem tally_start (children : List CaIdentity) (limit : Nat) (e : Engine ε)
    {p : TaskState → Bool} (hp : p .waiting = false) : (start children limit e).tally p = 0 := by
  refine List.countP_eq_zero.mpr fun task htask => ?_
  obtain ⟨child, -, rfl⟩ := List.mem_map.mp htask
  exact Bool.eq_false_iff.mp hp

theorem tally_eq_zero_of_done {r : UpdateRound ε} (hdone : ∀ task ∈ r.tasks, task.state.isDone)
    {p : TaskState → Bool} (hp : ∀ outcome, p (.done outcome) = false) : r.tally p = 0 := by
  refine List.countP_eq_zero.mpr fun task htask => ?_
  have hstate := hdone task htask
  cases h : task.state with
  | done outcome => exact Bool.eq_false_iff.mp (hp outcome)
  | _ => rw [h] at hstate; cases hstate

variable {r r' : UpdateRound ε} {i j : Nat} {ys : List Execution}

/-- The tasks after a step: one has moved on, the others are as they were. -/
theorem getElem?_set_cases {tasks : List UpdateTask} {moved task : UpdateTask} {j : Nat}
    (h : (tasks.set i moved)[j]? = some task) :
    j = i ∧ task = moved ∨ j ≠ i ∧ tasks[j]? = some task := by
  by_cases hji : j = i
  · subst hji
    obtain ⟨hj, -⟩ := List.getElem?_eq_some_iff.mp h
    rw [List.getElem?_set_self (by simpa using hj)] at h
    exact .inl ⟨rfl, (Option.some.inj h).symm⟩
  · rw [List.getElem?_set_ne (Ne.symm hji)] at h
    exact .inr ⟨hji, h⟩

theorem Step.children (h : Step r i ys r') :
    r'.tasks.map (·.child) = r.tasks.map (·.child) := by
  cases h with
  | idle => rfl
  | @move child _ state' _ _ htask _ =>
    -- The task that moved on is still about its child.
    have hchild : (r.tasks.map (·.child))[i]? = some child := by
      rw [List.getElem?_map, htask]
      rfl
    obtain ⟨hi, hget⟩ := List.getElem?_eq_some_iff.mp hchild
    rw [List.map_set, ← hget]
    exact List.set_getElem_self hi

theorem run_children (execute : CommandService ε) (schedule : List Nat) (r : UpdateRound ε) :
    (run execute schedule r).tasks.map (·.child) = r.tasks.map (·.child) := by
  induction schedule generalizing r with
  | nil => rfl
  | cons i rest ih => exact (ih _).trans (advance_step execute r i).children

variable {execute : CommandService ε} {schedule : List Nat}

theorem Step.skipped {j : Nat} {child : CaIdentity} (h : Step r i ys r')
    (hafter : r'.tasks[j]? = some ⟨child, .done .skipped⟩) :
    r.tasks[j]? = some ⟨child, .done .skipped⟩ ∨
      j = i ∧ r.tasks[j]? = some ⟨child, .waiting⟩ ∧ r.budget.limit ≤ r.budget.count := by
  cases h with
  | idle => exact .inl hafter
  | move engine htask hmoves =>
    obtain ⟨rfl, htask'⟩ | ⟨-, hj⟩ := getElem?_set_cases hafter
    · obtain ⟨rfl, hstate⟩ := UpdateTask.mk.inj htask'
      cases hmoves with
      | skip hbudget => exact .inr ⟨rfl, htask, hbudget⟩
      | _ => cases hstate
    · exact .inl hj

/-- A task is skipped by a step of its own, when the budget is used up. -/
theorem exists_step_of_skipped {j : Nat} {child : CaIdentity}
    (h : (run execute schedule r).tasks[j]? = some ⟨child, .done .skipped⟩)
    (hbefore : r.tasks[j]? ≠ some ⟨child, .done .skipped⟩) :
    ∃ steps, steps ++ [j] <+: schedule ∧
      (run execute steps r).tasks[j]? = some ⟨child, .waiting⟩ ∧
      (run execute steps r).budget.limit ≤ (run execute steps r).budget.count := by
  induction schedule generalizing r with
  | nil => exact absurd h hbefore
  | cons i rest ih =>
    by_cases hnext : (advance execute r i).tasks[j]? = some ⟨child, .done .skipped⟩
    · obtain hsame | ⟨rfl, hwaiting, hbudget⟩ := (advance_step execute r i).skipped hnext
      · exact absurd hsame hbefore
      · exact ⟨[], List.prefix_append [j] rest, hwaiting, hbudget⟩
    · obtain ⟨steps, hsteps, hwaiting, hbudget⟩ := ih h hnext
      exact ⟨i :: steps, List.cons_prefix_cons.mpr ⟨rfl, hsteps⟩, hwaiting, hbudget⟩

end UpdateRound

end ResourcePki
