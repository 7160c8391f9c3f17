import ResourcePki.Proofs.Reconciliation.Stepping

/-! The budget of updates under any schedule. Commands are executed between the question whether
the budget is used up and the count of their effects, so what a round may count is one thing and
what it may have under way another: once the limit is reached, only tasks that are under way can
still have an effect. `Ledger` is this invariant over the steps of a schedule. -/

namespace ResourcePki

namespace UpdateRound

open TaskState (endedAs hasEffect hasFailed hasExecuted isDone)

variable {ε : Type}

/-- What is counted, beyond the limit and under way, for a number of workers. -/
structure Ledger (limit workers : Nat) (r : UpdateRound ε) : Prop where
  limited : r.budget.limit = limit
  counted : r.tally (endedAs .updated) = r.budget.count
  within : r.budget.count ≤ limit
  early : r.budget.count < limit → r.tally (endedAs .updatedBeyondLimit) = 0
  /-- Once the limit is reached, only what is under way can still go beyond it, and the task that
  reached it is done. -/
  late : r.budget.count = limit →
    r.tally (endedAs .updatedBeyondLimit) + r.inProgress ≤ workers - 1

variable {limit workers : Nat} {r r' : UpdateRound ε} {i : Nat} {xs ys : List Execution}

theorem ledger_start (children : List CaIdentity) (limit workers : Nat) (e : Engine ε) :
    Ledger limit workers (start children limit e) where
  limited := rfl
  counted := tally_start children limit e rfl
  within := Nat.zero_le limit
  early _ := tally_start children limit e rfl
  late _ := by
    rw [inProgress, tally_start children limit e rfl, tally_start children limit e rfl]
    exact Nat.zero_le _

theorem Ledger.step (h : Ledger limit workers r) (hworkers : r.inProgress ≤ workers)
    (hstep : Step r i ys r') : Ledger limit workers r' := by
  obtain ⟨hlimited, hcounted, hwithin, hearly, hlate⟩ := h
  cases hstep with
  | idle => exact ⟨hlimited, hcounted, hwithin, hearly, hlate⟩
  | @move child state state' budget engine htask hmoves =>
    have hset := tally_set htask state' budget engine
    have hupdated := hset (endedAs .updated)
    have hbeyond := hset (endedAs .updatedBeyondLimit)
    have hprogress := hset TaskState.inProgress
    unfold inProgress at hworkers hlate
    cases hmoves with
    -- One more is under way, but there is still something left of the budget.
    | enter hbudget =>
      simp only [endedAs, Bool.toNat_false, Nat.add_zero] at hupdated hbeyond
      exact ⟨hlimited, hupdated.trans hcounted, hwithin, fun hlt => hbeyond.trans (hearly hlt),
        fun heq => absurd (hlimited ▸ hbudget) (heq ▸ Nat.lt_irrefl _)⟩
    -- When this reaches the limit, nothing is beyond it yet, and the task itself is done.
    | spend heffect hbudget =>
      have hnone := hearly (hlimited ▸ hbudget)
      simp [endedAs, TaskState.inProgress] at hupdated hbeyond hprogress
      constructor <;> simp only [inProgress] <;> omega
    -- The task was under way before and is beyond the limit now, which is the same to `late`.
    | exceed heffect hbudget =>
      simp [endedAs, TaskState.inProgress] at hupdated hbeyond hprogress
      constructor <;> simp only [inProgress] <;> omega
    -- Nothing is counted here, and nothing begins.
    | skip | perform | keep | fail =>
      simp [endedAs, TaskState.inProgress] at hupdated hbeyond hprogress
      constructor <;> simp only [inProgress] <;> omega

theorem run_ledger {execute : CommandService ε} {schedule : List Nat}
    (h : Ledger limit workers r)
    (hworkers : ∀ steps, steps <+: schedule → (run execute steps r).inProgress ≤ workers)
    {steps : List Nat} (hsteps : steps <+: schedule) :
    Ledger limit workers (run execute steps r) := by
  induction steps using List.reverseRecOn with
  | nil => exact h
  | append_singleton before i ih =>
    have hbefore := (List.prefix_append before [i]).trans hsteps
    rw [run_append]
    exact (ih hbefore).step (hworkers before hbefore) (advance_step execute _ i)

/-- The numbers of the commands with an effect and of those that failed. -/
structure Balance (xs : List Execution) (r : UpdateRound ε) : Prop where
  effects : xs.countP (·.hadEffect) = r.tally (endedAs .updated) +
    r.tally (endedAs .updatedBeyondLimit) + r.tally hasEffect
  failures : xs.countP (·.failed) = r.tally (endedAs .failed) + r.tally hasFailed

theorem balance_start (children : List CaIdentity) (limit : Nat) (e : Engine ε) :
    Balance [] (start children limit e) where
  effects := by rw [tally_start _ _ _ rfl, tally_start _ _ _ rfl, tally_start _ _ _ rfl]; rfl
  failures := by rw [tally_start _ _ _ rfl, tally_start _ _ _ rfl]; rfl

theorem Moves.effects {b b' : UpdateBudget} {state state' : TaskState}
    (h : Moves b state state' b') (i : Nat) (child : CaIdentity) :
    (endedAs .updated state').toNat + (endedAs .updatedBeyondLimit state').toNat +
        (hasEffect state').toNat =
      (endedAs .updated state).toNat + (endedAs .updatedBeyondLimit state).toNat +
        (hasEffect state).toNat + (executionsOf i child state').countP (·.hadEffect) := by
  cases h with
  | perform result =>
    rw [executionsOf, List.countP_singleton]
    change _ = _ + if hasEffect (.executed result) then 1 else 0
    cases hasEffect (.executed result) <;> rfl
  | spend heffect _ | exceed heffect _ | keep heffect =>
    simp only [hasEffect, heffect]
    rfl
  | _ => rfl

theorem Moves.failures {b b' : UpdateBudget} {state state' : TaskState}
    (h : Moves b state state' b') (i : Nat) (child : CaIdentity) :
    (endedAs .failed state').toNat + (hasFailed state').toNat =
      (endedAs .failed state).toNat + (hasFailed state).toNat +
        (executionsOf i child state').countP (·.failed) := by
  cases h with
  | perform result => cases result <;> rfl
  | _ => rfl

theorem Balance.step (h : Balance xs r) (hstep : Step r i ys r') : Balance (xs ++ ys) r' := by
  obtain ⟨heffects, hfailures⟩ := h
  cases hstep with
  | idle => rw [List.append_nil]; exact ⟨heffects, hfailures⟩
  | @move child state state' budget engine htask hmoves =>
    have hset := tally_set htask state' budget engine
    have hmore := hmoves.effects i child
    have hworse := hmoves.failures i child
    have hupdated := hset (endedAs .updated)
    have hbeyond := hset (endedAs .updatedBeyondLimit)
    have hpending := hset hasEffect
    have hfailed := hset (endedAs .failed)
    have hunsettled := hset hasFailed
    constructor <;> rw [List.countP_append] <;> omega

/-- Which commands were executed: those of the tasks that got that far, each once. -/
structure Account (xs : List Execution) (r : UpdateRound ε) : Prop where
  nodup : (xs.map (·.task)).Nodup
  executed : ∀ j task, r.tasks[j]? = some task →
    (j ∈ xs.map (·.task) ↔ task.state.hasExecuted)
  child : ∀ x ∈ xs, (r.tasks.map (·.child))[x.task]? = some x.child

theorem account_start (children : List CaIdentity) (limit : Nat) (e : Engine ε) :
    Account [] (start children limit e) where
  nodup := .nil
  executed j task htask := by
    obtain ⟨child, -, rfl⟩ := List.mem_map.mp (List.mem_of_getElem? htask)
    exact ⟨fun h => absurd h List.not_mem_nil, fun h => absurd h Bool.false_ne_true⟩
  child x hx := absurd hx List.not_mem_nil

theorem task_of_mem_executionsOf {child : CaIdentity} {state : TaskState} {x : Execution}
    (hx : x ∈ executionsOf i child state) : x.task = i ∧ x.child = child := by
  cases state with
  | executed result =>
    obtain rfl := List.mem_singleton.mp hx
    exact ⟨rfl, rfl⟩
  | _ => cases hx

theorem Account.step (h : Account xs r) (hstep : Step r i ys r') : Account (xs ++ ys) r' := by
  have hchildren := hstep.children
  cases hstep with
  | idle => rw [List.append_nil]; exact h
  | @move child state state' budget engine htask hmoves =>
    have hi := h.executed i _ htask
    refine ⟨?_, fun j task hj => ?_, fun x hx => ?_⟩
    · cases hmoves with
      | perform result =>
        -- The task was only admitted, so it has no command in the list yet.
        have hnot : i ∉ xs.map (·.task) := fun hmem => Bool.false_ne_true (hi.mp hmem)
        rw [List.map_append]
        exact h.nodup.append (List.nodup_singleton i) (List.disjoint_singleton.mpr hnot)
      | _ => simpa only [executionsOf, List.append_nil] using h.nodup
    · rw [List.map_append, List.mem_append]
      obtain ⟨rfl, rfl⟩ | ⟨hji, hj⟩ := getElem?_set_cases hj
      · rw [hi]
        cases hmoves <;> simp [executionsOf, hasExecuted]
      · have hnot : j ∉ (executionsOf i child state').map (·.task) := fun hmem => by
          obtain ⟨y, hy, rfl⟩ := List.mem_map.mp hmem
          exact hji (task_of_mem_executionsOf hy).1
        rw [or_iff_left hnot]
        exact h.executed j task hj
    · rw [hchildren]
      obtain hx | hx := List.mem_append.mp hx
      · exact h.child x hx
      · obtain ⟨htask', hchild⟩ := task_of_mem_executionsOf hx
        rw [htask', hchild, List.getElem?_map, htask]
        rfl

variable {execute : CommandService ε} {schedule : List Nat}

theorem run_balance (h : Balance xs r) :
    Balance (xs ++ executions execute schedule r) (run execute schedule r) := by
  induction schedule generalizing xs r with
  | nil => rw [executions, List.append_nil]; exact h
  | cons i rest ih =>
    rw [executions, ← List.append_assoc]
    exact ih (h.step (advance_step execute r i))

theorem run_account (h : Account xs r) :
    Account (xs ++ executions execute schedule r) (run execute schedule r) := by
  induction schedule generalizing xs r with
  | nil => rw [executions, List.append_nil]; exact h
  | cons i rest ih =>
    rw [executions, ← List.append_assoc]
    exact ih (h.step (advance_step execute r i))

/-- Every task ends in one way at most. -/
theorem count_add_le (r : UpdateRound ε) :
    r.count .updated + r.count .updatedBeyondLimit + r.count .failed ≤ r.tasks.length := by
  have hone : ∀ state, (if endedAs .updated state then 1 else 0) +
      (if endedAs .updatedBeyondLimit state then 1 else 0) +
      (if endedAs .failed state then 1 else 0) ≤ 1 := by
    intro state
    cases state with
    | done outcome => cases outcome <;> decide
    | _ => exact Nat.zero_le 1
  rw [count_eq_tally, count_eq_tally, count_eq_tally]
  unfold tally
  induction r.tasks with
  | nil => exact Nat.le_refl 0
  | cons task rest ih =>
    have := hone task.state
    rw [List.countP_cons, List.countP_cons, List.countP_cons, List.length_cons]
    omega

/-- When all tasks are done, all effects are counted or beyond the limit. -/
theorem Ledger.of_done (h : Ledger limit workers r) (hbalance : Balance xs r)
    (hdone : ∀ task ∈ r.tasks, task.state.isDone) :
    r.budget.count = min limit (xs.countP (·.hadEffect)) ∧
    r.count .updatedBeyondLimit = xs.countP (·.hadEffect) - r.budget.count ∧
    r.count .updatedBeyondLimit ≤ workers - 1 ∧ r.count .failed = xs.countP (·.failed) := by
  obtain ⟨-, hcounted, hwithin, hearly, hlate⟩ := h
  obtain ⟨heffects, hfailures⟩ := hbalance
  rw [tally_eq_zero_of_done hdone (p := hasEffect) fun _ => rfl, Nat.add_zero] at heffects
  rw [tally_eq_zero_of_done hdone (p := hasFailed) fun _ => rfl, Nat.add_zero] at hfailures
  rw [count_eq_tally, count_eq_tally]
  obtain hlt | heq := Nat.lt_or_eq_of_le hwithin
  · have := hearly hlt
    omega
  · have := hlate heq
    omega

theorem Account.state_of_done (h : Account xs r) (hdone : ∀ task ∈ r.tasks, task.state.isDone)
    {j : Nat} {child : CaIdentity} {state : TaskState} (htask : r.tasks[j]? = some ⟨child, state⟩)
    (hj : j ∉ xs.map (·.task)) : state = .done .skipped := by
  have hstate := hdone _ (List.mem_of_getElem? htask)
  rw [h.executed j _ htask] at hj
  cases state with
  | done outcome => cases outcome <;> first | rfl | exact absurd rfl hj
  | _ => cases hstate

end UpdateRound

namespace UpdateJob

open UpdateRound

variable {ε : Type}

def roundAfter (job : UpdateJob ε) (children : List CaIdentity) (e : Engine ε)
    (steps : List Nat) : UpdateRound ε :=
  (UpdateRound.start children job.limit e).run job.execute steps

/-- With some workers, however their steps mix, a job counts no more updates than its limit, and
less than one more for each worker goes beyond it. -/
theorem updateChildren_within_budget (job : UpdateJob ε) (children : List CaIdentity)
    (e : Engine ε) (workers : Nat)
    (hworkers : ∀ steps, steps <+: job.schedule children.length →
      (job.roundAfter children e steps).inProgress ≤ workers) :
    (∀ steps, steps <+: job.schedule children.length →
      (job.roundAfter children e steps).budget.count ≤ job.limit) ∧
    ((∀ task ∈ (job.roundAfter children e (job.schedule children.length)).tasks,
        task.state.isDone) →
      let executed := executions job.execute (job.schedule children.length)
        (UpdateRound.start children job.limit e)
      let effects := executed.countP (·.hadEffect)
      let report := (job.updateChildren children e).1
      report.updated = min job.limit effects ∧
      report.beyondLimit = effects - report.updated ∧ report.beyondLimit ≤ workers - 1 ∧
      report.failed = executed.countP (·.failed) ∧
      (executed.map (·.task)).Nodup ∧ (∀ x ∈ executed, children[x.task]? = some x.child) ∧
      (∀ j child, children[j]? = some child → j ∉ executed.map (·.task) →
        (job.roundAfter children e (job.schedule children.length)).tasks[j]? =
          some ⟨child, .done .skipped⟩ ∧
        ∃ steps, steps ++ [j] <+: job.schedule children.length ∧
          (job.roundAfter children e steps).tasks[j]? = some ⟨child, .waiting⟩ ∧
          (job.roundAfter children e steps).budget.count = job.limit) ∧
      report.considered = children.length ∧
      report.updated + report.beyondLimit + report.failed ≤ report.considered) := by
  have hledger : ∀ steps, steps <+: job.schedule children.length →
      Ledger job.limit workers (job.roundAfter children e steps) := fun steps hsteps =>
    run_ledger (ledger_start children job.limit workers e) hworkers hsteps
  refine ⟨fun steps hsteps => (hledger steps hsteps).within, fun hdone => ?_⟩
  intro executed effects report
  have hbalance : Balance executed (job.roundAfter children e (job.schedule children.length)) :=
    run_balance (balance_start children job.limit e)
  have haccount : Account executed (job.roundAfter children e (job.schedule children.length)) :=
    run_account (account_start children job.limit e)
  have hlast := hledger _ List.prefix_rfl
  obtain ⟨hupdated, hbeyond, hbound, hfailed⟩ := hlast.of_done hbalance hdone
  have hchildren : (job.roundAfter children e (job.schedule children.length)).tasks.map (·.child) =
      children := by
    rw [roundAfter, run_children, UpdateRound.start, List.map_map]
    exact List.map_id children
  have hconsidered : report.considered = children.length := by
    rw [← congrArg List.length hchildren, List.length_map]
    rfl
  refine ⟨hupdated, hbeyond, hbound, hfailed, haccount.nodup, fun x hx => ?_,
    fun j child hj hnot => ?_, hconsidered, ?_⟩
  · have hchild := haccount.child x hx
    rwa [hchildren] at hchild
  · rw [← hchildren, List.getElem?_map, Option.map_eq_some_iff] at hj
    obtain ⟨⟨child', state⟩, htask, hchild⟩ := hj
    obtain rfl : child' = child := hchild
    obtain rfl := haccount.state_of_done hdone htask hnot
    refine ⟨htask, ?_⟩
    -- In the beginning all tasks wait, so a step must have skipped this one.
    have hstart : (UpdateRound.start children job.limit e).tasks[j]? ≠
        some ⟨child', .done .skipped⟩ := fun hskipped => by
      obtain ⟨_, -, htask'⟩ := List.mem_map.mp (List.mem_of_getElem? hskipped)
      cases htask'
    obtain ⟨steps, hsteps, hwaiting, hbudget⟩ := exists_step_of_skipped htask hstart
    have hbefore := hledger steps ((List.prefix_append steps [j]).trans hsteps)
    refine ⟨steps, hsteps, hwaiting, Nat.le_antisymm hbefore.within ?_⟩
    exact hbefore.limited ▸ hbudget
  · have hends := count_add_le (job.roundAfter children e (job.schedule children.length))
    rw [count_eq_tally _ .updated, hlast.counted] at hends
    exact hends

/-- Three CAs and two workers: both have a command under way when the first reaches the limit. -/
def overlapping : UpdateJob Unit where
  allResourcesCa := "CN=All Resources CA"
  productionCa := "CN=Production CA"
  limit := 1
  registry := .ok ()
  execute _ e := (.ok { hadEffect := true }, e)
  schedule _ := [0, 1, 0, 1, 0, 1, 2]

theorem overlapping_within_budget :
    let children : List CaIdentity := [⟨3, "CN=A"⟩, ⟨4, "CN=B"⟩, ⟨5, "CN=C"⟩]
    let report := (overlapping.updateChildren children { tree := {}, memory := () }).1
    report = { updated := 1, considered := 3, beyondLimit := 1 } ∧
      report.beyondLimit ≤ 2 - 1 ∧
      report.updated + report.beyondLimit + report.failed ≤ report.considered := by
  intro children report
  have hworkers : ∀ steps ∈ List.inits [0, 1, 0, 1, 0, 1, 2],
      (overlapping.roundAfter children { tree := {}, memory := () } steps).inProgress ≤ 2 := by
    decide
  obtain ⟨-, hend⟩ := overlapping.updateChildren_within_budget children
    { tree := {}, memory := () } 2
    fun steps hsteps => hworkers steps ((List.mem_inits _ _).mpr hsteps)
  obtain ⟨-, -, hbound, -, -, -, -, -, hsum⟩ := hend (by decide)
  exact ⟨by decide, hbound, hsum⟩

end UpdateJob

end ResourcePki
