import ResourcePki.Server
import ResourcePki.Proofs.Issuance.Performing
import ResourcePki.Proofs.Issuance.Settled
import ResourcePki.Proofs.Tree.Descendants

/-! A round in which every task ends before the next begins, in whatever order, as a single sweep
over the CAs. `visit` is the end of one task; `Swept` puts the visits together, and says what became
of the budget. -/

namespace ResourcePki

namespace UpdateRound

variable {ε : Type} {execute : CommandService ε}

/-- All three steps of one task. -/
def visit (execute : CommandService ε) (child : CaIdentity) (budget : UpdateBudget)
    (e : Engine ε) : ChildOutcome × UpdateBudget × Engine ε :=
  if budget.isExhausted then (.skipped, budget, e)
  else settle child budget (execute (.update child.id) e).2 (execute (.update child.id) e).1

/-- Visits to some CAs, one after the other. -/
def sweep (execute : CommandService ε) : List CaIdentity → UpdateBudget → Engine ε →
    List UpdateTask × UpdateBudget × Engine ε
  | [], budget, e => ([], budget, e)
  | child :: rest, budget, e =>
    let (outcome, budget, e) := visit execute child budget e
    let (tasks, budget, e) := sweep execute rest budget e
    ({ child, state := .done outcome } :: tasks, budget, e)

/-- The tasks of an order take their three steps, one task after the other. -/
def turns (order : List Nat) : List Nat := order.flatMap fun i => [i, i, i]

theorem run_append (l m : List Nat) (r : UpdateRound ε) :
    run execute (l ++ m) r = run execute m (run execute l r) := List.foldl_append

theorem advance_of_getElem? {tasks : List UpdateTask} {i : Nat} {child : CaIdentity}
    {state : TaskState} (budget : UpdateBudget) (e : Engine ε) :
    tasks[i]? = some ⟨child, state⟩ → advance execute ⟨tasks, budget, e⟩ i =
      match state with
      | .waiting => ⟨tasks.set i ⟨child, if budget.isExhausted then .done .skipped else .admitted⟩,
          budget, e⟩
      | .admitted => ⟨tasks.set i ⟨child, .executed (execute (.update child.id) e).1⟩, budget,
          (execute (.update child.id) e).2⟩
      | .executed result => ⟨tasks.set i ⟨child, .done (settle child budget e result).1⟩,
          (settle child budget e result).2.1, (settle child budget e result).2.2⟩
      | .done _ => ⟨tasks, budget, e⟩ := by
  intro h
  unfold advance
  dsimp only
  cases state <;> rw [h]

variable (execute)

theorem run_visit {tasks : List UpdateTask} {i : Nat} {child : CaIdentity}
    (h : tasks[i]? = some ⟨child, .waiting⟩) (budget : UpdateBudget) (e : Engine ε) :
    run execute [i, i, i] ⟨tasks, budget, e⟩ =
      ⟨tasks.set i ⟨child, .done (visit execute child budget e).1⟩,
        (visit execute child budget e).2.1, (visit execute child budget e).2.2⟩ := by
  obtain ⟨hi, -⟩ := List.getElem?_eq_some_iff.mp h
  have hset : ∀ task : UpdateTask, (tasks.set i task)[i]? = some task := fun task =>
    List.getElem?_set_self hi
  -- From waiting over admitted and executed to done; skipped tasks stay so.
  unfold run visit
  rw [List.foldl_cons, List.foldl_cons, List.foldl_cons, List.foldl_nil,
    advance_of_getElem? _ _ h]
  dsimp only
  split
  · rw [advance_of_getElem? _ _ (hset _)]
    dsimp only
    rw [advance_of_getElem? _ _ (hset _)]
  · rw [advance_of_getElem? _ _ (hset _)]
    dsimp only
    rw [List.set_set, advance_of_getElem? _ _ (hset _)]
    dsimp only
    rw [List.set_set]

/-- Turns of waiting tasks are a sweep over their CAs; tasks without a turn stay as they are. -/
theorem run_turns {order : List Nat} (horder : order.Nodup) {tasks : List UpdateTask}
    {children : List CaIdentity}
    (h : order.map (tasks[·]?) = children.map fun child => some ⟨child, .waiting⟩)
    (budget : UpdateBudget) (e : Engine ε) :
    ∃ tasks', run execute (turns order) ⟨tasks, budget, e⟩ =
        ⟨tasks', (sweep execute children budget e).2.1, (sweep execute children budget e).2.2⟩ ∧
      order.map (tasks'[·]?) = (sweep execute children budget e).1.map some ∧
      (∀ j ∉ order, tasks'[j]? = tasks[j]?) ∧ tasks'.length = tasks.length := by
  induction order generalizing tasks children budget e with
  | nil =>
    obtain rfl := List.map_eq_nil_iff.mp h.symm
    exact ⟨tasks, rfl, rfl, fun _ _ => rfl, rfl⟩
  | cons i rest ih =>
    obtain ⟨hi, hrest⟩ := List.nodup_cons.mp horder
    cases children with
    | nil => cases h
    | cons child kids =>
      obtain ⟨hchild, hkids⟩ := List.cons.inj h
      have hvisit := run_visit execute hchild budget e
      generalize hv : visit execute child budget e = visited at hvisit
      obtain ⟨outcome, budget₁, e₁⟩ := visited
      have hlt : i < tasks.length := (List.getElem?_eq_some_iff.mp hchild).1
      -- The visit is not to any of the tasks that follow.
      have hnext : rest.map ((tasks.set i ⟨child, .done outcome⟩)[·]?) =
          kids.map fun child => some ⟨child, .waiting⟩ := by
        rw [← hkids]
        refine List.map_congr_left fun j hj => ?_
        exact List.getElem?_set_ne fun heq : i = j => hi (heq ▸ hj)
      obtain ⟨tasks', hrun, htasks, hother, hlength⟩ := ih hrest hnext budget₁ e₁
      rw [sweep, hv]
      refine ⟨tasks', ?_, ?_, fun j hj => ?_, ?_⟩
      · rw [turns, List.flatMap_cons, run_append, hvisit]
        exact hrun
      · rw [List.map_cons, htasks, hother i hi, List.getElem?_set_self hlt]
        rfl
      · obtain ⟨hji, hjrest⟩ := List.ne_and_not_mem_of_not_mem_cons hj
        rw [hother j hjrest, List.getElem?_set_ne (Ne.symm hji)]
      · rw [hlength, List.length_set]

theorem map_getElem?_eq {α : Type} {l : List α} {order : List Nat}
    (h : ∀ i ∈ order, i < l.length) :
    order.map (l[·]?) = (order.filterMap (l[·]?)).map some := by
  induction order with
  | nil => rfl
  | cons i rest ih =>
    obtain ⟨hi, hrest⟩ := List.forall_mem_cons.mp h
    rw [List.map_cons, List.filterMap_cons, ih hrest, List.getElem?_eq_getElem hi]
    rfl

theorem map_getElem?_range {α : Type} (l : List α) :
    (List.range l.length).map (l[·]?) = l.map some := by
  refine List.ext_getElem (by simp) fun i hi _ => ?_
  simp at hi ⊢

theorem filterMap_getElem?_range {α : Type} (l : List α) :
    (List.range l.length).filterMap (l[·]?) = l := by
  have hmap := congrArg (List.filterMap id) (map_getElem?_range l)
  rwa [List.filterMap_map, List.filterMap_map, Function.id_comp, Function.id_comp,
    List.filterMap_some] at hmap

/-- In whatever order all tasks have their turn, the round is a sweep in that order. -/
theorem run_inOrder {children : List CaIdentity} {order : List Nat}
    (horder : order.Perm (List.range children.length)) (limit : Nat) (e : Engine ε) :
    ∃ tasks, (start children limit e).run execute (turns order) =
        ⟨tasks, (sweep execute (order.filterMap (children[·]?)) { limit } e).2.1,
          (sweep execute (order.filterMap (children[·]?)) { limit } e).2.2⟩ ∧
      tasks.Perm (sweep execute (order.filterMap (children[·]?)) { limit } e).1 := by
  have hbound : ∀ i ∈ order, i < children.length := fun i hi =>
    List.mem_range.mp (horder.mem_iff.mp hi)
  have hwaiting : order.map ((start children limit e).tasks[·]?) =
      (order.filterMap (children[·]?)).map fun child => some ⟨child, .waiting⟩ := by
    have hmap := congrArg (List.map (Option.map fun child => (⟨child, .waiting⟩ : UpdateTask)))
      (map_getElem?_eq hbound)
    rw [List.map_map, List.map_map] at hmap
    rw [start]
    simp only [List.getElem?_map]
    exact hmap
  obtain ⟨tasks, hrun, htasks, -, hlength⟩ := run_turns execute
    (horder.nodup_iff.mpr List.nodup_range) hwaiting { limit } e
  refine ⟨tasks, hrun, ?_⟩
  rw [start, List.length_map] at hlength
  -- The tasks in their places, and the same tasks in the order of their turns.
  have hperm : (tasks.map some).Perm (order.map (tasks[·]?)) := by
    rw [← map_getElem?_range, hlength]
    exact (horder.map _).symm
  rw [htasks] at hperm
  have hfilter := hperm.filterMap id
  rwa [List.filterMap_map, List.filterMap_map, Function.id_comp, List.filterMap_some,
    List.filterMap_some] at hfilter

end UpdateRound

namespace Services

/-- Updates of some CAs one after the other, as changes of the tree; none fails. From the count `n`
of updates the sweep comes to the count `n'`, and skips what follows once the limit is reached. -/
inductive Swept (s : Services) (timing : IssuanceTiming) (limit : Nat) :
    List CaId → Nat → CaTree → Nat → CaTree → Prop
  | nil (n : Nat) (t : CaTree) : Swept s timing limit [] n t n t
  | skip {id : CaId} {rest : List CaId} {n n' : Nat} {t t' : CaTree} (hn : limit ≤ n)
      (h : Swept s timing limit rest n t n' t') : Swept s timing limit (id :: rest) n t n' t'
  | update {id : CaId} {rest : List CaId} {n n' : Nat} {t t₁ t' : CaTree} {b : Bool}
      (hn : n < limit) (hu : s.Updated timing t id b t₁)
      (h : Swept s timing limit rest (if b then n + 1 else n) t₁ n' t') :
      Swept s timing limit (id :: rest) n t n' t'

variable {s : Services} {timing : IssuanceTiming} {limit : Nat}

theorem Swept.sameLinks {ids : List CaId} {n n' : Nat} {t t' : CaTree}
    (h : s.Swept timing limit ids n t n' t') : CaTree.SameLinks t t' := by
  induction h with
  | nil n t => exact .refl t
  | skip _ _ ih => exact ih
  | update _ hu _ ih => exact hu.sameLinks.trans ih

end Services

namespace Server

open UpdateRound

variable {s : Server}

theorem execute_eq (s : Server) :
    s.execute = (Dispatcher.standard s.services s.config.policy s.config.retries).execute := rfl

theorem updateJob_eq (s : Server) (registry : Except Error Unit) : s.updateJob registry =
    { s.updateJob registry with
      execute :=
        Dispatcher.execute ⟨standardHandlers s.services s.config.policy, s.config.retries⟩ } := by
  rw [← Dispatcher.standard_eq]
  rfl

theorem execute_update_ok {id : CaId} {e e' : Engine Journal} {status : CommandStatus}
    (h : s.execute (.update id) e = (.ok status, e')) :
    s.services.Updated s.config.timing e.tree id status.hadEffect e'.tree := by
  rw [execute_eq] at h
  obtain ⟨j, -, hperformed⟩ := Dispatcher.execute_standard_performed h
  exact hperformed.of_update

theorem execute_update_of_settled {id : CaId} {e : Engine Journal} (hwf : e.tree.WellFormed)
    (h : s.services.Settled s.config.timing e.tree id) :
    ∃ e', s.execute (.update id) e = (.ok {}, e') ∧ e'.tree = e.tree := by
  have hparents : ∀ ca p, e.tree.get? id = some ca → ca.parent = some p →
      ∃ parent, e.tree.get? p = some parent := fun ca p hca hp => by
    obtain ⟨parent, hparent, -⟩ := hwf.parents id ca hca p hp
    exact ⟨parent, hparent⟩
  have hapart : ∀ ca p resources, e.tree.get? id = some ca →
      s.services.entitlement? e.tree ca = some (p, resources) → p ≠ id := by
    intro ca p resources hca hentitled
    have hp := (Services.entitlement?_eq_some hentitled).1
    exact hwf.parent_ne ((CaTree.parent?_of_get? hca).trans hp)
  obtain ⟨t, hstep, htree, hstatus⟩ :=
    Services.updateIncoming_of_settled (e := .start e.tree e.memory) h hparents hapart
  rw [execute_eq]
  exact Dispatcher.execute_of_quiet rfl hstep htree hstatus

theorem swept_sweep {children : List CaIdentity} {budget : UpdateBudget} {e : Engine Journal}
    (hfailed : ∀ task ∈ (sweep s.execute children budget e).1, ∀ outcome,
      task.state = .done outcome → outcome ≠ .failed) :
    s.services.Swept s.config.timing budget.limit (children.map (·.id)) budget.count e.tree
      (sweep s.execute children budget e).2.1.count
      (sweep s.execute children budget e).2.2.tree := by
  induction children generalizing budget e with
  | nil => exact .nil ..
  | cons child rest ih =>
    rw [sweep] at hfailed ⊢
    obtain ⟨hfirst, hrest⟩ := List.forall_mem_cons.mp hfailed
    have hnext := ih hrest
    have hfirst' := hfirst _ rfl
    unfold visit at hnext hfirst' ⊢
    split at hnext
    · rename_i hexhausted
      rw [if_pos hexhausted] at hfirst' ⊢
      exact .skip (of_decide_eq_true hexhausted) hnext
    · rename_i hexhausted
      rw [if_neg hexhausted] at hfirst' ⊢
      have hlt : budget.count < budget.limit := by
        simpa [UpdateBudget.isExhausted] using hexhausted
      generalize hrun : s.execute (.update child.id) e = result at hnext hfirst' ⊢
      obtain ⟨r, e'⟩ := result
      cases r with
      | error err => exact absurd rfl hfirst'
      | ok status =>
        have hu := execute_update_ok hrun
        -- An update that changed nothing costs nothing.
        cases heffect : status.hadEffect with
        | false =>
          rw [heffect] at hu
          simp only [settle, heffect, Bool.false_eq_true, if_false] at hnext ⊢
          exact .update hlt hu hnext
        | true =>
          rw [heffect] at hu
          simp only [settle, heffect, if_true, UpdateBudget.spend?, if_pos hlt] at hnext ⊢
          exact .update hlt hu hnext

theorem sweep_of_settled {children : List CaIdentity} {budget : UpdateBudget} {e : Engine Journal}
    (hwf : e.tree.WellFormed) (hbudget : children ≠ [] → budget.isExhausted = false)
    (h : ∀ child ∈ children, s.services.Settled s.config.timing e.tree child.id) :
    (sweep s.execute children budget e).1 =
        children.map (fun child => ⟨child, .done .unchanged⟩) ∧
      (sweep s.execute children budget e).2.1 = budget ∧
      (sweep s.execute children budget e).2.2.tree = e.tree := by
  induction children generalizing e with
  | nil => exact ⟨rfl, rfl, rfl⟩
  | cons child rest ih =>
    obtain ⟨hfirst, hrest⟩ := List.forall_mem_cons.mp h
    have hleft := hbudget (List.cons_ne_nil child rest)
    obtain ⟨e', hrun, htree⟩ := execute_update_of_settled hwf hfirst
    have hvisit : visit s.execute child budget e = (.unchanged, budget, e') := by
      rw [visit, hleft, if_neg Bool.false_ne_true, hrun]
      rfl
    obtain ⟨htasks, hbudget', htree'⟩ := ih (e := e') (htree ▸ hwf) (fun _ => hleft) (htree ▸ hrest)
    rw [sweep, hvisit]
    exact ⟨congrArg _ htasks, hbudget', htree'.trans htree⟩

end Server

end ResourcePki
