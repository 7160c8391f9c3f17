import ResourcePki.Simulation.Handlers
import ResourcePki.Proofs.Dispatch.Action

/-! A command is executed as a whole and once, or not at all. `Handled` says what it is to run
handlers in turn, `Retried` what the failed attempts before the last one were; both are stated
without the loops that they describe. -/

namespace ResourcePki

variable {ε : Type}

/-- A handler that changes the tree only by what a unit of work offers. -/
def Handler.ThroughWork (h : Handler ε) : Prop :=
  ∀ command s, UnitOfWork.Uses s.work (h.handle command s).2.work

theorem HandlerPlan.throughWork (p : HandlerPlan) (i : Nat) : (p.handler i).ThroughWork := by
  have hrefl : Std.Refl fun _ _ : HandlerTrace => True := ⟨fun _ => trivial⟩
  have htrans : IsTrans HandlerTrace fun _ _ => True := ⟨fun _ _ _ _ _ => trivial⟩
  have hattempt : Action.Extends (fun _ _ => True) (Action.attempt (HandlerTrace.next · i)) :=
    .attempt fun _ => trivial
  have hextends : ∀ command, Action.Extends (fun _ _ => True) ((p.handler i).handle command) := by
    intro command
    obtain ⟨name, order, filter, flag, effect⟩ := p
    refine .bind (.ask fun _ => trivial) fun _ => ?_
    cases flag with
    | none =>
      cases effect with
      | false => exact hattempt
      | true => exact .bind .setHadEffect fun _ => hattempt
    | some id =>
      refine .bind (.update id _) fun _ => ?_
      cases effect with
      | false => exact hattempt
      | true => exact .bind .setHadEffect fun _ => hattempt
  exact fun command s => (hextends command s).1

def Session.start (t : CaTree) (memory : ε) : Session ε := ⟨.begin t, {}, [], memory⟩

namespace Dispatcher

/-- Every handler of the list handles the command once, in order of the list, until one fails. -/
inductive Handled (command : CaCommand) :
    List (Handler ε) → Session ε → Except Error Unit → Session ε → Prop
  | done (s : Session ε) : Handled command [] s (.ok ()) s
  | next {h : Handler ε} {rest : List (Handler ε)} {s s' s'' : Session ε} {r : Except Error Unit} :
      h.handle command s = (.ok (), s') → Handled command rest s' r s'' →
      Handled command (h :: rest) s r s''
  | stop {h : Handler ε} {rest : List (Handler ε)} {s s' : Session ε} {err : Error} :
      h.handle command s = (.error err, s') → Handled command (h :: rest) s (.error err) s'

/-- The handlers that accept a command, each as often as it was given, in ascending order; those
of one order as they were given. -/
structure InTurn (command : CaCommand) (handlers turn : List (Handler ε)) : Prop where
  perm : turn.Perm (handlers.filter (·.filter.accepts command.type))
  ascending : turn.Pairwise (·.order ≤ ·.order)
  stable : ∀ o, turn.filter (·.order = o) =
    (handlers.filter (·.filter.accepts command.type)).filter (·.order = o)

/-- Attempts that all began with the tree `t` and failed with errors that may pass; `memory` goes
from each to the next. -/
inductive Retried (command : CaCommand) (turn : List (Handler ε)) (t : CaTree) :
    List Error → ε → ε → Prop
  | none (memory : ε) : Retried command turn t [] memory memory
  | again {errors : List Error} {memory memory' : ε} {err : Error} {s : Session ε} :
      Handled command turn (.start t memory) (.error err) s → err.isTransient = true →
      Retried command turn t errors s.memory memory' →
      Retried command turn t (err :: errors) memory memory'

def turn (d : Dispatcher ε) (command : CaCommand) : List (Handler ε) :=
  d.handlers.filter (·.filter.accepts command.type)

theorem runHandlers_cons_of_accepts {command : CaCommand} {h : Handler ε}
    (haccept : h.filter.accepts command.type = true) (rest : List (Handler ε)) :
    runHandlers command (h :: rest) =
      (h.handle command >>= fun _ => runHandlers command rest : Action ε Unit) := by
  rw [runHandlers, if_pos haccept]

theorem runHandlers_cons_of_not_accepts {command : CaCommand} {h : Handler ε}
    (haccept : ¬ h.filter.accepts command.type = true) (rest : List (Handler ε)) :
    runHandlers command (h :: rest) = runHandlers command rest := by
  rw [runHandlers, if_neg haccept]

theorem handled_runHandlers (command : CaCommand) (handlers : List (Handler ε)) (s : Session ε) :
    Handled command (handlers.filter (·.filter.accepts command.type)) s
      (runHandlers command handlers s).1 (runHandlers command handlers s).2 := by
  induction handlers generalizing s with
  | nil => exact .done s
  | cons h rest ih =>
    by_cases haccept : h.filter.accepts command.type = true
    · rw [List.filter_cons, if_pos haccept, runHandlers_cons_of_accepts haccept]
      cases hh : h.handle command s with
      | mk r s' =>
        cases r with
        | ok u =>
          rw [Action.bind_of_ok hh]
          exact .next hh (ih s')
        | error err =>
          rw [Action.bind_of_error hh]
          exact .stop hh
    · rw [List.filter_cons, if_neg haccept, runHandlers_cons_of_not_accepts haccept]
      exact ih s

theorem Handled.uses {command : CaCommand} {handlers : List (Handler ε)} {s s' : Session ε}
    {r : Except Error Unit} (hwork : ∀ h ∈ handlers, h.ThroughWork)
    (hr : Handled command handlers s r s') : UnitOfWork.Uses s.work s'.work := by
  induction hr with
  | done s => exact .refl
  | @next h rest s₀ s₁ s₂ r hh _ ih =>
    have hfirst := hwork h (List.mem_cons_self ..) command s₀
    rw [hh] at hfirst
    exact hfirst.trans (ih fun g hg => hwork g (List.mem_cons_of_mem _ hg))
  | @stop h rest s₀ s₁ err hh =>
    have hfirst := hwork h (List.mem_cons_self ..) command s₀
    rwa [hh] at hfirst

variable {d : Dispatcher ε} {command : CaCommand} {e : Engine ε}

/-- One attempt commits what all handlers did, or leaves the tree alone. -/
theorem attempt_outcome (hwork : ∀ h ∈ d.handlers, h.ThroughWork) (command : CaCommand)
    (e : Engine ε) :
    ∃ r s, Handled command (d.turn command) (.start e.tree e.memory) r s ∧
      (d.attempt command e).1 = r.map (fun _ => s.status) ∧
      (d.attempt command e).2.tree = (match r with | .ok _ => s.work.tree | .error _ => e.tree) ∧
      (d.attempt command e).2.memory = s.memory := by
  have hturn : ∀ h ∈ d.turn command, h.ThroughWork := fun h hh => hwork h (List.mem_filter.mp hh).1
  have hr := handled_runHandlers command d.handlers (.start e.tree e.memory)
  refine ⟨_, _, hr, ?_⟩
  -- The handlers had the tree through the unit of work only, so rolling back undoes all of it.
  have hback := UnitOfWork.rollback_eq_of_uses (hr.uses hturn)
  rw [attempt,
    show (⟨.begin e.tree, {}, [], e.memory⟩ : Session ε) = .start e.tree e.memory from rfl]
  generalize runHandlers command d.handlers (.start e.tree e.memory) = run at hback ⊢
  obtain ⟨r, s⟩ := run
  cases r with
  | ok u => exact ⟨rfl, rfl, rfl⟩
  | error err => exact ⟨rfl, hback, rfl⟩

/-- Nothing is tried again after a success or an error that will not pass. -/
theorem execute_of_attempt {r : Except Error CommandStatus} {e' : Engine ε}
    (h : d.attempt command e = (r, e')) (hfinal : ∀ err, r = .error err → err.isTransient = false) :
    d.execute command e = (r, e') := by
  unfold execute
  cases d.retries with
  | zero => rw [attempts, h]
  | succ left =>
    rw [attempts, h]
    cases r with
    | ok status => rfl
    | error err =>
      dsimp only
      rw [hfinal err rfl, if_neg Bool.false_ne_true]

/-- What the last attempt made of the tree `t`. Its error is final when it will not pass, or when
`left` says that no further attempt was allowed. -/
inductive LastAttempt (command : CaCommand) (turn : List (Handler ε)) (t : CaTree) (memory : ε)
    (left : Prop) : Except Error CommandStatus → CaTree → Prop
  | success {s : Session ε} : Handled command turn (.start t memory) (.ok ()) s →
      LastAttempt command turn t memory left (.ok s.status) s.work.tree
  | failure {err : Error} {s : Session ε} : Handled command turn (.start t memory) (.error err) s →
      (err.isTransient = false ∨ left) → LastAttempt command turn t memory left (.error err) t

/-- The last attempt began with the tree as it was, and with what the attempts before it had left
in the memory. -/
theorem attempts_handled (hwork : ∀ h ∈ d.handlers, h.ThroughWork) (command : CaCommand)
    (done left : Nat) (e : Engine ε) :
    ∃ errors memory r s, Retried command (d.turn command) e.tree errors e.memory memory ∧
      errors.length ≤ left ∧ Handled command (d.turn command) (.start e.tree memory) r s ∧
      (∀ err, r = .error err → err.isTransient = false ∨ errors.length = left) ∧
      (d.attempts command done left e).1 = r.map (fun _ => s.status) ∧
      (d.attempts command done left e).2.tree =
        (match r with | .ok _ => s.work.tree | .error _ => e.tree) ∧
      (d.attempts command done left e).2.memory = s.memory := by
  induction left generalizing done e with
  | zero =>
    obtain ⟨r, s, hr, houtcome⟩ := attempt_outcome hwork command e
    exact ⟨[], e.memory, r, s, .none _, Nat.le_refl _, hr, fun _ _ => .inr rfl, houtcome⟩
  | succ left ih =>
    obtain ⟨r, s, hr, hresult, htree, hmemory⟩ := attempt_outcome hwork command e
    rw [attempts]
    generalize d.attempt command e = attempted at hresult htree hmemory
    obtain ⟨result, e'⟩ := attempted
    dsimp only at hresult htree hmemory
    cases r with
    | ok u =>
      subst hresult
      exact ⟨[], e.memory, .ok u, s, .none _, Nat.zero_le _, hr, fun _ herr => (nomatch herr),
        rfl, htree, hmemory⟩
    | error err =>
      subst hresult
      dsimp only [Except.map]
      -- Only after an error that may pass is there a further attempt, from the same tree.
      by_cases htransient : err.isTransient = true
      · rw [if_pos htransient]
        obtain ⟨errors, memory, r, s', hretried, hlength, hr', hlast, houtcome⟩ :=
          ih (done + 1) (e'.note (.retrying command (done + 1) err))
        have htree' : (e'.note (.retrying command (done + 1) err)).tree = e.tree := htree
        have hmemory' : (e'.note (.retrying command (done + 1) err)).memory = s.memory := hmemory
        rw [htree', hmemory'] at hretried
        rw [htree'] at hr' houtcome
        refine ⟨err :: errors, memory, r, s', .again hr htransient hretried,
          Nat.succ_le_succ hlength, hr', fun err' herr => ?_, houtcome⟩
        exact (hlast err' herr).imp_right fun h => by rw [List.length_cons, h]
      · rw [if_neg htransient]
        refine ⟨[], e.memory, .error err, s, .none _, Nat.zero_le _, hr, fun err' herr => ?_, rfl,
          htree, hmemory⟩
        obtain rfl := Except.error.inj herr
        exact .inl (by simpa using htransient)

theorem attempts_outcome (hwork : ∀ h ∈ d.handlers, h.ThroughWork) (command : CaCommand)
    (done left : Nat) (e : Engine ε) :
    ∃ errors memory, Retried command (d.turn command) e.tree errors e.memory memory ∧
      errors.length ≤ left ∧
      LastAttempt command (d.turn command) e.tree memory (errors.length = left)
        (d.attempts command done left e).1 (d.attempts command done left e).2.tree := by
  obtain ⟨errors, memory, r, s, hretried, hlength, hr, hlast, hresult, htree, -⟩ :=
    attempts_handled hwork command done left e
  refine ⟨errors, memory, hretried, hlength, ?_⟩
  rw [hresult, htree]
  cases r with
  | ok u => exact .success hr
  | error err => exact .failure hr (hlast err rfl)

theorem order_trans (a b c : Handler ε) (hab : decide (a.order ≤ b.order) = true)
    (hbc : decide (b.order ≤ c.order) = true) : decide (a.order ≤ c.order) = true := by
  simp only [decide_eq_true_eq] at *
  exact Int.le_trans hab hbc

theorem order_total (a b : Handler ε) :
    (decide (a.order ≤ b.order) || decide (b.order ≤ a.order)) = true := by
  simp only [Bool.or_eq_true, decide_eq_true_eq]
  exact Int.le_total a.order b.order

theorem inTurn_ofHandlers (handlers : List (Handler ε)) (retries : Nat) (command : CaCommand) :
    InTurn command handlers ((ofHandlers handlers retries).turn command) := by
  have hperm := List.mergeSort_perm handlers fun g h : Handler ε => decide (g.order ≤ h.order)
  have hsorted : ((ofHandlers handlers retries).handlers).Pairwise (·.order ≤ ·.order) := by
    have hpairwise : (handlers.mergeSort fun g h => decide (g.order ≤ h.order)).Pairwise
        fun g h => decide (g.order ≤ h.order) = true :=
      List.pairwise_mergeSort order_trans order_total handlers
    exact hpairwise.imp fun h => of_decide_eq_true h
  have hturn : ((ofHandlers handlers retries).turn command).Perm
      (handlers.filter (·.filter.accepts command.type)) := hperm.filter _
  refine ⟨hturn, hsorted.filter _, fun o => ?_⟩
  -- The handlers of one order are in order already, so sorting keeps them as a sublist.
  have hsub : (handlers.filter (·.order = o)).Sublist ((ofHandlers handlers retries).handlers) := by
    change List.Sublist _ (handlers.mergeSort fun g h => decide (g.order ≤ h.order))
    refine List.sublist_mergeSort order_trans order_total ?_ List.filter_sublist
    refine List.pairwise_of_forall_mem_list fun a ha b hb => ?_
    simp only [List.mem_filter, decide_eq_true_eq] at ha hb
    simp [ha.2, hb.2]
  have hsame : handlers.filter (·.order = o) =
      (ofHandlers handlers retries).handlers.filter (·.order = o) := by
    have hkept := hsub.filter (·.order = o)
    simp only [List.filter_filter, Bool.and_self] at hkept
    exact hkept.eq_of_length (hperm.filter _).length_eq.symm
  have hswap : ∀ l : List (Handler ε),
      (l.filter (·.filter.accepts command.type)).filter (·.order = o) =
        (l.filter (·.order = o)).filter (·.filter.accepts command.type) := fun l => by
    rw [List.filter_filter, List.filter_filter]
    exact List.filter_congr fun h _ => Bool.and_comm _ _
  rw [turn, hswap, hswap, hsame]

/-- Executing a command either leaves the tree alone or makes it what one attempt at the tree made
of it, in which every handler that accepts the command ran once and in its turn. Attempts are
repeated after errors that may pass and for no other reason, and as often as allowed. -/
theorem execute_all_or_nothing (handlers : List (Handler ε))
    (hwork : ∀ h ∈ handlers, h.ThroughWork) (retries : Nat) (command : CaCommand) (e : Engine ε) :
    ∃ turn errors memory, InTurn command handlers turn ∧
      Retried command turn e.tree errors e.memory memory ∧ errors.length ≤ retries ∧
      LastAttempt command turn e.tree memory (errors.length = retries)
        ((ofHandlers handlers retries).execute command e).1
        ((ofHandlers handlers retries).execute command e).2.tree := by
  have hsorted : ∀ h ∈ (ofHandlers handlers retries).handlers, h.ThroughWork :=
    fun h hh => hwork h (List.mem_mergeSort.mp hh)
  obtain ⟨errors, memory, hretried, hlength, hlast⟩ :=
    attempts_outcome hsorted command 0 retries e
  exact ⟨_, errors, memory, inTurn_ofHandlers handlers retries command, hretried, hlength, hlast⟩

/-- Two handlers with plans; the one that comes second was given first, and is to fail once. -/
def plannedHandlers : List (Handler HandlerTrace) :=
  [HandlerPlan.handler ⟨"second", 20, .any, none, true⟩ 0,
    HandlerPlan.handler ⟨"first", 10, .any, some 1, false⟩ 1]

def plannedEngine : Engine HandlerTrace where
  tree := { cas := ⟨[(1, { id := 1, name := "CN=member", kind := .hosted { directory := ⟨""⟩ } })],
              List.pairwise_singleton _ _⟩ }
  memory := { plans := [[some (.unavailable "offline")], []] }

def plannedCommand : CaCommand := ⟨1, .background, .updateAllIncoming⟩

theorem execute_planned_all_or_nothing :
    (∀ h ∈ plannedHandlers, h.ThroughWork) ∧
    ∃ turn errors memory, InTurn plannedCommand plannedHandlers turn ∧
      Retried plannedCommand turn plannedEngine.tree errors plannedEngine.memory memory ∧
      errors.length ≤ 1 ∧
      LastAttempt plannedCommand turn plannedEngine.tree memory (errors.length = 1)
        ((ofHandlers plannedHandlers 1).execute plannedCommand plannedEngine).1
        ((ofHandlers plannedHandlers 1).execute plannedCommand plannedEngine).2.tree := by
  have hwork : ∀ h ∈ plannedHandlers, h.ThroughWork := by
    refine List.forall_mem_cons.mpr ⟨?_, List.forall_mem_singleton.mpr ?_⟩
    · exact HandlerPlan.throughWork _ 0
    · exact HandlerPlan.throughWork _ 1
  exact ⟨hwork, execute_all_or_nothing plannedHandlers hwork 1 plannedCommand plannedEngine⟩

end Dispatcher

end ResourcePki
