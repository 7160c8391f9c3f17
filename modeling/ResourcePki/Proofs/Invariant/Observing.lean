import ResourcePki.Proofs.Dispatch.Agreement
import ResourcePki.Proofs.Invariant.Watching

/-! Checking invariants is only looking: no command ends otherwise because of it, and what is
counted is how many commands succeeded and left something wrong. -/

namespace ResourcePki

open ResourcePki.Action

namespace Journal

/-- The services cannot tell the journals apart: only what the checks counted may differ. -/
structure Alike (j k : Journal) : Prop where
  signings : j.signings = k.signings
  keys : j.keys = k.keys
  requests : j.requests = k.requests

instance : Std.Refl Alike := ⟨fun _ => ⟨rfl, rfl, rfl⟩⟩

instance : Std.Symm Alike :=
  ⟨fun _ _ h => ⟨h.signings.symm, h.keys.symm, h.requests.symm⟩⟩

instance : IsTrans Journal Alike :=
  ⟨fun _ _ _ h h' => ⟨h.signings.trans h'.signings, h.keys.trans h'.keys,
    h.requests.trans h'.requests⟩⟩

theorem alike_checked (j : Journal) (m : InvariantModel) (violated : Bool) :
    Alike j (j.checked m violated) := by
  cases m <;> exact ⟨rfl, rfl, rfl⟩

theorem Alike.alignPair {j k : Journal} (h : Alike j k) (terms : CertificationTerms)
    (parent child : CertificateAuthority) :
    (alignPair terms j parent child).1.1 = (alignPair terms k parent child).1.1 ∧
      Alike (alignPair terms j parent child).1.2 (alignPair terms k parent child).1.2 ∧
      (alignPair terms j parent child).2 = (alignPair terms k parent child).2 := by
  unfold ResourcePki.alignPair
  cases parent.requireKeys with
  | error err => exact ⟨rfl, h, rfl⟩
  | ok keys =>
    dsimp only
    rw [h.signings]
    exact ⟨rfl, ⟨rfl, h.keys, h.requests⟩, rfl⟩

end Journal

section business

variable (s : Services) (timing : IssuanceTiming) {step : Action Journal Bool}

theorem Services.respects_updateIncoming (id : CaId) :
    Respects Journal.Alike (s.updateIncoming timing id) := by
  unfold updateIncoming
  refine .bind (.require id) fun ca => ?_
  split
  · refine .bind (.require _) fun parent => ?_
    split
    · refine .bind ?_ fun requested => ?_
      · unfold certifiable
        generalize ca.certifiable s.lookup = result
        obtain ⟨resources, event⟩ := result
        cases event with
        | none => exact .pure resources
        | some event => exact .bind (.log event) fun _ => .pure resources
      · split
        · exact .updatePair _ _ fun j k p c h => h.alignPair _ p c
        · exact .pure _
    · exact .pure _
  · exact .pure _

theorem Services.respects_createKey : Respects Journal.Alike s.createKey := by
  refine .attempt fun j k h => ?_
  dsimp only
  rw [h.keys]
  exact ⟨rfl, h.signings, rfl, h.requests⟩

theorem Services.respects_activate (id : CaId) (name : CaName) (parent : CaId) :
    Respects Journal.Alike (s.activate timing id name parent) := by
  unfold activate
  refine .bind (.get? id) fun existing => ?_
  split
  · split
    · exact .pure _
    · exact .throw _
  · refine .bind (.require parent) fun ca => ?_
    refine .bind (.ofExcept _) fun keys => ?_
    refine .bind (.ofExcept _) fun directory => ?_
    refine .bind s.respects_createKey fun pair => ?_
    refine .bind (.insert _) fun _ => ?_
    exact .bind (s.respects_updateIncoming timing id) fun _ => .pure _

namespace Handler

theorem respects_noteEffect {R : Journal → Journal → Prop} (h : Respects R step) :
    Respects R (noteEffect step) := by
  refine .bind h fun b => ?_
  cases b with
  | true => exact .setHadEffect
  | false => exact .pure _

theorem respects_generateRequest (id : CaId) :
    Respects Journal.Alike (generateRequest s id) := by
  unfold generateRequest
  refine .bind .tree fun t => .bind (.require id) fun root => ?_
  refine .bind (.updateWith id fun j k ca h => ?_) fun _ => .setHadEffect
  rw [h.keys, h.requests]
  generalize ca.prepareRequest (childIdentities t root) s.keys (s.requestId k.requests) s.now
    k.keys = result
  obtain ⟨r, keys⟩ := result
  cases r <;> exact ⟨rfl, h.signings, rfl, rfl⟩

theorem respects_business {s : Services} {policy : IssuancePolicy} {h : Handler Journal}
    (hh : h ∈ businessHandlers s policy) (command : CaCommand) :
    Respects Journal.Alike (h.handle command) := by
  obtain ⟨id, actor, details⟩ := command
  simp only [businessHandlers, List.mem_cons, List.not_mem_nil, or_false] at hh
  -- A handler does nothing for the commands of the others.
  rcases hh with rfl | rfl | rfl | rfl | rfl
  · cases details with
    | activateHostedCa name parent => exact respects_noteEffect (s.respects_activate _ _ _ _)
    | _ => exact .pure _
  · exact respects_noteEffect (s.respects_updateIncoming _ _)
  · cases details with
    | generateTrustAnchorRequest => exact respects_generateRequest s id
    | processRevokedKey ski => exact .bind (.update id _) fun _ => .setHadEffect
    | _ => exact .pure _
  · cases details with
    | expireOutgoing now =>
      refine respects_noteEffect (.bind (.require id) fun ca => ?_)
      split
      · exact .bind (.ofExcept _) fun r => .bind (.update id _) fun _ => .pure _
      · exact .pure _
    | _ => exact .pure _
  · cases details with
    | provisionPublisher handle request response =>
      refine respects_noteEffect (.bind (.require id) fun ca => ?_)
      split
      · exact .pure _
      · exact .bind (.update id _) fun _ => .pure _
    | deletePublisher handle => exact .bind (.update id _) fun _ => .setHadEffect
    | _ => exact .pure _

theorem observes_invariants (m : InvariantModel) :
    (Handler.invariants m).Observes Journal.Alike := by
  intro command t
  obtain ⟨t', hrun, hwork, hstatus, hmemory⟩ := invariants_handle m command t
  refine ⟨t', hrun, hwork.symm, hstatus.symm, ?_⟩
  rw [hmemory]
  exact t.memory.alike_checked m _

end Handler

end business

namespace Dispatcher

variable {s : Services} {policy : IssuancePolicy} {retries : Nat} {command : CaCommand}

theorem withObservers_standard (s : Services) (policy : IssuancePolicy) (retries : Nat) :
    (standard s policy retries).WithObservers Journal.Alike (businessHandlers s policy) := by
  refine ⟨checkingHandlers policy, handlers_standard s policy retries, fun h hh => ?_⟩
  rw [checkingHandlers_eq] at hh
  obtain ⟨m, -, rfl⟩ := List.mem_map.mp hh
  exact Handler.observes_invariants m

/-- The dispatcher of a system that checks nothing. -/
def unchecked (s : Services) (policy : IssuancePolicy) (retries : Nat) : Dispatcher Journal :=
  .ofHandlers (businessHandlers s policy) retries

theorem withObservers_unchecked (s : Services) (policy : IssuancePolicy) (retries : Nat) :
    (unchecked s policy retries).WithObservers Journal.Alike (businessHandlers s policy) := by
  refine ⟨[], ?_, fun h hh => absurd hh List.not_mem_nil⟩
  have hsorted := sorted_standardHandlers s policy
  rw [standardHandlers] at hsorted
  rw [List.append_nil]
  exact List.mergeSort_of_pairwise (List.pairwise_append.mp hsorted).1

/-- Attempts that failed are not counted, nor is a command that failed for good. -/
theorem execute_standard_uncounted {e e' : Engine Journal} {err : Error}
    (h : (standard s policy retries).execute command e = (.error err, e')) :
    e'.memory.metrics = e.memory.metrics := by
  obtain ⟨errors, memory, r, t, hretried, -, hr, -, hresult, -, hmemory⟩ :=
    attempts_handled (d := standard s policy retries) throughWork_standard command 0 retries e
  change (standard s policy retries).attempts command 0 retries e = _ at h
  rw [h] at hresult hmemory
  rw [turn_standard] at hretried hr
  cases r with
  | ok u => cases hresult
  | error err' =>
    have hbusiness : Extends Journal.Continues
        ((Handler.forCommand s policy command.type).handle command) :=
      Handler.extends_business (Handler.forCommand_mem s policy command.type) command
    have hduring := (hbusiness (.start e.tree memory)).2
    rw [hr.standard_error] at hduring
    rw [show e'.memory = t.memory from hmemory, hduring.metrics]
    exact (hretried.continues hbusiness).metrics

theorem execute_standard_counted (s : Services) {m : InvariantModel} (hm : m ∈ policy.models)
    (retries : Nat) (command : CaCommand) (e : Engine Journal) :
    let r := (standard s policy retries).execute command e
    (r.2.memory.metrics m).violations.value = (e.memory.metrics m).violations.value +
      if r.1.isOk && m.finds command r.2.tree then 1 else 0 := by
  intro r
  cases hrun : (standard s policy retries).execute command e with
  | mk result e' =>
    rw [show r = (result, e') from hrun]
    cases result with
    | error err =>
      rw [execute_standard_uncounted hrun]
      rfl
    | ok status =>
      obtain ⟨memory, t, -, -, -, -, hchecked⟩ := execute_standard_checked hrun
      rw [hchecked m hm, InvariantMetrics.checked]
      cases m.finds command e'.tree <;> rfl

end Dispatcher

/-- Whether the command succeeded and left behind what the check of the model rejects. -/
def Answer.violates (m : InvariantModel) (answer : Answer) : Bool :=
  answer.result.isOk && m.finds answer.command answer.tree

theorem Engine.run_counted {policy : IssuancePolicy} {m : InvariantModel} (hm : m ∈ policy.models)
    (retries : Nat) (orders : List (Services × CaCommand)) (e : Engine Journal) :
    let r := e.run (Dispatcher.standard · policy retries) orders
    (r.2.memory.metrics m).violations.value =
      (e.memory.metrics m).violations.value + r.1.countP (·.violates m) := by
  induction orders generalizing e with
  | nil => rfl
  | cons order rest ih =>
    obtain ⟨s, command⟩ := order
    have hfirst := Dispatcher.execute_standard_counted s hm retries command e
    have hrest := ih ((Dispatcher.standard s policy retries).execute command e).2
    dsimp only [run] at hfirst hrest ⊢
    rw [hrest, hfirst, List.countP_cons, Answer.violates]
    dsimp only
    omega

/-- Whether the checks are those of both models, of hosted CAs only, or none: commands give the same
results and leave the same trees, whatever the services do. A model that is checked counts one
violation for each command that succeeds and leaves something wrong, and counts nothing else; in 64
bits, as long as there are fewer than 2^64 of them. -/
theorem invariants_only_observed (policy : IssuancePolicy) (retries : Nat) (managed : Bool)
    (orders : List (Services × CaCommand)) (e : Engine Journal) :
    let checked :=
      e.run (Dispatcher.standard · { policy with checksManaged := managed } retries) orders
    let unchecked := e.run (Dispatcher.unchecked · policy retries) orders
    checked.1 = unchecked.1 ∧ checked.2.tree = unchecked.2.tree ∧
      ∀ m, (m = .managed → managed = true) → (checked.2.memory.metrics m).violations.value =
        (e.memory.metrics m).violations.value + checked.1.countP (·.violates m) := by
  intro checked unchecked
  obtain ⟨hanswers, hagree⟩ := Engine.run_agree (businessHandlers · policy)
    (fun _ _ hh => Handler.respects_business hh)
    (fun s => Dispatcher.withObservers_standard s { policy with checksManaged := managed } retries)
    (fun s => Dispatcher.withObservers_unchecked s policy retries) (fun _ => rfl) orders
    (e := e) ⟨rfl, refl _⟩
  refine ⟨hanswers, hagree.tree, fun m hm => Engine.run_counted ?_ retries orders e⟩
  cases m with
  | hosted => exact List.mem_cons_self ..
  | managed =>
    rw [hm rfl]
    exact List.mem_cons_of_mem _ (List.mem_singleton_self _)

/-- In the chain one command leaves the upper member with a certificate of its child that it has no
right to any more, and one fails; only the first is counted. -/
theorem invariants_only_observed_in_chain :
    let orders := [(Chain.services, ⟨3, .background, .updateAllIncoming⟩),
      (Chain.services, ⟨9, .background, .updateAllIncoming⟩)]
    let checked := Chain.engine.run (Dispatcher.standard · {} 3) orders
    checked.1 = (Chain.engine.run (Dispatcher.unchecked · {} 3) orders).1 ∧
      checked.1.map (·.result.isOk) = [true, false] ∧
      (checked.2.memory.metrics .managed).violations.value = 1 := by
  intro orders checked
  obtain ⟨hanswers, -, hcounted⟩ := invariants_only_observed {} 3 true orders Chain.engine
  have hresults : checked.1.map (·.result.isOk) = [true, false] := by
    simp only [checked, orders, Dispatcher.standard_eq]
    decide +kernel
  have hviolations : checked.1.countP (·.violates .managed) = 1 := by
    simp only [checked, orders, Dispatcher.standard_eq]
    decide +kernel
  exact ⟨hanswers, hresults, (hcounted .managed fun _ => rfl).trans
    ((congrArg _ hviolations).trans rfl)⟩

end ResourcePki
