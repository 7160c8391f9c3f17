import ResourcePki.Issuance.Handlers
import ResourcePki.Proofs.Dispatch.Outcome
import ResourcePki.Proofs.Issuance.Certification

/-! Commands with the handlers of a running system. One handler does what the command asks for; the
others check the outcome and leave it alone. Whatever a command does, the journal forgets nothing.
-/

namespace ResourcePki

namespace Journal

/-- The journal `k` remembers all that `j` remembers. -/
structure Grows (j k : Journal) : Prop where
  keys : j.keys <:+ k.keys
  signings : j.signings <:+ k.signings

instance : Std.Refl Grows := ⟨fun _ => ⟨List.suffix_rfl, List.suffix_rfl⟩⟩

instance : IsTrans Journal Grows :=
  ⟨fun _ _ _ h h' => ⟨h.keys.trans h'.keys, h.signings.trans h'.signings⟩⟩

/-- The journal `k` is `j` after some business, which counts no check of an invariant. -/
structure Continues (j k : Journal) : Prop extends Grows j k where
  metrics : k.metrics = j.metrics

instance : Std.Refl Continues := ⟨fun _ => ⟨refl _, rfl⟩⟩

instance : IsTrans Journal Continues :=
  ⟨fun _ _ _ h h' => ⟨IsTrans.trans _ _ _ h.toGrows h'.toGrows, h'.metrics.trans h.metrics⟩⟩

theorem metrics_checked_self (j : Journal) (m : InvariantModel) (violated : Bool) :
    (j.checked m violated).metrics m = (j.metrics m).checked violated := by
  cases m <;> rfl

theorem metrics_checked_ne (j : Journal) {m m' : InvariantModel} (hne : m' ≠ m)
    (violated : Bool) : (j.checked m violated).metrics m' = j.metrics m' := by
  cases m <;> cases m'
  · exact absurd rfl hne
  · rfl
  · rfl
  · exact absurd rfl hne

theorem continues_alignPair (terms : CertificationTerms) (j : Journal)
    (parent child : CertificateAuthority) : Continues j (alignPair terms j parent child).1.2 := by
  unfold alignPair
  split
  · exact refl j
  · rename_i parentKeys _
    have hsignings := Certification.align_signings terms ⟨parentKeys, child, j.signings⟩
    generalize Certification.align terms ⟨parentKeys, child, j.signings⟩ = aligned at hsignings ⊢
    exact ⟨⟨List.suffix_rfl, hsignings⟩, rfl⟩

end Journal

open ResourcePki.Action

theorem KeySource.suffix_take (source : KeySource) (answers : List (Except Error String)) :
    answers <:+ (source.take answers).2 := List.suffix_cons _ _

theorem CertificateAuthority.suffix_prepareRequest (ca : CertificateAuthority)
    (children : List CaIdentity) (source : KeySource) (id : Uuid) (now : Time)
    (answers : List (Except Error String)) :
    answers <:+ (ca.prepareRequest children source id now answers).2 := by
  unfold prepareRequest
  split
  · dsimp only
    split
    · have hsuffix := source.suffix_take answers
      generalize source.take answers = taken at hsuffix ⊢
      obtain ⟨r, answers'⟩ := taken
      cases r <;> exact hsuffix
    · exact List.suffix_rfl
  · exact List.suffix_rfl

namespace Services

variable (s : Services) (timing : IssuanceTiming)

theorem extends_certifiable (ca : CertificateAuthority) :
    Extends Journal.Continues (s.certifiable ca) := by
  unfold certifiable
  generalize ca.certifiable s.lookup = result
  obtain ⟨resources, event⟩ := result
  cases event with
  | none => exact .pure resources
  | some event => exact .bind (.log event) fun _ => .pure resources

theorem extends_updateIncoming (id : CaId) :
    Extends Journal.Continues (s.updateIncoming timing id) := by
  unfold updateIncoming
  refine .bind (.require id) fun ca => ?_
  split
  · refine .bind (.require _) fun parent => ?_
    split
    · refine .bind (s.extends_certifiable ca) fun requested => ?_
      split
      · exact .updatePair _ _ fun j => Journal.continues_alignPair _ j
      · exact .pure _
    · exact .pure _
  · exact .pure _

theorem extends_createKey : Extends Journal.Continues s.createKey :=
  .attempt fun j => ⟨⟨s.keys.suffix_take j.keys, List.suffix_rfl⟩, rfl⟩

theorem extends_activate (id : CaId) (name : CaName) (parent : CaId) :
    Extends Journal.Continues (s.activate timing id name parent) := by
  unfold activate
  refine .bind (.get? id) fun existing => ?_
  split
  · split
    · exact .pure _
    · exact .throw _
  · refine .bind (.require parent) fun ca => ?_
    refine .bind (.ofExcept _) fun keys => ?_
    refine .bind (.ofExcept _) fun directory => ?_
    refine .bind s.extends_createKey fun pair => ?_
    refine .bind (.insert _) fun _ => ?_
    exact .bind (s.extends_updateIncoming timing id) fun _ => .pure _

end Services

/-- Whether the check after a command finds anything wrong. -/
def InvariantModel.finds (m : InvariantModel) (command : CaCommand) (t : CaTree) : Bool :=
  !(m.checkCommand command t).isOk

namespace Handler

section Extends

variable {M : Journal → Journal → Prop} [Std.Refl M] [IsTrans Journal M]

theorem extends_noteEffect {step : Action Journal Bool} (h : Extends M step) :
    Extends M (noteEffect step) := by
  refine .bind h fun b => ?_
  cases b with
  | true => exact .setHadEffect
  | false => exact .pure _

theorem extends_generateRequest (s : Services) (id : CaId)
    (hM : ∀ (j : Journal) keys requests, j.keys <:+ keys → M j { j with keys, requests }) :
    Extends M (generateRequest s id) := by
  unfold generateRequest
  refine .bind .tree fun t => .bind (.require id) fun root => ?_
  refine .bind (.updateWith id fun j ca => ?_) fun _ => .setHadEffect
  have hsuffix := ca.suffix_prepareRequest (childIdentities t root) s.keys
    (s.requestId j.requests) s.now j.keys
  generalize ca.prepareRequest (childIdentities t root) s.keys (s.requestId j.requests) s.now
    j.keys = result at hsuffix ⊢
  obtain ⟨r, keys⟩ := result
  cases r <;> exact hM j keys _ hsuffix

theorem extends_expireIssued (id : CaId) (now : Time) : Extends M (expireIssued id now) := by
  unfold expireIssued
  refine .bind (.require id) fun ca => ?_
  split
  · exact .bind (.ofExcept _) fun r => .bind (.update id _) fun _ => .pure _
  · exact .pure _

theorem extends_registerPublisher (limit : Nat) (id : CaId) (handle : PublisherHandle)
    (repository : PublisherRepository) :
    Extends M (registerPublisher limit id handle repository) := by
  unfold registerPublisher
  refine .bind (.require id) fun ca => ?_
  split
  · exact .pure _
  · exact .bind (.update id _) fun _ => .pure _

end Extends

theorem noteEffect_ok {t t' : Session Journal} {step : Action Journal Bool} {u : Unit}
    (h : noteEffect step t = (.ok u, t')) :
    ∃ b t₁, step t = (.ok b, t₁) ∧ t'.work = t₁.work ∧
      t'.status = if b then t₁.status.setHadEffect else t₁.status := by
  unfold noteEffect at h
  obtain ⟨b, t₁, hstep, hnote⟩ := bind_ok h
  refine ⟨b, t₁, hstep, ?_⟩
  cases b with
  | true =>
    obtain ⟨-, rfl⟩ := Prod.mk.inj hnote
    exact ⟨rfl, rfl⟩
  | false =>
    obtain ⟨-, rfl⟩ := Prod.mk.inj hnote
    exact ⟨rfl, rfl⟩

/-- The handler that does what commands of a type ask for. -/
def forCommand (s : Services) (policy : IssuancePolicy) : CommandType → Handler Journal
  | .activateHostedCa => .activateHostedCa s policy.timing
  | .updateAllIncoming => .updateAllIncoming s policy.timing
  | .generateTrustAnchorRequest => .allResourcesCa s
  | .processRevokedKey => .allResourcesCa s
  | .expireOutgoing => .expireOutgoing
  | .provisionPublisher => .nonHostedPublisher policy.publisherLimit
  | .deletePublisher => .nonHostedPublisher policy.publisherLimit

theorem extends_business {s : Services} {policy : IssuancePolicy} {h : Handler Journal}
    (hh : h ∈ businessHandlers s policy) (command : CaCommand) :
    Extends Journal.Continues (h.handle command) := by
  obtain ⟨id, actor, details⟩ := command
  simp only [businessHandlers, List.mem_cons, List.not_mem_nil, or_false] at hh
  rcases hh with rfl | rfl | rfl | rfl | rfl
  · cases details with
    | activateHostedCa name parent => exact extends_noteEffect (s.extends_activate _ _ _ _)
    | _ => exact .pure _
  · exact extends_noteEffect (s.extends_updateIncoming _ _)
  · cases details with
    | generateTrustAnchorRequest =>
      exact extends_generateRequest s id fun _ _ _ hkeys => ⟨⟨hkeys, List.suffix_rfl⟩, rfl⟩
    | processRevokedKey ski => exact .bind (.update id _) fun _ => .setHadEffect
    | _ => exact .pure _
  · cases details with
    | expireOutgoing now => exact extends_noteEffect (extends_expireIssued id now)
    | _ => exact .pure _
  · cases details with
    | provisionPublisher handle request response =>
      exact extends_noteEffect (extends_registerPublisher _ id handle _)
    | deletePublisher handle => exact .bind (.update id _) fun _ => .setHadEffect
    | _ => exact .pure _

theorem invariants_handle (m : InvariantModel) (command : CaCommand) (s : Session Journal) :
    ∃ s', (Handler.invariants m).handle command s = (.ok (), s') ∧ s'.work = s.work ∧
      s'.status = s.status ∧ s'.memory = s.memory.checked m (m.finds command s.work.tree) := by
  have htree : Action.tree s = (.ok s.work.tree, s) := rfl
  unfold Handler.invariants InvariantModel.finds
  dsimp only
  rw [bind_of_ok htree]
  cases m.checkCommand command s.work.tree with
  | ok u => exact ⟨_, rfl, rfl, rfl, rfl⟩
  | error violation => exact ⟨_, rfl, rfl, rfl, rfl⟩

theorem forCommand_mem (s : Services) (policy : IssuancePolicy) (type : CommandType) :
    forCommand s policy type ∈ businessHandlers s policy := by
  cases type <;> simp [forCommand, businessHandlers]

end Handler

/-- The models whose invariants are checked after every command. -/
def IssuancePolicy.models (policy : IssuancePolicy) : List InvariantModel :=
  .hosted :: if policy.checksManaged then [.managed] else []

theorem IssuancePolicy.nodup_models (policy : IssuancePolicy) : policy.models.Nodup := by
  unfold models
  split <;> decide

theorem checkingHandlers_eq (policy : IssuancePolicy) :
    checkingHandlers policy = policy.models.map Handler.invariants := by
  unfold checkingHandlers IssuancePolicy.models
  split <;> rfl

namespace Dispatcher

variable {s : Services} {policy : IssuancePolicy} {retries : Nat} {command : CaCommand}

/-- The dispatcher of a running system. -/
def standard (s : Services) (policy : IssuancePolicy) (retries : Nat) : Dispatcher Journal :=
  .ofHandlers (standardHandlers s policy) retries

theorem sorted_standardHandlers (s : Services) (policy : IssuancePolicy) :
    (standardHandlers s policy).Pairwise fun g h => decide (g.order ≤ h.order) = true := by
  obtain ⟨timing, limit, checksManaged⟩ := policy
  cases checksManaged <;>
    simp [standardHandlers, businessHandlers, checkingHandlers, Handler.activateHostedCa,
      Handler.updateAllIncoming, Handler.allResourcesCa, Handler.expireOutgoing,
      Handler.nonHostedPublisher, Handler.invariants, Handler.observerOrder]

theorem handlers_standard (s : Services) (policy : IssuancePolicy) (retries : Nat) :
    (standard s policy retries).handlers = standardHandlers s policy :=
  List.mergeSort_of_pairwise (sorted_standardHandlers s policy)

theorem standard_eq (s : Services) (policy : IssuancePolicy) (retries : Nat) :
    standard s policy retries = { handlers := standardHandlers s policy, retries } :=
  congrArg (Dispatcher.mk · retries) (handlers_standard s policy retries)

theorem turn_standard (s : Services) (policy : IssuancePolicy) (retries : Nat)
    (command : CaCommand) : (standard s policy retries).turn command =
      .forCommand s policy command.type :: checkingHandlers policy := by
  rw [turn, handlers_standard]
  obtain ⟨timing, limit, checksManaged⟩ := policy
  cases command.type <;> cases checksManaged <;> rfl

theorem throughWork_standard :
    ∀ h ∈ (standard s policy retries).handlers, h.ThroughWork := by
  intro h hh command session
  rw [handlers_standard, standardHandlers, checkingHandlers_eq] at hh
  rcases List.mem_append.mp hh with hh | hh
  · exact (Handler.extends_business hh command session).1
  · obtain ⟨m, -, rfl⟩ := List.mem_map.mp hh
    obtain ⟨session', hrun, hwork, -⟩ := Handler.invariants_handle m command session
    rw [hrun, hwork]

/-- Checks of invariants always succeed: they only count what they find, each for its model. -/
theorem Handled.checking {models : List InvariantModel} (hnodup : models.Nodup)
    {t t' : Session Journal} {r : Except Error Unit}
    (h : Handled command (models.map Handler.invariants) t r t') :
    r = .ok () ∧ t'.work = t.work ∧ t'.status = t.status ∧
      (∀ m ∈ models, t'.memory.metrics m =
        (t.memory.metrics m).checked (m.finds command t.work.tree)) ∧
      ∀ m ∉ models, t'.memory.metrics m = t.memory.metrics m := by
  induction models generalizing t with
  | nil =>
    cases h
    exact ⟨rfl, rfl, rfl, fun m hm => absurd hm List.not_mem_nil, fun m _ => rfl⟩
  | cons m rest ih =>
    obtain ⟨hm, hrest⟩ := List.nodup_cons.mp hnodup
    obtain ⟨t₁, ht₁, hwork, hstatus, hmemory⟩ := Handler.invariants_handle m command t
    cases h with
    | stop hhandle => cases hhandle.symm.trans ht₁
    | next hhandle h' =>
      cases hhandle.symm.trans ht₁
      obtain ⟨hr, hwork', hstatus', hchecked, hother⟩ := ih hrest h'
      refine ⟨hr, hwork'.trans hwork, hstatus'.trans hstatus, fun m' hm' => ?_, fun m' hm' => ?_⟩
      · rcases List.mem_cons.mp hm' with rfl | hm'
        · rw [hother m' hm, hmemory, Journal.metrics_checked_self]
        · have hne : m' ≠ m := fun heq => hm (heq ▸ hm')
          rw [hchecked m' hm', hmemory, Journal.metrics_checked_ne _ hne, hwork]
      · have hne : m' ≠ m := fun heq => hm' (heq ▸ List.mem_cons_self ..)
        rw [hother m' fun h => hm' (List.mem_cons_of_mem _ h), hmemory,
          Journal.metrics_checked_ne _ hne]

section business

variable {h : Handler Journal} {t t' : Session Journal}

theorem Handled.standard_error {err : Error}
    (hr : Handled command (h :: checkingHandlers policy) t (.error err) t') :
    h.handle command t = (.error err, t') := by
  cases hr with
  | stop hhandle => exact hhandle
  | next hhandle hrest =>
    rw [checkingHandlers_eq] at hrest
    cases (hrest.checking policy.nodup_models).1

theorem Handled.standard_ok {u : Unit}
    (hr : Handled command (h :: checkingHandlers policy) t (.ok u) t') :
    ∃ t₁, h.handle command t = (.ok (), t₁) ∧ t'.work = t₁.work ∧ t'.status = t₁.status ∧
      ∀ m ∈ policy.models, t'.memory.metrics m =
        (t₁.memory.metrics m).checked (m.finds command t₁.work.tree) := by
  cases hr with
  | next hhandle hrest =>
    rw [checkingHandlers_eq] at hrest
    obtain ⟨-, hwork, hstatus, hchecked, -⟩ := hrest.checking policy.nodup_models
    exact ⟨_, hhandle, hwork, hstatus, hchecked⟩

/-- Attempts that failed did so before anything was checked. -/
theorem Retried.continues {tree : CaTree} {errors : List Error} {memory memory' : Journal}
    (hh : Extends Journal.Continues (h.handle command))
    (hr : Retried command (h :: checkingHandlers policy) tree errors memory memory') :
    Journal.Continues memory memory' := by
  induction hr with
  | none => exact refl _
  | @again errors memory memory' err t hfailed _ _ ih =>
    have hmemory := (hh (.start tree memory)).2
    rw [hfailed.standard_error] at hmemory
    exact IsTrans.trans _ _ _ hmemory ih

end business

/-- A command that succeeds does what its own handler does to the tree as it was, with a journal
that the failed attempts before may have written to; then its outcome is checked once. -/
theorem execute_standard_checked {e e' : Engine Journal} {status : CommandStatus}
    (h : (standard s policy retries).execute command e = (.ok status, e')) :
    ∃ memory t, Journal.Continues e.memory memory ∧
      (Handler.forCommand s policy command.type).handle command (.start e.tree memory) =
        (.ok (), t) ∧
      e'.tree = t.work.tree ∧ status = t.status ∧
      ∀ m ∈ policy.models, e'.memory.metrics m =
        (e.memory.metrics m).checked (m.finds command e'.tree) := by
  obtain ⟨errors, memory, r, t', hretried, -, hr, -, hresult, htree, hmemory⟩ :=
    attempts_handled (d := standard s policy retries) throughWork_standard command 0 retries e
  change (standard s policy retries).attempts command 0 retries e = _ at h
  rw [h] at hresult htree hmemory
  rw [turn_standard] at hretried hr
  cases r with
  | error err => cases hresult
  | ok u =>
    have hbusiness : Extends Journal.Continues
        ((Handler.forCommand s policy command.type).handle command) :=
      Handler.extends_business (Handler.forCommand_mem s policy command.type) command
    obtain ⟨t, hhandle, hwork, hstatus, hchecked⟩ := hr.standard_ok
    have hbefore := hretried.continues hbusiness
    have hduring := (hbusiness (.start e.tree memory)).2
    rw [hhandle] at hduring
    have htree' : e'.tree = t.work.tree := htree.trans (by rw [hwork])
    refine ⟨memory, t, hbefore, hhandle, htree', ?_, fun m hm => ?_⟩
    · exact (Except.ok.inj hresult).trans hstatus
    · have hsame : t.memory.metrics = e.memory.metrics := hduring.metrics.trans hbefore.metrics
      show e'.memory.metrics m = _
      rw [show e'.memory = t'.memory from hmemory, hchecked m hm, hsame, htree']

theorem execute_standard_ok {e e' : Engine Journal} {status : CommandStatus}
    (h : (standard s policy retries).execute command e = (.ok status, e')) :
    ∃ memory t, Journal.Grows e.memory memory ∧
      (Handler.forCommand s policy command.type).handle command (.start e.tree memory) =
        (.ok (), t) ∧
      e'.tree = t.work.tree ∧ status = t.status := by
  obtain ⟨memory, t, hcontinues, hhandle, htree, hstatus, -⟩ := execute_standard_checked h
  exact ⟨memory, t, hcontinues.toGrows, hhandle, htree, hstatus⟩

theorem execute_standard_error {e e' : Engine Journal} {err : Error}
    (h : (standard s policy retries).execute command e = (.error err, e')) :
    e'.tree = e.tree := by
  obtain ⟨errors, memory, -, -, hlast⟩ :=
    attempts_outcome throughWork_standard command 0 retries e
  change LastAttempt _ _ _ _ _ ((standard s policy retries).execute command e).1
    ((standard s policy retries).execute command e).2.tree at hlast
  rw [h] at hlast
  generalize htree : e'.tree = tree at hlast
  cases hlast with
  | failure hr _ => rfl

theorem execute_standard_of_handle {e : Engine Journal} {r : Except Error Unit}
    {t : Session Journal} (hfinal : ∀ err, r = .error err → err.isTransient = false)
    (h : (Handler.forCommand s policy command.type).handle command (.start e.tree e.memory) =
      (r, t)) :
    ∃ e', (standard s policy retries).execute command e = (r.map fun _ => t.status, e') ∧
      e'.tree = match r with
        | .ok _ => t.work.tree
        | .error _ => e.tree := by
  obtain ⟨r', t', hr, hresult, htree, -⟩ :=
    attempt_outcome (d := standard s policy retries) throughWork_standard command e
  rw [turn_standard] at hr
  refine ⟨((standard s policy retries).attempt command e).2, ?_⟩
  cases r' with
  | error err =>
    obtain ⟨rfl, rfl⟩ := Prod.mk.inj (hr.standard_error.symm.trans h)
    refine ⟨execute_of_attempt (Prod.ext hresult rfl) fun err' herr => ?_, htree⟩
    exact hfinal err' (congrArg _ (Except.error.inj herr))
  | ok u =>
    obtain ⟨t₁, hhandle, hwork, hstatus, -⟩ := hr.standard_ok
    obtain ⟨rfl, rfl⟩ := Prod.mk.inj (hhandle.symm.trans h)
    rw [hstatus] at hresult
    dsimp only at htree
    rw [hwork] at htree
    exact ⟨execute_of_attempt (Prod.ext hresult rfl) fun _ herr => (nomatch herr), htree⟩

theorem execute_standard_of_ok {e : Engine Journal} {t : Session Journal}
    (h : (Handler.forCommand s policy command.type).handle command (.start e.tree e.memory) =
      (.ok (), t)) :
    ∃ e', (standard s policy retries).execute command e = (.ok t.status, e') ∧
      e'.tree = t.work.tree :=
  execute_standard_of_handle (r := .ok ()) (fun _ herr => nomatch herr) h

/-- A command whose handler finds nothing to do leaves everything as it is. -/
theorem execute_of_quiet {e : Engine Journal} {step : Action Journal Bool} {t : Session Journal}
    (hhandle : (Handler.forCommand s policy command.type).handle command = Handler.noteEffect step)
    (h : step (.start e.tree e.memory) = (.ok false, t)) (htree : t.work.tree = e.tree)
    (hstatus : t.status = {}) :
    ∃ e', (standard s policy retries).execute command e = (.ok { hadEffect := false }, e') ∧
      e'.tree = e.tree := by
  have hquiet : (Handler.forCommand s policy command.type).handle command
      (.start e.tree e.memory) = (.ok (), t) := by
    rw [hhandle, Handler.noteEffect, bind_of_ok h]
    rfl
  obtain ⟨e', hrun, htree'⟩ := execute_standard_of_ok hquiet
  rw [hstatus] at hrun
  exact ⟨e', hrun, htree'.trans htree⟩

end Dispatcher

end ResourcePki
